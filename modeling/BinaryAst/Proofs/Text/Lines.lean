import BinaryAst.Value.Text
/-!
# BinaryAst.Proofs.Text.Lines

Text and its lines.

A text is cut behind the end of each line (`Text.lines`), and nothing is lost by it
(`Text.join_lines`). Written lines are cut into what was written for each of them, if none has
the end of a line in it (`Line.lines_writeAll`). Then blanks in front of each line of the text
are a larger indent of each line (`Line.shiftRight_writeAll`).
-/

namespace BinaryAst

namespace Text

/-! ### Lines of characters -/

/-- The lines of characters, each with its end; the last may have none. -/
def cut : List Char → List (List Char)
  | [] => []
  | c :: rest =>
    if c = '\n' then [c] :: cut rest
    else match cut rest with
      | [] => [[c]]
      | line :: lines => (c :: line) :: lines

/-- `cut` loses no character. -/
theorem flatten_cut (chars : List Char) : (cut chars).flatten = chars := by
  induction chars with
  | nil => rfl
  | cons c rest ih =>
      rw [cut]
      split
      case isTrue => rw [List.flatten_cons, ih, List.singleton_append]
      case isFalse =>
        cases hcut : cut rest with
        | nil =>
            rw [hcut] at ih
            rw [← ih]
            rfl
        | cons line lines =>
            rw [hcut, List.flatten_cons] at ih
            rw [← ih]
            rfl

/-- `cut` ends the first line at the first end of a line. -/
theorem cut_append {line : List Char} (h : '\n' ∉ line) (rest : List Char) :
    cut (line ++ '\n' :: rest) = (line ++ ['\n']) :: cut rest := by
  induction line with
  | nil => rfl
  | cons c line ih =>
      have hc : '\n' ≠ c := List.ne_of_not_mem_cons h
      rw [List.cons_append, cut, if_neg hc.symm, ih (List.not_mem_of_not_mem_cons h)]
      rfl

/-! ### Lines of a text -/

/-- The lines of a text, each with its end; the last may have none. -/
def lines (text : String) : List String := (cut text.toList).map String.ofList

/-- `lines` loses nothing of a text: what it cuts apart makes up the text again. -/
theorem join_lines (text : String) : String.join (lines text) = text := by
  rw [← String.toList_inj, String.toList_join, lines, List.flatMap_map]
  simp only [String.toList_ofList]
  rw [List.flatMap_id', flatten_cut]

/-- A blank of a width. -/
def blank (width : Nat) : String := String.ofList (List.replicate width ' ')

/-- The text with a blank in front of each line. -/
def shiftRight (width : Nat) (text : String) : String :=
  String.join ((lines text).map (blank width ++ ·))

theorem blank_add (width more : Nat) : blank (width + more) = blank more ++ blank width := by
  rw [blank, blank, blank, ← String.ofList_append, List.replicate_append_replicate, Nat.add_comm]

/-! ### Text within a line -/

/-- There is no end of a line in the text. -/
def Single (text : String) : Prop := '\n' ∉ text.toList

instance (text : String) : Decidable (Single text) :=
  inferInstanceAs (Decidable ('\n' ∉ text.toList))

theorem Single.append {text text' : String} (h : Single text) (h' : Single text') :
    Single (text ++ text') := by
  rw [Single, String.toList_append, List.mem_append, not_or]
  exact ⟨h, h'⟩

/-- A run of one character that does not end a line. -/
theorem single_replicate {c : Char} (hc : c ≠ '\n') (count : Nat) :
    Single (String.ofList (List.replicate count c)) := by
  rw [Single, String.toList_ofList]
  exact fun hmem => hc (List.eq_of_mem_replicate hmem).symm

/-- A part of a text that is `Single` is. -/
theorem Single.of_subset {text : String} {chars : List Char} (h : Single text)
    (hsub : chars ⊆ text.toList) : Single (String.ofList chars) := by
  rw [Single, String.toList_ofList]
  exact fun hmem => h (hsub hmem)

theorem single_nat (n : Nat) : Single n.repr := by
  rw [Single, Nat.toList_repr]
  intro hmem
  have hdigit := Nat.isDigit_of_mem_toDigits (by decide) (by decide) hmem
  exact absurd hdigit (by decide)

theorem single_int (n : Int) : Single n.repr := by
  cases n with
  | ofNat n => exact single_nat n
  | negSucc n => exact Single.append (by decide) (single_nat _)

end Text

namespace Line

open Text (lines shiftRight blank Single)

theorem write_eq (line : Line) : line.write = blank line.indent ++ line.text ++ "\n" := rfl

theorem writeAll_cons (line : Line) (ls : List Line) :
    writeAll (line :: ls) = line.write ++ writeAll ls := by
  rw [writeAll, List.map_cons, String.join_cons]
  rfl

theorem writeAll_singleton (line : Line) : writeAll [line] = line.write := by
  rw [writeAll_cons]
  exact String.append_empty

theorem writeAll_append (ls ls' : List Line) :
    writeAll (ls ++ ls') = writeAll ls ++ writeAll ls' := by
  rw [writeAll, List.map_append, String.join_append]
  rfl

theorem lines_writeAll {ls : List Line} (h : ∀ line ∈ ls, Single line.text) :
    lines (writeAll ls) = ls.map write := by
  rw [lines, writeAll, String.toList_join, List.flatMap_map]
  induction ls with
  | nil => rfl
  | cons line ls ih =>
      obtain ⟨hline, hls⟩ := List.forall_mem_cons.mp h
      have hbody : Single (blank line.indent ++ line.text) :=
        (Text.single_replicate (by decide) _).append hline
      rw [List.flatMap_cons, write_eq, String.toList_append, List.append_assoc]
      rw [show "\n".toList = ['\n'] from rfl, List.singleton_append, Text.cut_append hbody,
        List.map_cons, ih hls, List.map_cons, write_eq, String.ofList_append, String.ofList_toList]

/-- The line with a larger indent. -/
def shifted (width : Nat) (line : Line) : Line := ⟨line.indent + width, line.text⟩

theorem write_shifted (width : Nat) (line : Line) :
    (line.shifted width).write = blank width ++ line.write := by
  rw [write_eq, write_eq, shifted, Text.blank_add, String.append_assoc, String.append_assoc,
    String.append_assoc]

theorem shiftRight_writeAll {ls : List Line} (h : ∀ line ∈ ls, Single line.text) (width : Nat) :
    shiftRight width (writeAll ls) = writeAll (ls.map (shifted width)) := by
  rw [shiftRight, lines_writeAll h, writeAll, List.map_map, List.map_map]
  congr 2
  funext line
  exact (write_shifted width line).symm

end Line

end BinaryAst
