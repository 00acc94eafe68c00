import BinaryAst.Proofs.Json.Lossless
import BinaryAst.Proofs.Text.Lines
/-!
# BinaryAst.Proofs.Text.Layout

The lines of a value.

A value is one line if it has no parts, or if it is inside too many levels (`Value.IsLine`). Any
other value is a line for the start, what is shown of its parts one level further in, a line for
what is not shown, and a line for the end. `Value.Layered` is the induction that follows this.

No line has the end of a line in it, if no text in the value has (`Value.OneLine`,
`Value.single_of_mem_lines`). So the lines of the text are those of the value
(`Value.lines_render`).
-/

namespace BinaryAst

open Text (Single)

namespace Value

variable {limits : TextLimits} {indent depth : Nat} {v : Value} {text : String}

/-! ### Parts of a value -/

/-- The value has no parts. -/
def isScalar : Value → Bool
  | array _ | inline _ => false
  | _ => true

/-- Inside so many levels the value is one line. -/
def IsLine (limits : TextLimits) (depth : Nat) (v : Value) : Prop :=
  v.isScalar = true ∨ limits.maxDepth ≤ depth

/-- The values without parts are those that have a `scalarText?`, under any limits. -/
theorem isScalar_eq (limits : TextLimits) (v : Value) :
    v.isScalar = (v.scalarText? limits).isSome := by
  cases v <;> rfl

/-- What holds of values inside so many levels, if it holds of their parts one level further in: an
induction with one case for a single line and one for each kind of value that has parts. -/
structure Layered (limits : TextLimits) (motive : Nat → Value → Prop) : Prop where
  line : ∀ depth v, v.IsLine limits depth → motive depth v
  array : ∀ depth items, depth < limits.maxDepth → (∀ item ∈ items, motive (depth + 1) item) →
    motive depth (.array items)
  inline : ∀ depth shape fields, depth < limits.maxDepth →
    (∀ field ∈ fields, motive (depth + 1) field.value) → motive depth (.inline ⟨shape, fields⟩)

/-- The induction that `Layered` is for. -/
theorem Layered.value (limits : TextLimits) {motive : Nat → Value → Prop}
    (h : Layered limits motive) (depth : Nat) (v : Value) : motive depth v := by
  refine Closed.value (motive := fun v => ∀ depth, motive depth v) ⟨?array, ?inline, ?atom⟩ v depth
  case array =>
    intro items ih depth
    rcases Nat.lt_or_ge depth limits.maxDepth with hdepth | hdepth
    · exact h.array depth items hdepth fun item hitem => ih item hitem _
    · exact h.line depth _ (.inr hdepth)
  case inline =>
    intro shape fields ih depth
    rcases Nat.lt_or_ge depth limits.maxDepth with hdepth | hdepth
    · exact h.inline depth shape fields hdepth fun field hfield => ih field hfield _
    · exact h.line depth _ (.inr hdepth)
  case atom =>
    intro v hitems hinline depth
    refine h.line depth v (.inl ?_)
    cases v with
    | array => cases hitems
    | inline object => exact absurd rfl (hinline object)
    | _ => rfl

/-! ### Lines -/

/-- A value with a text of its own (`scalarText?`) is one line. -/
theorem lines_of_scalar (h : v.scalarText? limits = some text) :
    v.lines limits indent depth = [⟨indent, text⟩] := by
  cases v with
  | array | inline => cases h
  | _ =>
      rw [lines, h]
      · rfl
      all_goals nofun

/-- `itemLines` are the lines of the items shown, one block after the other. -/
theorem itemLines_eq_flatMap (shown : Nat) (items : List Value) :
    itemLines limits indent depth shown items =
      (items.take shown).flatMap (·.lines limits indent depth) := by
  induction shown generalizing items with
  | zero => rw [itemLines, List.take_zero, List.flatMap_nil]
  | succ shown ih =>
      cases items with
      | nil =>
          rw [itemLines, List.take_nil, List.flatMap_nil]
          nofun
      | cons item items => rw [itemLines, ih, List.take_succ_cons, List.flatMap_cons]

/-- The lines of a field: one line with its name where the value is a scalar, and else a line with
its name in front of the lines of the value. -/
def fieldBlock (limits : TextLimits) (indent depth : Nat) (field : Field Value) : List Line :=
  match field.value.scalarText? limits with
  | some text => [⟨indent, field.name ++ " = " ++ text⟩]
  | none => ⟨indent, field.name ++ " = "⟩ :: field.value.lines limits (indent + 2) depth

/-- The lines of fields are those of the fields shown, each a `fieldBlock`. -/
theorem fieldLines_eq_flatMap (shown : Nat) (fields : List (Field Value)) :
    fieldLines limits indent depth shown fields =
      (fields.take shown).flatMap (fieldBlock limits indent depth) := by
  induction shown generalizing fields with
  | zero => rw [fieldLines, List.take_zero, List.flatMap_nil]
  | succ shown ih =>
      cases fields with
      | nil =>
          rw [fieldLines, List.take_nil, List.flatMap_nil]
          nofun
      | cons field fields =>
          rw [fieldLines, ih, List.take_succ_cons, List.flatMap_cons]
          rfl

/-- The `lines` of an array above the deepest level: the items shown, one level further in, between
two brackets, with a line for those that are not shown (`moreLines`). -/
theorem lines_array (h : depth < limits.maxDepth) (items : List Value) :
    (array items).lines limits indent depth =
      [⟨indent, "["⟩] ++
        (items.take limits.maxItems).flatMap (·.lines limits (indent + 2) (depth + 1)) ++
        moreLines (indent + 2) limits.maxItems items.length "" ++ [⟨indent, "]"⟩] := by
  rw [lines, if_neg (Nat.not_le.mpr h), itemLines_eq_flatMap]

/-- The `lines` of an array at the deepest level are one, with the number of its items. -/
theorem lines_array_deep (h : limits.maxDepth ≤ depth) (items : List Value) :
    (array items).lines limits indent depth = [⟨indent, s!"[... {items.length} items]"⟩] := by
  rw [lines, if_pos h]

/-- The `lines` of an object above the deepest level: the fields shown, one level further in,
between two braces. -/
theorem lines_inline (h : depth < limits.maxDepth) (shape : String) (fields : List (Field Value)) :
    (inline ⟨shape, fields⟩).lines limits indent depth =
      [⟨indent, shape ++ " \x7b"⟩] ++
        (fields.take limits.maxFields).flatMap (fieldBlock limits (indent + 2) (depth + 1)) ++
        moreLines (indent + 2) limits.maxFields fields.length " fields" ++ [⟨indent, "\x7d"⟩] := by
  rw [lines, if_neg (Nat.not_le.mpr h), fieldLines_eq_flatMap]

/-- The `lines` of an object at the deepest level are one, with its shape. -/
theorem lines_inline_deep (h : limits.maxDepth ≤ depth) (shape : String)
    (fields : List (Field Value)) :
    (inline ⟨shape, fields⟩).lines limits indent depth =
      [⟨indent, shape ++ " \x7b ... \x7d"⟩] := by
  rw [lines, if_pos h]

/-! ### Text within a line -/

mutual

/-- No string, symbol or name in the value has the end of a line in it. -/
def OneLine : Value → Prop
  | string text | symbol text => Single text
  | array items => ItemsOneLine items
  | inline ⟨shape, fields⟩ => Single shape ∧ FieldsOneLine fields
  | _ => True

/-- None in the items has. -/
def ItemsOneLine : List Value → Prop
  | [] => True
  | item :: items => item.OneLine ∧ ItemsOneLine items

/-- None in the fields has. -/
def FieldsOneLine : List (Field Value) → Prop
  | [] => True
  | ⟨name, value⟩ :: fields => (Single name ∧ value.OneLine) ∧ FieldsOneLine fields

end

theorem itemsOneLine_iff {items : List Value} :
    ItemsOneLine items ↔ ∀ item ∈ items, item.OneLine := by
  induction items with
  | nil => simp [ItemsOneLine]
  | cons item items ih => simp [ItemsOneLine, ih]

theorem fieldsOneLine_iff {fields : List (Field Value)} :
    FieldsOneLine fields ↔ ∀ field ∈ fields, Single field.name ∧ field.value.OneLine := by
  induction fields with
  | nil => simp [FieldsOneLine]
  | cons field fields ih => simp [FieldsOneLine, ih]

/-- `cutText` brings no end of a line into a text. -/
theorem single_cutText (limit : Nat) (h : Single text) : Single (cutText limit text) := by
  rw [cutText]
  split
  case isTrue => exact h
  case isFalse => exact (h.of_subset (List.take_subset _ _)).append (by decide)

theorem single_positional (style : Decimal.Style) (d : Decimal) : Single (d.positional style) := by
  have hzeros (count : Nat) : Single (Decimal.zeros count) :=
    Text.single_replicate (by decide) count
  have hdigits (chars : List Char) (h : chars ⊆ d.digits.repr.toList) :
      Single (String.ofList chars) := (Text.single_nat _).of_subset h
  rw [Decimal.positional]
  dsimp only
  split
  case isTrue =>
    refine ((hdigits _ (List.Subset.refl _)).append (hzeros _)).append ?_
    cases style.pointZero <;> decide
  case isFalse =>
    split
    case isTrue =>
      exact ((hdigits _ (List.take_subset _ _)).append (by decide)).append
        (hdigits _ (List.drop_subset _ _))
    case isFalse =>
      exact (Single.append (by decide) (hzeros _)).append (hdigits _ (List.Subset.refl _))

/-- In `numberStyle`, that of JSON, digits, signs and points are no ends of lines. -/
theorem single_numberText (x : Binary64) : Single (numberStyle.text x) := by
  have hsign : Single (if x.isNegative then "-" else "") := by
    cases x.isNegative <;> decide
  rw [Decimal.Style.text]
  generalize Decimal.shortest numberStyle.tie x = d
  have hpositional : d.write numberStyle = d.positional numberStyle := if_pos (.inr rfl)
  rw [hpositional]
  exact hsign.append (single_positional _ _)

theorem single_doubleText (x : Binary64) : Single (doubleText x) := by
  rw [doubleText]
  split
  case isTrue => decide
  case isFalse =>
    split
    case isTrue => exact single_numberText x
    case isFalse => cases x.isNegative <;> decide

/-- The text of a scalar is a `Single` line, if the value is `OneLine`. -/
theorem single_scalarText (limits : TextLimits) (hline : v.OneLine)
    (h : v.scalarText? limits = some text) : Single text := by
  cases v with
  | null => cases h; decide
  | bool value => cases h; cases value <;> decide
  | integer value => cases h; exact Text.single_int _
  | double value => cases h; exact single_doubleText value
  | string content =>
      cases h
      exact (Single.append (by decide) (single_cutText _ hline)).append (by decide)
  | symbol content =>
      cases h
      exact Single.append (by decide) (single_cutText _ hline)
  | internedSymbol index =>
      cases h
      exact Single.append (by decide) (Text.single_nat index)
  | ref slot =>
      cases h
      exact Single.append (by decide) (Text.single_nat slot)
  | array | inline => cases h

/-! ### Lines of the text -/

/-- A value that is one line (`IsLine`) has a text that does not depend on the indent, and it is
`Single` if the value is `OneLine`. -/
theorem IsLine.exists_text (h : v.IsLine limits depth) :
    ∃ text, (v.OneLine → Single text) ∧
      ∀ indent, v.lines limits indent depth = [⟨indent, text⟩] := by
  cases v with
  | array items =>
      refine ⟨_, fun _ => ?_, fun _ => lines_array_deep (h.resolve_left nofun) items⟩
      exact (Single.append (by decide) (Text.single_nat _)).append (by decide)
  | inline object =>
      refine ⟨_, fun hline => ?_, fun _ =>
        lines_inline_deep (h.resolve_left nofun) object.shape object.fields⟩
      exact hline.1.append (by decide)
  | _ => exact ⟨_, fun hline => single_scalarText limits hline rfl, fun _ => lines_of_scalar rfl⟩

/-- The line for what is not shown is `Single`. -/
theorem single_of_mem_moreLines {shown total : Nat} {what : String} (hwhat : Single what)
    {line : Line} (h : line ∈ moreLines indent shown total what) : Single line.text := by
  rw [moreLines] at h
  split at h
  case isTrue =>
    obtain rfl := List.mem_singleton.mp h
    exact ((Single.append (by decide) (Text.single_nat _)).append (by decide)).append hwhat
  case isFalse => cases h

/-- The lines of a field are `Single`, if its name is and the lines of its value are at any indent.
-/
theorem single_of_mem_fieldBlock {field : Field Value} (hname : Single field.name)
    (hvalue : field.value.OneLine)
    (hlines : ∀ indent, ∀ line ∈ field.value.lines limits indent depth, Single line.text)
    {line : Line} (h : line ∈ fieldBlock limits indent depth field) : Single line.text := by
  rw [fieldBlock] at h
  split at h
  case h_1 text htext =>
    obtain rfl := List.mem_singleton.mp h
    exact (hname.append (by decide)).append (single_scalarText limits hvalue htext)
  case h_2 =>
    rcases List.mem_cons.mp h with rfl | hmem
    · exact hname.append (by decide)
    · exact hlines _ line hmem

/-- Lines between a line for the start and one for the end are `Single`, if all of them are. Arrays
and objects have this form. -/
theorem single_of_mem_bracketed {first last : String} {parts more : List Line}
    (hfirst : Single first) (hparts : ∀ line ∈ parts, Single line.text)
    (hmore : ∀ line ∈ more, Single line.text) (hlast : Single last) :
    ∀ line ∈ [⟨indent, first⟩] ++ parts ++ more ++ [⟨indent, last⟩], Single line.text := by
  intro line hline
  simp only [List.mem_append, List.mem_singleton] at hline
  rcases hline with ((rfl | hpart) | hmem) | rfl
  · exact hfirst
  · exact hparts line hpart
  · exact hmore line hmem
  · exact hlast

/-- No line of a `OneLine` value has the end of a line in it, whatever is cut off or left out. By
`Layered` induction. -/
theorem single_of_mem_lines (h : v.OneLine) :
    ∀ line ∈ v.lines limits indent depth, Single line.text := by
  refine Layered.value limits (motive := fun depth v => v.OneLine → ∀ indent,
    ∀ line ∈ v.lines limits indent depth, Single line.text)
    ⟨?line, ?array, ?inline⟩ depth v h indent
  case line =>
    intro depth v hv hline indent line hmem
    obtain ⟨text, hsingle, hlines⟩ := hv.exists_text
    rw [hlines] at hmem
    obtain rfl := List.mem_singleton.mp hmem
    exact hsingle hline
  case array =>
    intro depth items hdepth ih hitems indent
    rw [lines_array hdepth]
    refine single_of_mem_bracketed (by decide) (fun line hline => ?_)
      (fun line => single_of_mem_moreLines (by decide)) (by decide)
    obtain ⟨item, hitem, hmem⟩ := List.mem_flatMap.mp hline
    have hitem := List.mem_of_mem_take hitem
    exact ih item hitem (itemsOneLine_iff.mp hitems item hitem) _ line hmem
  case inline =>
    intro depth shape fields hdepth ih hobject indent
    obtain ⟨hshape, hfields⟩ := hobject
    rw [lines_inline hdepth]
    refine single_of_mem_bracketed (hshape.append (by decide)) (fun line hline => ?_)
      (fun line => single_of_mem_moreLines (by decide)) (by decide)
    obtain ⟨field, hfield, hmem⟩ := List.mem_flatMap.mp hline
    have hfield := List.mem_of_mem_take hfield
    obtain ⟨hname, hvalue⟩ := fieldsOneLine_iff.mp hfields field hfield
    exact single_of_mem_fieldBlock hname hvalue (ih field hfield hvalue) hmem

/-- The lines of `Value.render` are those of `Value.lines`, as written. -/
theorem lines_render (h : v.OneLine) :
    Text.lines (v.render limits indent depth) = (v.lines limits indent depth).map Line.write :=
  Line.lines_writeAll fun line => single_of_mem_lines h line

end Value

end BinaryAst
