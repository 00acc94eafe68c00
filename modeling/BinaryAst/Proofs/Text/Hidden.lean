import BinaryAst.Proofs.Text.Layout
/-!
# BinaryAst.Proofs.Text.Hidden

What the limits hide.

Two values look the same if they differ at most in what the limits hide, at any place in them
(`Value.LooksLike`). These places are known by the number of levels around them, so the relation
carries that number along. The lines of such values are the same (`Value.LooksLike.lines_eq`),
and no value has more lines than the limits allow (`Value.length_lines_le`).
-/

namespace BinaryAst.Value

open Text (Single)

variable {limits : TextLimits} {indent depth : Nat} {v w : Value}

/-! ### Values that look the same -/

/-- The texts are the same up to so many characters, and both go on. -/
structure CutAlike (limit : Nat) (text text' : String) : Prop where
  shown : text.toList.take limit = text'.toList.take limit
  more : limit < text.toList.length
  more' : limit < text'.toList.length

/-- Inside so many levels the values differ at most in what the limits hide. -/
inductive LooksLike (limits : TextLimits) : Nat → Value → Value → Prop
  | same (depth : Nat) (v : Value) : LooksLike limits depth v v
  | string {depth : Nat} {text text' : String} (h : CutAlike limits.maxString text text') :
      LooksLike limits depth (.string text) (.string text')
  | symbol {depth : Nat} {text text' : String} (h : CutAlike limits.maxString text text') :
      LooksLike limits depth (.symbol text) (.symbol text')
  /-- Of an array inside too many levels only the number of items is shown. -/
  | array {depth : Nat} {items items' : List Value} (hlength : items.length = items'.length)
      (hitems : depth < limits.maxDepth → ∀ pair ∈ (items.zip items').take limits.maxItems,
        LooksLike limits (depth + 1) pair.1 pair.2) :
      LooksLike limits depth (.array items) (.array items')
  /-- Of an object inside too many levels only the shape is shown. -/
  | inline {depth : Nat} {shape : String} {fields fields' : List (Field Value)}
      (hlength : depth < limits.maxDepth → fields.length = fields'.length)
      (hnames : depth < limits.maxDepth → ∀ pair ∈ (fields.zip fields').take limits.maxFields,
        pair.1.name = pair.2.name)
      (hvalues : depth < limits.maxDepth → ∀ pair ∈ (fields.zip fields').take limits.maxFields,
        LooksLike limits (depth + 1) pair.1.value pair.2.value) :
      LooksLike limits depth (.inline ⟨shape, fields⟩) (.inline ⟨shape, fields'⟩)

theorem CutAlike.cutText_eq {limit : Nat} {text text' : String} (h : CutAlike limit text text') :
    cutText limit text = cutText limit text' := by
  have hcut {text : String} (hmore : limit < text.toList.length) :
      cutText limit text = String.ofList (text.toList.take limit) ++ "..." := by
    refine if_neg ?_
    rw [List.isEmpty_iff, List.drop_eq_nil_iff]
    exact Nat.not_le.mpr hmore
  rw [hcut h.more, hcut h.more', h.shown]

theorem LooksLike.scalarText?_eq (h : v.LooksLike limits depth w) :
    v.scalarText? limits = w.scalarText? limits := by
  cases h with
  | same | array | inline => rfl
  | string h | symbol h => rw [scalarText?, scalarText?, h.cutText_eq]

/-- What is made of the first entries of two lists is the same, if it is for each pair. -/
theorem flatMap_take_eq {α β : Type} {xs ys : List α} {f : α → List β} {shown : Nat}
    (hlength : xs.length = ys.length)
    (h : ∀ pair ∈ (xs.zip ys).take shown, f pair.1 = f pair.2) :
    (xs.take shown).flatMap f = (ys.take shown).flatMap f := by
  have hxs : (xs.take shown) = ((xs.zip ys).take shown).map Prod.fst := by
    rw [List.map_take, List.map_fst_zip (Nat.le_of_eq hlength)]
  have hys : (ys.take shown) = ((xs.zip ys).take shown).map Prod.snd := by
    rw [List.map_take, List.map_snd_zip (Nat.le_of_eq hlength.symm)]
  rw [hxs, hys, List.flatMap_map, List.flatMap_map]
  exact List.flatMap_congr h

theorem LooksLike.lines_eq (h : v.LooksLike limits depth w) (indent : Nat) :
    v.lines limits indent depth = w.lines limits indent depth := by
  induction h generalizing indent with
  | same => rfl
  | string h | symbol h => rw [lines_of_scalar rfl, lines_of_scalar rfl, h.cutText_eq]
  | @array depth items items' hlength hitems ih =>
      rcases Nat.lt_or_ge depth limits.maxDepth with hdepth | hdepth
      · have hshown := flatMap_take_eq hlength (f := (·.lines limits (indent + 2) (depth + 1)))
          fun pair hpair => ih hdepth pair hpair (indent + 2)
        rw [lines_array hdepth, lines_array hdepth, hshown, hlength]
      · rw [lines_array_deep hdepth, lines_array_deep hdepth, hlength]
  | @inline depth shape fields fields' hlength hnames hvalues ih =>
      rcases Nat.lt_or_ge depth limits.maxDepth with hdepth | hdepth
      · have hblock : ∀ pair ∈ (fields.zip fields').take limits.maxFields,
            fieldBlock limits (indent + 2) (depth + 1) pair.1 =
              fieldBlock limits (indent + 2) (depth + 1) pair.2 := by
          intro pair hpair
          -- It is by the value that a field is one line or more.
          rw [fieldBlock, fieldBlock, hnames hdepth pair hpair,
            (hvalues hdepth pair hpair).scalarText?_eq, ih hdepth pair hpair]
        rw [lines_inline hdepth, lines_inline hdepth, flatMap_take_eq (hlength hdepth) hblock,
          hlength hdepth]
      · rw [lines_inline_deep hdepth, lines_inline_deep hdepth]

/-! ### Number of lines -/

/-- The largest number of lines of a value that may have so many levels. -/
def lineBound (limits : TextLimits) : (levels : Nat) → Nat
  | 0 => 1
  | levels + 1 => 3 + max limits.maxItems limits.maxFields * (1 + lineBound limits levels)

theorem one_le_lineBound (levels : Nat) : 1 ≤ lineBound limits levels := by
  cases levels with
  | zero => rfl
  | succ levels => rw [lineBound]; omega

theorem length_moreLines_le (indent shown total : Nat) (what : String) :
    (moreLines indent shown total what).length ≤ 1 := by
  rw [moreLines]
  split
  case isTrue => exact Nat.le_refl 1
  case isFalse => exact Nat.zero_le 1

theorem length_flatMap_take_le {α β : Type} {xs : List α} {f : α → List β} {bound : Nat}
    (h : ∀ x ∈ xs, (f x).length ≤ bound) (shown : Nat) :
    ((xs.take shown).flatMap f).length ≤ shown * bound := by
  induction xs generalizing shown with
  | nil => rw [List.take_nil]; exact Nat.zero_le _
  | cons x xs ih =>
      obtain ⟨hx, hxs⟩ := List.forall_mem_cons.mp h
      cases shown with
      | zero => exact Nat.zero_le _
      | succ shown =>
          have hrest := ih hxs shown
          rw [List.take_succ_cons, List.flatMap_cons, List.length_append, Nat.succ_mul]
          omega

theorem length_fieldBlock_le {field : Field Value} {bound : Nat}
    (h : (field.value.lines limits (indent + 2) depth).length ≤ bound) :
    (fieldBlock limits indent depth field).length ≤ 1 + bound := by
  rw [fieldBlock]
  split
  case h_1 => exact Nat.le_add_right 1 bound
  case h_2 => rw [List.length_cons]; omega

theorem length_lines_le (v : Value) (indent depth : Nat) :
    (v.lines limits indent depth).length ≤ lineBound limits (limits.maxDepth - depth) := by
  refine Layered.value limits (motive := fun depth v => ∀ indent,
    (v.lines limits indent depth).length ≤ lineBound limits (limits.maxDepth - depth))
    ⟨?line, ?array, ?inline⟩ depth v indent
  case line =>
    intro depth v hv indent
    obtain ⟨text, -, hlines⟩ := hv.exists_text
    rw [hlines]
    exact one_le_lineBound _
  case array =>
    intro depth items hdepth ih indent
    have hlevels : limits.maxDepth - depth = limits.maxDepth - (depth + 1) + 1 := by omega
    have hitems := length_flatMap_take_le (fun item hitem => ih item hitem (indent + 2))
      limits.maxItems
    have hmore := length_moreLines_le (indent + 2) limits.maxItems items.length ""
    -- An item takes up no line but those of its value, so the bound leaves one too many for it.
    have hmax := Nat.mul_le_mul (Nat.le_max_left limits.maxItems limits.maxFields)
      (Nat.le_add_left (lineBound limits (limits.maxDepth - (depth + 1))) 1)
    rw [lines_array hdepth, hlevels, lineBound]
    simp only [List.length_append, List.length_singleton]
    omega
  case inline =>
    intro depth shape fields hdepth ih indent
    have hlevels : limits.maxDepth - depth = limits.maxDepth - (depth + 1) + 1 := by omega
    have hblock : ∀ field ∈ fields, (fieldBlock limits (indent + 2) (depth + 1) field).length ≤
        1 + lineBound limits (limits.maxDepth - (depth + 1)) :=
      fun field hfield => length_fieldBlock_le (ih field hfield _)
    have hfields := length_flatMap_take_le hblock limits.maxFields
    have hmore := length_moreLines_le (indent + 2) limits.maxFields fields.length " fields"
    have hmax := Nat.mul_le_mul_right (1 + lineBound limits (limits.maxDepth - (depth + 1)))
      (Nat.le_max_right limits.maxItems limits.maxFields)
    rw [lines_inline hdepth, hlevels, lineBound]
    simp only [List.length_append, List.length_singleton]
    omega

/-! ### The text -/

/-- `render` gives the same text for all values that the limits make look the same (`LooksLike`),
and it has no more lines than `lineBound`, if nothing in the value has the end of a line in it
(`OneLine`). -/
theorem render_within_limits (limits : TextLimits) (indent depth : Nat) (v : Value) :
    (∀ w, v.LooksLike limits depth w →
      w.render limits indent depth = v.render limits indent depth) ∧
    (v.OneLine → (Text.lines (v.render limits indent depth)).length ≤
      lineBound limits (limits.maxDepth - depth)) := by
  constructor
  · intro w h
    rw [render, render, h.lines_eq]
  · intro hline
    rw [lines_render hline, List.length_map]
    exact length_lines_le v indent depth

/-- One field, three characters, two items and two levels. -/
def narrow : TextLimits := ⟨1, 3, 2, 2⟩

/-- A value with something behind each of the limits. -/
def grove : Value :=
  .array [.inline ⟨"Tree", [⟨"rings", .array [.integer 1, .null]⟩, ⟨"age", .null⟩]⟩,
    .string "oakwood", .null]

/-- The value with all of that replaced. -/
def thicket : Value :=
  .array [.inline ⟨"Tree", [⟨"rings", .array [.string "a\nb", .array []]⟩, ⟨"roots", .ref 1⟩]⟩,
    .string "oakum", .inline ⟨"Bush", []⟩]

theorem grove_looksLike_thicket : grove.LooksLike narrow 0 thicket := by
  refine .array rfl fun _ pair hpair => ?_
  simp only [narrow, List.zip_cons_cons, List.take_succ_cons, List.take_zero, List.mem_cons,
    List.not_mem_nil, or_false] at hpair
  rcases hpair with rfl | rfl
  · refine .inline (fun _ => rfl) (fun _ pair hpair => ?_) fun _ pair hpair => ?_
    all_goals
      obtain rfl := List.mem_singleton.mp hpair
    · rfl
    · exact .array rfl fun hdepth => absurd hdepth (by decide)
  · exact .string ⟨rfl, by decide, by decide⟩

/-- Under the limits `narrow`, `grove` and `thicket` have the same text, of 19 lines at most. -/
theorem render_within_limits_of_grove :
    (grove.LooksLike narrow 0 thicket ∧ grove.OneLine) ∧
      thicket.render narrow 4 0 = grove.render narrow 4 0 ∧
      (Text.lines (grove.render narrow 4 0)).length ≤ 19 := by
  have hline : grove.OneLine := by
    simp only [grove, OneLine, ItemsOneLine, FieldsOneLine]
    decide
  obtain ⟨hsame, hbound⟩ := render_within_limits narrow 4 0 grove
  exact ⟨⟨grove_looksLike_thicket, hline⟩, hsame thicket grove_looksLike_thicket, hbound hline⟩

end BinaryAst.Value
