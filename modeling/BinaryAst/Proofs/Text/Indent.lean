import BinaryAst.Proofs.Text.Layout
/-!
# BinaryAst.Proofs.Text.Indent

A value further to the right.

A larger indent of a value is a larger indent of each of its lines (`Value.lines_add`), and so a
blank in front of each line of its text. The text of an object is a line for the shape, the texts
of the fields, and a line for the end. A field whose value has no parts is one line of that text
(`Object.Outline`), although the value is written with no indent behind the name.
-/

namespace BinaryAst

open Text (Single blank shiftRight)

namespace Value

variable {limits : TextLimits} {indent depth : Nat} {v : Value}

/-! ### Indents of lines -/

theorem moreLines_add (indent width shown total : Nat) (what : String) :
    moreLines (indent + width) shown total what =
      (moreLines indent shown total what).map (Line.shifted width) := by
  rw [moreLines, moreLines]
  split <;> rfl

theorem fieldBlock_add {field : Field Value}
    (h : ∀ indent width, field.value.lines limits (indent + width) depth =
      (field.value.lines limits indent depth).map (Line.shifted width)) (indent width : Nat) :
    fieldBlock limits (indent + width) depth field =
      (fieldBlock limits indent depth field).map (Line.shifted width) := by
  rw [fieldBlock, fieldBlock]
  cases field.value.scalarText? limits with
  | some text => rfl
  | none =>
      dsimp only
      rw [List.map_cons, Nat.add_right_comm, h]
      rfl

theorem lines_add (v : Value) (indent width depth : Nat) :
    v.lines limits (indent + width) depth =
      (v.lines limits indent depth).map (Line.shifted width) := by
  refine Layered.value limits (motive := fun depth v => ∀ indent width,
    v.lines limits (indent + width) depth =
      (v.lines limits indent depth).map (Line.shifted width))
    ⟨?line, ?array, ?inline⟩ depth v indent width
  case line =>
    intro depth v hv indent width
    obtain ⟨text, -, hlines⟩ := hv.exists_text
    rw [hlines, hlines]
    rfl
  case array =>
    intro depth items hdepth ih indent width
    have hitems : ∀ item ∈ items.take limits.maxItems,
        item.lines limits (indent + 2 + width) (depth + 1) =
          (item.lines limits (indent + 2) (depth + 1)).map (Line.shifted width) :=
      fun item hitem => ih item (List.mem_of_mem_take hitem) _ _
    rw [lines_array hdepth, lines_array hdepth, Nat.add_right_comm, moreLines_add,
      List.flatMap_congr hitems, List.map_append, List.map_append, List.map_append,
      List.map_flatMap]
    rfl
  case inline =>
    intro depth shape fields hdepth ih indent width
    have hfields : ∀ field ∈ fields.take limits.maxFields,
        fieldBlock limits (indent + 2 + width) (depth + 1) field =
          (fieldBlock limits (indent + 2) (depth + 1) field).map (Line.shifted width) :=
      fun field hfield => fieldBlock_add (ih field (List.mem_of_mem_take hfield)) _ _
    rw [lines_inline hdepth, lines_inline hdepth, Nat.add_right_comm, moreLines_add,
      List.flatMap_congr hfields, List.map_append, List.map_append, List.map_append,
      List.map_flatMap]
    rfl

theorem render_add (h : v.OneLine) (indent width depth : Nat) :
    v.render limits (indent + width) depth = shiftRight width (v.render limits indent depth) := by
  rw [render, render, lines_add, Line.shiftRight_writeAll fun line => single_of_mem_lines h line]

/-! ### Ends of lines -/

theorem exists_lines_eq_concat (limits : TextLimits) (v : Value) (indent depth : Nat) :
    ∃ front last, v.lines limits indent depth = front ++ [last] := by
  refine Layered.value limits (motive := fun depth v =>
    ∃ front last, v.lines limits indent depth = front ++ [last]) ⟨?line, ?array, ?inline⟩ depth v
  case line =>
    intro depth v hv
    obtain ⟨text, -, hlines⟩ := hv.exists_text
    exact ⟨[], _, hlines indent⟩
  case array =>
    intro depth items hdepth _
    exact ⟨_, _, lines_array hdepth items⟩
  case inline =>
    intro depth shape fields hdepth _
    exact ⟨_, _, lines_inline hdepth shape fields⟩

theorem exists_render_eq_append (limits : TextLimits) (v : Value) (indent depth : Nat) :
    ∃ front, v.render limits indent depth = front ++ "\n" := by
  obtain ⟨front, last, hlines⟩ := exists_lines_eq_concat limits v indent depth
  refine ⟨Line.writeAll front ++ (blank last.indent ++ last.text), ?_⟩
  rw [render, hlines, Line.writeAll_append, Line.writeAll_singleton, Line.write_eq,
    ← String.append_assoc]

/-! ### Fields -/

/-- The text of a field. -/
def fieldText (limits : TextLimits) (indent depth : Nat) (field : Field Value) : String :=
  blank indent ++ field.name ++ " = " ++
    if field.value.isScalar then field.value.render limits 0 depth
    else "\n" ++ field.value.render limits (indent + 2) depth

theorem render_of_scalar {text : String} (h : v.scalarText? limits = some text) :
    v.render limits indent depth = blank indent ++ text ++ "\n" := by
  rw [render, lines_of_scalar h, Line.writeAll_singleton, Line.write_eq]

/-- `fieldBlock` is written as `fieldText`: what stands behind the name is on the same line, or
there is a line for the name alone. -/
theorem writeAll_fieldBlock (limits : TextLimits) (indent depth : Nat) (field : Field Value) :
    Line.writeAll (fieldBlock limits indent depth field) = fieldText limits indent depth field := by
  rw [fieldBlock, fieldText, isScalar_eq limits]
  cases htext : field.value.scalarText? limits with
  | some text =>
      have hblank : blank 0 = "" := rfl
      dsimp only [Option.isSome_some]
      rw [Line.writeAll_singleton, Line.write_eq, if_pos rfl, render_of_scalar htext, hblank]
      simp only [String.empty_append, String.append_assoc]
  | none =>
      dsimp only [Option.isSome_none]
      rw [Line.writeAll_cons, Line.write_eq, if_neg Bool.false_ne_true, render]
      simp only [String.append_assoc]

theorem lines_fieldText {field : Field Value} (hname : Single field.name)
    (hvalue : field.value.OneLine) :
    Text.lines (fieldText limits indent depth field) =
      (fieldBlock limits indent depth field).map Line.write := by
  rw [← writeAll_fieldBlock, Line.lines_writeAll]
  exact fun line => single_of_mem_fieldBlock hname hvalue fun _ => single_of_mem_lines hvalue

/-- The `fieldText` of a value without parts is one line. -/
theorem lines_fieldText_of_scalar {field : Field Value} (hname : Single field.name)
    (hvalue : field.value.OneLine) (h : field.value.isScalar = true) :
    ∃ text, Single text ∧ field.value.render limits 0 depth = text ++ "\n" ∧
      Text.lines (fieldText limits indent depth field) =
        [blank indent ++ field.name ++ " = " ++ text ++ "\n"] := by
  rw [isScalar_eq limits] at h
  obtain ⟨text, htext⟩ := Option.isSome_iff_exists.mp h
  have hblock : fieldBlock limits indent depth field = [⟨indent, field.name ++ " = " ++ text⟩] := by
    rw [fieldBlock, htext]
  refine ⟨text, single_scalarText limits hvalue htext, render_of_scalar htext, ?_⟩
  rw [lines_fieldText hname hvalue, hblock, List.map_singleton, Line.write_eq]
  simp only [String.append_assoc]

/-! ### The text of a value -/

/-- The lines of the text of a value. -/
structure Outline (limits : TextLimits) (indent depth : Nat) (v : Value) : Prop where
  /-- A value without parts is one line, and so is any value inside too many levels. -/
  line : v.IsLine limits depth →
    ∃ text, Single text ∧ v.render limits indent depth = blank indent ++ text ++ "\n"
  array : ∀ items, v = .array items → depth < limits.maxDepth →
    Text.lines (v.render limits indent depth) =
      [blank indent ++ "[" ++ "\n"] ++
        (items.take limits.maxItems).flatMap
          (fun item => Text.lines (item.render limits (indent + 2) (depth + 1))) ++
        (moreLines (indent + 2) limits.maxItems items.length "").map Line.write ++
        [blank indent ++ "]" ++ "\n"]
  inline : ∀ shape fields, v = .inline ⟨shape, fields⟩ → depth < limits.maxDepth →
    Text.lines (v.render limits indent depth) =
      [blank indent ++ (shape ++ " \x7b") ++ "\n"] ++
        (fields.take limits.maxFields).flatMap
          (fun field => Text.lines (fieldText limits (indent + 2) (depth + 1) field)) ++
        (moreLines (indent + 2) limits.maxFields fields.length " fields").map Line.write ++
        [blank indent ++ "\x7d" ++ "\n"]
  /-- The line of a field whose value has no parts. -/
  field : ∀ shape fields, v = .inline ⟨shape, fields⟩ → ∀ field ∈ fields,
    field.value.isScalar = true →
    ∃ text, Single text ∧ field.value.render limits 0 (depth + 1) = text ++ "\n" ∧
      Text.lines (fieldText limits (indent + 2) (depth + 1) field) =
        [blank (indent + 2) ++ field.name ++ " = " ++ text ++ "\n"]

theorem OneLine.exists_render_eq (h : v.OneLine) (hv : v.IsLine limits depth) :
    ∃ text, Single text ∧ v.render limits indent depth = blank indent ++ text ++ "\n" := by
  obtain ⟨text, hsingle, hlines⟩ := hv.exists_text
  refine ⟨text, hsingle h, ?_⟩
  rw [render, hlines, Line.writeAll_singleton, Line.write_eq]

theorem lines_render_array {items : List Value} (h : (array items).OneLine)
    (hdepth : depth < limits.maxDepth) :
    Text.lines ((array items).render limits indent depth) =
      [blank indent ++ "[" ++ "\n"] ++
        (items.take limits.maxItems).flatMap
          (fun item => Text.lines (item.render limits (indent + 2) (depth + 1))) ++
        (moreLines (indent + 2) limits.maxItems items.length "").map Line.write ++
        [blank indent ++ "]" ++ "\n"] := by
  have hitems : ∀ item ∈ items.take limits.maxItems,
      Text.lines (item.render limits (indent + 2) (depth + 1)) =
        (item.lines limits (indent + 2) (depth + 1)).map Line.write :=
    fun item hitem => lines_render (itemsOneLine_iff.mp h item (List.mem_of_mem_take hitem))
  rw [lines_render h, lines_array hdepth, List.flatMap_congr hitems]
  simp only [List.map_append, List.map_flatMap, List.map_singleton, Line.write_eq]

theorem lines_render_inline {shape : String} {fields : List (Field Value)}
    (h : (inline ⟨shape, fields⟩).OneLine) (hdepth : depth < limits.maxDepth) :
    Text.lines ((inline ⟨shape, fields⟩).render limits indent depth) =
      [blank indent ++ (shape ++ " \x7b") ++ "\n"] ++
        (fields.take limits.maxFields).flatMap
          (fun field => Text.lines (fieldText limits (indent + 2) (depth + 1) field)) ++
        (moreLines (indent + 2) limits.maxFields fields.length " fields").map Line.write ++
        [blank indent ++ "\x7d" ++ "\n"] := by
  have hfields : ∀ field ∈ fields.take limits.maxFields,
      Text.lines (fieldText limits (indent + 2) (depth + 1) field) =
        (fieldBlock limits (indent + 2) (depth + 1) field).map Line.write := by
    intro field hfield
    obtain ⟨hname, hvalue⟩ := fieldsOneLine_iff.mp h.2 field (List.mem_of_mem_take hfield)
    exact lines_fieldText hname hvalue
  rw [lines_render h, lines_inline hdepth, List.flatMap_congr hfields]
  simp only [List.map_append, List.map_flatMap, List.map_singleton, Line.write_eq]

theorem OneLine.outline (h : v.OneLine) (indent depth : Nat) : v.Outline limits indent depth where
  line := h.exists_render_eq
  array := by
    rintro items rfl hdepth
    exact lines_render_array h hdepth
  inline := by
    rintro shape fields rfl hdepth
    exact lines_render_inline h hdepth
  field := by
    rintro shape fields rfl field hfield hscalar
    obtain ⟨hname, hvalue⟩ := fieldsOneLine_iff.mp h.2 field hfield
    exact lines_fieldText_of_scalar hname hvalue hscalar

/-- `render` of a value further to the right is its text with a blank in front of each line
(`shiftRight`), and so it is for an object; their texts end with a line. A field has no line but its
own, if its value has no parts (`Outline`). -/
theorem render_shiftRight (limits : TextLimits) (indent width depth : Nat) :
    (∀ v : Value, v.OneLine →
      v.render limits (indent + width) depth = shiftRight width (v.render limits indent depth) ∧
        v.Outline limits indent depth) ∧
    (∀ object : ObjectValue, (inline object).OneLine →
      object.render limits (indent + width) depth =
        shiftRight width (object.render limits indent depth) ∧
        (inline object).Outline limits indent depth) ∧
    (∀ v : Value, ∃ front, v.render limits indent depth = front ++ "\n") ∧
    ∀ object : ObjectValue, ∃ front, object.render limits indent depth = front ++ "\n" :=
  ⟨fun _ h => ⟨render_add h indent width depth, h.outline indent depth⟩,
    fun _ h => ⟨render_add h indent width depth, h.outline indent depth⟩,
    fun v => exists_render_eq_append limits v indent depth,
    fun object => exists_render_eq_append limits (inline object) indent depth⟩

/-- An object in an object, with fields of each kind and one more than is shown. -/
def nested : ObjectValue :=
  ⟨"Tree", [⟨"label", .symbol "oak"⟩, ⟨"rings", .array [.integer (-3), .null]⟩,
    ⟨"root", .inline ⟨"Node", [⟨"deep", .bool true⟩]⟩⟩, ⟨"hidden", .null⟩]⟩

/-- `nested` three places further to the right, and the one line of its field `label`. -/
theorem render_shiftRight_of_nested :
    (inline nested).OneLine ∧
      nested.render ⟨3, 2, 1, 6⟩ 4 0 = shiftRight 3 (nested.render ⟨3, 2, 1, 6⟩ 1 0) ∧
      ∃ text, Single text ∧ (symbol "oak").render ⟨3, 2, 1, 6⟩ 0 1 = text ++ "\n" ∧
        Text.lines (fieldText ⟨3, 2, 1, 6⟩ 3 1 ⟨"label", .symbol "oak"⟩) =
          [blank 3 ++ "label" ++ " = " ++ text ++ "\n"] := by
  have hline : (inline nested).OneLine := by
    simp only [nested, OneLine, ItemsOneLine, FieldsOneLine]
    decide
  obtain ⟨hshift, houtline⟩ := (render_shiftRight ⟨3, 2, 1, 6⟩ 1 3 0).2.1 nested hline
  exact ⟨hline, hshift, houtline.field _ _ rfl ⟨"label", .symbol "oak"⟩ (List.mem_cons_self ..) rfl⟩

end Value

end BinaryAst
