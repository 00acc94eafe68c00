import BinaryAst.Decode.Limits
import BinaryAst.Proofs.Conformance
import BinaryAst.Proofs.Nesting
/-!
# BinaryAst.Proofs.Encode.Draft

What an encoder starts from: values with the tags that it has picked.

A schema does not settle all tags. A value of tag `any` brings a tag of its own, and so
does a non-empty array for its items, and an encoder may pick any that the value conforms
to. A `Draft` is a value with these tags written out, so encoding a draft leaves nothing
open. Every value that conforms to a tag has a draft that suits it
(`Conforms.exists_draft`).
-/

namespace BinaryAst

/-- An object graph: the objects of the table, and the root. -/
structure Graph (α : Type) where
  objects : List (Object α)
  root : α

/-- A graph conforms: each object to its shape, and the root, a value other than null, to a
tag of its own. -/
structure Graph.Conforms (setting : Setting) (graph : Graph Value) : Prop where
  objects : ∀ object ∈ graph.objects, ObjectConforms setting object
  root : BinaryAst.Conforms setting Tag.any graph.root
  rootNull : graph.root.isNull = false

/-- The limits allow for the graph. -/
structure Limits.AdmitsGraph (limits : Limits) (graph : Graph Value) : Prop where
  objectCount : graph.objects.length ≤ limits.maxObjects
  objects : ∀ object ∈ graph.objects, object.Within limits.maxDepth limits.maxArrayLength
  root : graph.root.Within limits.maxDepth limits.maxArrayLength

/-- A value that holds no other. -/
inductive Atom
  | null
  | bool (value : Bool)
  | integer (value : Int32)
  | double (value : Binary64)
  | string (text : String)
  | symbol (text : String)
  | internedSymbol (index : Nat)
  | ref (slot : Nat)

/-- The value that an atom is. -/
def Atom.value : Atom → Value
  | .null => .null
  | .bool value => .bool value
  | .integer value => .integer value
  | .double value => .double value
  | .string text => .string text
  | .symbol text => .symbol text
  | .internedSymbol index => .internedSymbol index
  | .ref slot => .ref slot

/-- A value with its tags. -/
inductive Draft
  | atom (value : Atom)
  /-- Items that all have one tag, which counts when there are any. -/
  | array (tag : String) (items : List Draft)
  /-- A value that brings its own tag. -/
  | announced (tag : String) (value : Draft)
  | inline (object : Object Draft)

namespace Draft

mutual

/-- The value without its tags. -/
def value : Draft → Value
  | .atom a => a.value
  | .array _ items => .array (values items)
  | .announced _ draft => draft.value
  | .inline ⟨shape, fields⟩ => .inline ⟨shape, fieldValues fields⟩

/-- The items without their tags. -/
def values : List Draft → List Value
  | [] => []
  | item :: items => item.value :: values items

/-- The fields without their tags. -/
def fieldValues : List (Field Draft) → List (Field Value)
  | [] => []
  | ⟨name, draft⟩ :: fields => ⟨name, draft.value⟩ :: fieldValues fields

end

/-- The object without the tags of its values. -/
def object (draft : Object Draft) : ObjectValue := ⟨draft.shape, fieldValues draft.fields⟩

/-- The graph without the tags of its values. -/
def graph (drafts : Graph Draft) : Graph Value :=
  ⟨drafts.objects.map object, drafts.root.value⟩

theorem values_eq_map (items : List Draft) : values items = items.map value := by
  induction items with
  | nil => rfl
  | cons item items ih => simp [values, ih]

theorem map_name_fieldValues (fields : List (Field Draft)) :
    (fieldValues fields).map (·.name) = fields.map (·.name) := by
  induction fields with
  | nil => rfl
  | cons field fields ih => simp [fieldValues, ih]

end Draft

/-- The tags of fields are in the tag table, where that says which value streams there
are. The fields of an object that is pinned to one stream need none of their own, apart from
primitive ones that are not overridden. -/
def Setting.Lists (setting : Setting) (pinned : Bool) (decls : List FieldDecl) : Prop :=
  setting.configuration.valueStreamPerType = true → ∀ decl ∈ decls,
    (pinned = true → setting.configuration.noOverridingPrimitiveStream = true ∧
      Tag.isPrimitive (setting.schema.fieldTag decl) = true) →
    setting.schema.fieldTag decl ∈ setting.tags

/-- The fields of inline objects have their streams. -/
def Setting.ListsInline (setting : Setting) (objects : List ObjectValue) : Prop :=
  ∀ object ∈ objects, ∀ shape, setting.schema.shape? object.shape = some shape →
    setting.Lists setting.configuration.separatesInlineObjects shape.fields

/-- The fields of all objects in a graph have their streams. -/
structure Graph.Listed (setting : Setting) (graph : Graph Value) : Prop where
  objects : ∀ object ∈ graph.objects, ∀ shape,
    setting.schema.shape? object.shape = some shape → setting.Lists false shape.fields
  inlineObjects : ∀ object ∈ graph.objects,
    setting.ListsInline (Value.inlineObjectsOfFields object.fields)
  root : setting.ListsInline graph.root.inlineObjects

/-- The tags of a draft suit its value in the place of a tag, which may be a tag of the
value's own. -/
inductive Draft.Suits (setting : Setting) : Bool → String → Draft → Prop
  | atom {viaAny tag atom} : Tag.kind tag ≠ .any → Conforms setting tag atom.value →
      Suits setting viaAny tag (.atom atom)
  | array {viaAny tag inner items} : Tag.kind tag = .array →
      (items ≠ [] → inner ∈ setting.tags) → (∀ item ∈ items, Suits setting false inner item) →
      Suits setting viaAny tag (.array inner items)
  | announced {tag inner draft} : Tag.kind tag = .any → inner ∈ setting.tags →
      Suits setting true inner draft → Suits setting false tag (.announced inner draft)
  | inline {tag shape} {object : Object Draft} : setting.IsReferenceTag tag →
      setting.configuration.conditionalInlining = true →
      setting.schema.shape? object.shape = some shape → object.shape ∈ setting.tags →
      setting.Lists setting.configuration.separatesInlineObjects shape.fields →
      object.fields.map (·.name) = shape.fields.map (·.name) →
      (∀ pair ∈ shape.fields.zip object.fields,
        Suits setting false (setting.schema.fieldTag pair.1) pair.2.value) →
      Suits setting false tag (.inline object)

/-- The tags of an object's values suit its shape. -/
def Draft.ObjectSuits (setting : Setting) (object : Object Draft) : Prop :=
  ∃ shape, setting.schema.shape? object.shape = some shape ∧ object.shape ∈ setting.tags ∧
    setting.Lists false shape.fields ∧
    object.fields.map (·.name) = shape.fields.map (·.name) ∧
    ∀ pair ∈ shape.fields.zip object.fields,
      Draft.Suits setting false (setting.schema.fieldTag pair.1) pair.2.value

/-- The tags of all values in a graph suit; the root is a value other than null. -/
structure Draft.GraphSuits (setting : Setting) (drafts : Graph Draft) : Prop where
  objects : ∀ object ∈ drafts.objects, Draft.ObjectSuits setting object
  root : drafts.root.Suits setting false Tag.any
  rootNull : drafts.root.value.isNull = false

/-! ### The value of a draft conforms -/

namespace Draft

/-- What holds of the drafts of fields, by their values, holds of their `fieldValues`. -/
theorem forall_mem_zip_fieldValues {P : FieldDecl → Value → Prop} {decls : List FieldDecl}
    {fields : List (Field Draft)} (h : ∀ pair ∈ decls.zip fields, P pair.1 pair.2.value.value) :
    ∀ pair ∈ decls.zip (fieldValues fields), P pair.1 pair.2.value := by
  induction decls generalizing fields with
  | nil => simp
  | cons decl decls ih =>
      cases fields with
      | nil => simp [fieldValues]
      | cons field fields =>
          rw [List.zip_cons_cons, List.forall_mem_cons] at h
          rw [fieldValues, List.zip_cons_cons, List.forall_mem_cons]
          exact ⟨h.1, ih h.2⟩

theorem Suits.conforms {setting : Setting} {viaAny : Bool} {tag : String} {draft : Draft}
    (h : draft.Suits setting viaAny tag) :
    Conforms setting tag draft.value ∧
      (viaAny = true → Tag.kind tag ≠ .any ∧ ∀ object, draft.value ≠ .inline object) := by
  induction h with
  | @atom _ _ a hkind hconforms =>
      refine ⟨hconforms, fun _ => ⟨hkind, ?_⟩⟩
      cases a <;> simp [value, Atom.value]
  | @array _ _ inner items hkind hinner _ ih =>
      refine ⟨?_, fun _ => ⟨by simp [hkind], by simp [value]⟩⟩
      by_cases hne : items = []
      · rw [hne]
        exact .emptyArray hkind
      · rw [value, values_eq_map]
        refine .array hkind (hinner hne) fun item hitem => ?_
        obtain ⟨draft, hdraft, rfl⟩ := List.mem_map.mp hitem
        exact (ih draft hdraft).1
  | announced hkind hinner _ ih =>
      obtain ⟨hconforms, hown⟩ := ih
      exact ⟨.any hkind hinner (hown rfl).1 hconforms (hown rfl).2, by simp⟩
  | @inline _ shape object hknown hinlining hshape hmem _ hnames _ ih =>
      obtain ⟨name, fields⟩ := object
      refine ⟨.inline hknown hinlining hshape hmem ?_ ?_, by simp⟩
      · rw [map_name_fieldValues, hnames]
      · exact forall_mem_zip_fieldValues
          (P := fun decl value => Conforms setting (setting.schema.fieldTag decl) value)
          fun pair hpair => (ih pair hpair).1

theorem ObjectSuits.conforms {setting : Setting} {draft : Object Draft}
    (h : ObjectSuits setting draft) : ObjectConforms setting (object draft) := by
  obtain ⟨shape, hshape, hmem, -, hnames, hvalues⟩ := h
  refine ⟨shape, hshape, hmem, ?_, ?_⟩
  · rw [object, map_name_fieldValues, hnames]
  · exact forall_mem_zip_fieldValues
      (P := fun decl value => Conforms setting (setting.schema.fieldTag decl) value)
      fun pair hpair => (hvalues pair hpair).conforms.1

/-- A graph with drafts that `GraphSuits` admits conforms to the schema. -/
theorem GraphSuits.conforms {setting : Setting} {drafts : Graph Draft}
    (h : GraphSuits setting drafts) : (graph drafts).Conforms setting where
  objects := List.forall_mem_map.mpr fun object hobject => (h.objects object hobject).conforms
  root := h.root.conforms.1
  rootNull := h.rootNull

end Draft

/-! ### Every value that conforms has a draft -/

namespace Draft

/-- Drafts of all items, put in a list, are drafts of the items: their `values` are these. -/
theorem exists_items {P : Draft → Prop} {items : List Value}
    (h : ∀ item ∈ items, ∃ draft : Draft, draft.value = item ∧ P draft) :
    ∃ drafts : List Draft, values drafts = items ∧ ∀ draft ∈ drafts, P draft := by
  induction items with
  | nil => exact ⟨[], rfl, by simp⟩
  | cons item items ih =>
      rw [List.forall_mem_cons] at h
      obtain ⟨⟨draft, rfl, hdraft⟩, hitems⟩ := h
      obtain ⟨drafts, rfl, hdrafts⟩ := ih hitems
      exact ⟨draft :: drafts, rfl, List.forall_mem_cons.mpr ⟨hdraft, hdrafts⟩⟩

/-- Drafts of the values of all fields, put under the names of the fields, have these as their
`fieldValues`. -/
theorem exists_fields {P : FieldDecl → Draft → Prop} {decls : List FieldDecl}
    {fields : List (Field Value)} (hnames : fields.map (·.name) = decls.map (·.name))
    (h : ∀ pair ∈ decls.zip fields, ∃ draft : Draft, draft.value = pair.2.value ∧ P pair.1 draft) :
    ∃ drafts : List (Field Draft), fieldValues drafts = fields ∧
      drafts.map (·.name) = decls.map (·.name) ∧
      ∀ pair ∈ decls.zip drafts, P pair.1 pair.2.value := by
  induction decls generalizing fields with
  | nil =>
      obtain rfl := List.map_eq_nil_iff.mp hnames
      exact ⟨[], rfl, rfl, by simp⟩
  | cons decl decls ih =>
      obtain ⟨⟨name, value⟩, fields, rfl, hname, hnames⟩ := List.map_eq_cons_iff.mp hnames
      rw [List.zip_cons_cons, List.forall_mem_cons] at h
      obtain ⟨⟨draft, hvalue, hdraft⟩, hfields⟩ := h
      obtain ⟨drafts, rfl, hdraftNames, hdrafts⟩ := ih hnames hfields
      refine ⟨⟨name, draft⟩ :: drafts, ?_, ?_, ?_⟩
      · rw [fieldValues, hvalue]
      · rw [List.map_cons, List.map_cons, hdraftNames]
        exact congrArg (· :: _) hname
      · rw [List.zip_cons_cons]
        exact List.forall_mem_cons.mpr ⟨hdraft, hdrafts⟩

/-- An atom needs no tags of its own: the draft that only wraps it `Suits` whatever the atom
conforms to. -/
theorem exists_atom {setting : Setting} {tag : String} (a : Atom) (hkind : Tag.kind tag ≠ .any)
    (hconforms : Conforms setting tag a.value) (viaAny : Bool) :
    ∃ draft : Draft, draft.value = a.value ∧ Suits setting viaAny tag draft :=
  ⟨.atom a, rfl, .atom hkind hconforms⟩

end Draft

/-- A value that `Conforms` to a tag has a draft that `Suits` the tag. Where the value is not
inline, it may also be announced by the tag (`viaAny`). -/
theorem Conforms.exists_draft {setting : Setting} {tag : String} {value : Value}
    (h : Conforms setting tag value)
    (hlists : setting.ListsInline value.inlineObjects) :
    ∀ viaAny : Bool, (viaAny = true → Tag.kind tag ≠ .any ∧ ∀ object, value ≠ .inline object) →
      ∃ draft : Draft, draft.value = value ∧ draft.Suits setting viaAny tag := by
  induction h with
  | nullString hkind =>
      exact fun viaAny _ => Draft.exists_atom .null (by simp [hkind]) (.nullString hkind) viaAny
  | @string _ text hkind =>
      exact fun viaAny _ =>
        Draft.exists_atom (.string text) (by simp [hkind]) (.string hkind) viaAny
  | nullSymbol hkind =>
      exact fun viaAny _ => Draft.exists_atom .null (by simp [hkind]) (.nullSymbol hkind) viaAny
  | @symbol _ text hkind hplain =>
      exact fun viaAny _ =>
        Draft.exists_atom (.symbol text) (by simp [hkind]) (.symbol hkind hplain) viaAny
  | @internedSymbol _ index hkind hinterned =>
      exact fun viaAny _ => Draft.exists_atom (.internedSymbol index) (by simp [hkind])
        (.internedSymbol hkind hinterned) viaAny
  | @boolean _ value hkind =>
      exact fun viaAny _ =>
        Draft.exists_atom (.bool value) (by simp [hkind]) (.boolean hkind) viaAny
  | @integer _ value hkind =>
      exact fun viaAny _ =>
        Draft.exists_atom (.integer value) (by simp [hkind]) (.integer hkind) viaAny
  | @double _ value hkind =>
      exact fun viaAny _ =>
        Draft.exists_atom (.double value) (by simp [hkind]) (.double hkind) viaAny
  | nullReference hknown =>
      exact fun viaAny _ =>
        Draft.exists_atom .null (by simp [hknown.1]) (.nullReference hknown) viaAny
  | @ref _ slot hknown hslot =>
      exact fun viaAny _ =>
        Draft.exists_atom (.ref slot) (by simp [hknown.1]) (.ref hknown hslot) viaAny
  | emptyArray hkind =>
      exact fun viaAny _ => ⟨.array "" [], rfl, .array hkind (fun h => absurd rfl h) (by simp)⟩
  | @array _ inner items hkind hinner _ ih =>
      intro viaAny _
      have hitems : ∀ item ∈ items, ∃ draft : Draft, draft.value = item ∧
          draft.Suits setting false inner := by
        intro item hitem
        refine ih item hitem (fun object hobject => hlists object ?_) false (by simp)
        rw [Value.inlineObjects, Value.mem_inlineObjectsOfItems]
        exact ⟨item, hitem, hobject⟩
      obtain ⟨drafts, rfl, hdrafts⟩ := Draft.exists_items hitems
      exact ⟨.array inner drafts, rfl, .array hkind (fun _ => hinner) hdrafts⟩
  | @inline _ shape object hknown hinlining hshape hmem hnames _ ih =>
      intro viaAny hviaAny
      -- an inline object is never behind a tag of its own
      obtain rfl : viaAny = false := by
        cases viaAny with
        | false => rfl
        | true => exact absurd rfl ((hviaAny rfl).2 object)
      obtain ⟨name, fields⟩ := object
      have hself : (⟨name, fields⟩ : ObjectValue) ∈
          (Value.inline ⟨name, fields⟩).inlineObjects := by
        simp [Value.inlineObjects]
      have hfields : ∀ pair ∈ shape.fields.zip fields, ∃ draft : Draft,
          draft.value = pair.2.value ∧
            draft.Suits setting false (setting.schema.fieldTag pair.1) := by
        intro pair hpair
        refine ih pair hpair (fun inner hinner => hlists inner ?_) false (by simp)
        rw [Value.inlineObjects, List.mem_cons, Value.mem_inlineObjectsOfFields]
        exact .inr ⟨pair.2, (List.of_mem_zip hpair).2, hinner⟩
      obtain ⟨drafts, rfl, hdraftNames, hdrafts⟩ := Draft.exists_fields
        (P := fun decl draft => draft.Suits setting false (setting.schema.fieldTag decl))
        hnames hfields
      exact ⟨.inline ⟨name, drafts⟩, rfl,
        .inline hknown hinlining hshape hmem (hlists _ hself shape hshape) hdraftNames hdrafts⟩
  | @any _ inner value hkind hinner hnested _ hinline ih =>
      intro viaAny hviaAny
      obtain rfl : viaAny = false := by
        cases viaAny with
        | false => rfl
        | true => exact absurd hkind (hviaAny rfl).1
      obtain ⟨draft, rfl, hdraft⟩ := ih hlists true fun _ => ⟨hnested, hinline⟩
      exact ⟨.announced inner draft, rfl, .announced hkind hinner hdraft⟩

/-- An object that conforms to its shape has a draft that `ObjectSuits` admits, if its fields have
their streams (`Lists`). -/
theorem ObjectConforms.exists_draft {setting : Setting} {object : ObjectValue}
    (h : ObjectConforms setting object)
    (hlists : ∀ shape, setting.schema.shape? object.shape = some shape →
      setting.Lists false shape.fields)
    (hinline : setting.ListsInline (Value.inlineObjectsOfFields object.fields)) :
    ∃ draft : Object Draft, Draft.object draft = object ∧ Draft.ObjectSuits setting draft := by
  obtain ⟨name, fields⟩ := object
  obtain ⟨shape, hshape, hmem, hnames, hvalues⟩ := h
  have hfields : ∀ pair ∈ shape.fields.zip fields, ∃ draft : Draft,
      draft.value = pair.2.value ∧ draft.Suits setting false (setting.schema.fieldTag pair.1) := by
    intro pair hpair
    refine (hvalues pair hpair).exists_draft (fun inner hinner => hinline inner ?_) false (by simp)
    exact Value.mem_inlineObjectsOfFields.mpr ⟨pair.2, (List.of_mem_zip hpair).2, hinner⟩
  obtain ⟨drafts, rfl, hdraftNames, hdrafts⟩ := Draft.exists_fields
    (P := fun decl draft => draft.Suits setting false (setting.schema.fieldTag decl)) hnames hfields
  exact ⟨⟨name, drafts⟩, rfl, ⟨shape, hshape, hmem, hlists shape hshape, hdraftNames, hdrafts⟩⟩

/-- Drafts of all objects, put in a list, are drafts of the objects. -/
theorem Draft.exists_objects {setting : Setting} {objects : List ObjectValue}
    (h : ∀ object ∈ objects, ∃ draft : Object Draft, Draft.object draft = object ∧
      Draft.ObjectSuits setting draft) :
    ∃ drafts : List (Object Draft), drafts.map Draft.object = objects ∧
      ∀ draft ∈ drafts, Draft.ObjectSuits setting draft := by
  induction objects with
  | nil => exact ⟨[], rfl, by simp⟩
  | cons object objects ih =>
      rw [List.forall_mem_cons] at h
      obtain ⟨⟨draft, rfl, hdraft⟩, hobjects⟩ := h
      obtain ⟨drafts, rfl, hdrafts⟩ := ih hobjects
      exact ⟨draft :: drafts, rfl, List.forall_mem_cons.mpr ⟨hdraft, hdrafts⟩⟩

/-- A graph that conforms has drafts that `GraphSuits` admits, when the fields of its objects have
their streams (`Listed`). -/
theorem Graph.Conforms.exists_drafts {setting : Setting} {graph : Graph Value}
    (h : graph.Conforms setting) (hlisted : graph.Listed setting) :
    ∃ drafts : Graph Draft, Draft.graph drafts = graph ∧ Draft.GraphSuits setting drafts := by
  obtain ⟨objects, root⟩ := graph
  obtain ⟨drafts, rfl, hdrafts⟩ := Draft.exists_objects fun object hobject =>
    (h.objects object hobject).exists_draft (hlisted.objects object hobject)
      (hlisted.inlineObjects object hobject)
  obtain ⟨draft, rfl, hdraft⟩ := h.root.exists_draft hlisted.root false (by simp)
  exact ⟨⟨drafts, draft⟩, rfl, hdrafts, hdraft, h.rootNull⟩

end BinaryAst
