import BinaryAst.Module
import BinaryAst.Schema
/-!
# BinaryAst.Proofs.Conformance

When a value conforms to a tag.

Conformance is about values alone: it says nothing of bytes, streams or decoding. A
value of tag `any` conforms to a tag of its own, from the tag table, and is never
inline; an inline object has a shape of its own, whatever the declared tag.
-/

namespace BinaryAst

/-- The shape that `shape?` finds under a name has this name. -/
theorem Schema.name_of_shape? {schema : Schema} {name : String} {shape : Shape}
    (h : schema.shape? name = some shape) : shape.name = name := by
  simpa using List.find?_some h

/-- What conformance is relative to. -/
structure Setting where
  configuration : Configuration
  schema : Schema
  /-- The tag table. -/
  tags : List String
  /-- Length of the object table. -/
  slots : Nat

namespace Setting

/-- A tag that references can have: the tag of all objects, or a shape. -/
def IsReferenceTag (setting : Setting) (tag : String) : Prop :=
  Tag.kind tag = .object ∧ (tag = Tag.object ∨ setting.schema.contains tag = true)

end Setting

/-- What the values of a module conform to. -/
def Module.setting (m : Module) (schema : Schema) : Setting where
  configuration := m.configuration
  schema := schema
  tags := m.tags
  slots := m.objects.length

/-- A value conforms to a tag. -/
inductive Conforms (setting : Setting) : String → Value → Prop
  | nullString {tag} : Tag.kind tag = .string → Conforms setting tag .null
  | string {tag text} : Tag.kind tag = .string → Conforms setting tag (.string text)
  | nullSymbol {tag} : Tag.kind tag = .symbol → Conforms setting tag .null
  | symbol {tag text} : Tag.kind tag = .symbol →
      setting.configuration.internedSymbols = false → Conforms setting tag (.symbol text)
  | internedSymbol {tag index} : Tag.kind tag = .symbol →
      setting.configuration.internedSymbols = true → Conforms setting tag (.internedSymbol index)
  | boolean {tag value} : Tag.kind tag = .boolean → Conforms setting tag (.bool value)
  | integer {tag value} : Tag.kind tag = .integer → Conforms setting tag (.integer value)
  | double {tag value} : Tag.kind tag = .double → Conforms setting tag (.double value)
  | emptyArray {tag} : Tag.kind tag = .array → Conforms setting tag (.array [])
  /-- All items conform to one tag. -/
  | array {tag inner items} : Tag.kind tag = .array → inner ∈ setting.tags →
      (∀ item ∈ items, Conforms setting inner item) → Conforms setting tag (.array items)
  | nullReference {tag} : setting.IsReferenceTag tag → Conforms setting tag .null
  | ref {tag slot} : setting.IsReferenceTag tag → slot < setting.slots →
      Conforms setting tag (.ref slot)
  /-- The object conforms to its own shape. -/
  | inline {tag shape} {object : ObjectValue} : setting.IsReferenceTag tag →
      setting.configuration.conditionalInlining = true →
      setting.schema.shape? object.shape = some shape → object.shape ∈ setting.tags →
      object.fields.map (·.name) = shape.fields.map (·.name) →
      (∀ pair ∈ shape.fields.zip object.fields,
        Conforms setting (setting.schema.fieldTag pair.1) pair.2.value) →
      Conforms setting tag (.inline object)
  /-- The value conforms to a tag of its own. -/
  | any {tag inner value} : Tag.kind tag = .any → inner ∈ setting.tags →
      Tag.kind inner ≠ .any → Conforms setting inner value → (∀ object, value ≠ .inline object) →
      Conforms setting tag value

/-- An object conforms to its shape: the shape is registered and in the tag table, the
fields are those that it declares, in order, and each value conforms to the tag of its
field. -/
def ObjectConforms (setting : Setting) (object : ObjectValue) : Prop :=
  ∃ shape, setting.schema.shape? object.shape = some shape ∧ object.shape ∈ setting.tags ∧
    object.fields.map (·.name) = shape.fields.map (·.name) ∧
    ∀ pair ∈ shape.fields.zip object.fields,
      Conforms setting (setting.schema.fieldTag pair.1) pair.2.value

/-! ### Objects at any depth -/

mutual

/-- The inline objects in a value, at any depth. -/
def Value.inlineObjects : Value → List ObjectValue
  | .array items => inlineObjectsOfItems items
  | .inline ⟨shape, fields⟩ => ⟨shape, fields⟩ :: inlineObjectsOfFields fields
  | _ => []

/-- The inline objects in some values, at any depth. -/
def Value.inlineObjectsOfItems : List Value → List ObjectValue
  | [] => []
  | item :: items => item.inlineObjects ++ inlineObjectsOfItems items

/-- The inline objects in the values of some fields, at any depth. -/
def Value.inlineObjectsOfFields : List (Field Value) → List ObjectValue
  | [] => []
  | ⟨_, value⟩ :: fields => value.inlineObjects ++ inlineObjectsOfFields fields

end

theorem Value.mem_inlineObjectsOfItems {object : ObjectValue} {items : List Value} :
    object ∈ inlineObjectsOfItems items ↔ ∃ item ∈ items, object ∈ item.inlineObjects := by
  induction items with
  | nil => simp [inlineObjectsOfItems]
  | cons item items ih => simp [inlineObjectsOfItems, ih]

theorem Value.mem_inlineObjectsOfFields {object : ObjectValue} {fields : List (Field Value)} :
    object ∈ inlineObjectsOfFields fields ↔
      ∃ field ∈ fields, object ∈ field.value.inlineObjects := by
  induction fields with
  | nil => simp [inlineObjectsOfFields]
  | cons field fields ih => simp [inlineObjectsOfFields, ih]

/-- The objects of a list and the inline objects in them, at any depth. -/
def Value.objectsWithin (objects : List ObjectValue) : List ObjectValue :=
  objects ++ objects.flatMap fun object => inlineObjectsOfFields object.fields

/-- Where two lists go by the same names, each entry of the second has its partner. -/
theorem exists_mem_zip_of_mem {α β γ : Type} {nameOf : α → γ} {nameOf' : β → γ} {as : List α}
    {bs : List β} (h : bs.map nameOf' = as.map nameOf) {b : β} (hmem : b ∈ bs) :
    ∃ a, (a, b) ∈ as.zip bs := by
  have hlen : bs.length = as.length := by
    simpa using congrArg List.length h
  obtain ⟨i, hi, rfl⟩ := List.getElem_of_mem hmem
  have hpair : i < (as.zip bs).length := by
    rw [List.length_zip]
    omega
  refine ⟨as[i], ?_⟩
  have hmem := List.getElem_mem hpair
  rwa [List.getElem_zip] at hmem

/-- Every object within a value that `Conforms` to a tag conforms to its shape. -/
theorem Conforms.objectConforms {setting : Setting} {tag : String} {value : Value}
    (h : Conforms setting tag value) :
    ∀ object ∈ value.inlineObjects, ObjectConforms setting object := by
  induction h with
  | @array tag inner items _ _ _ ih =>
      intro object hmem
      rw [Value.inlineObjects, Value.mem_inlineObjectsOfItems] at hmem
      obtain ⟨item, hitem, hobject⟩ := hmem
      exact ih item hitem object hobject
  | @inline tag shape outer _ _ hshape htags hnames hfields ih =>
      intro object hmem
      rw [show outer = ⟨outer.shape, outer.fields⟩ from rfl, Value.inlineObjects,
        List.mem_cons, Value.mem_inlineObjectsOfFields] at hmem
      rcases hmem with rfl | ⟨field, hfield, hobject⟩
      · exact ⟨shape, hshape, htags, hnames, hfields⟩
      · obtain ⟨decl, hdecl⟩ := exists_mem_zip_of_mem hnames hfield
        exact ih _ hdecl object hobject
  | any _ _ _ _ _ ih => exact ih
  | _ => simp [Value.inlineObjects, Value.inlineObjectsOfItems]

end BinaryAst
