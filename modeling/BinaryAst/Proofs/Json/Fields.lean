import BinaryAst.Proofs.Container.Contents
import BinaryAst.Proofs.Json.Members
/-!
# BinaryAst.Proofs.Json.Fields

The fields of a decoded object in its JSON.

A decoded object has the fields that its shape declares, so what the JSON of an object has
under which key can be said of declarations. A shape may declare a name twice, and it may
declare the name that is set aside for the shape. Then the object has more fields than its JSON
has members: of the fields of one name the JSON keeps the last, where a lookup finds the first
(`Module.entries_of_twinContainer`).
-/

namespace BinaryAst

variable {schema : Schema} {setting : Setting} {object : ObjectValue} {shapeKey : String}

/-- The JSON of an object has the shape under its key, and under every other name that is
declared the last field of the name. A name that is declared once has one field. -/
structure Object.Tells (schema : Schema) (shapeKey : String) (object : ObjectValue) : Prop where
  shape : (object.toJson shapeKey).member? shapeKey = some (.string object.shape)
  fields : ∃ shape, schema.shape? object.shape = some shape ∧
    ∀ decl ∈ shape.fields, decl.name ≠ shapeKey →
      ∃ value, object.lastField? decl.name = some value ∧
        (object.toJson shapeKey).member? decl.name = some (value.toJson shapeKey) ∧
        ((shape.fields.map (·.name)).count decl.name = 1 →
          object.field? decl.name = some value)

theorem ObjectConforms.tells (h : ObjectConforms setting object) (shapeKey : String) :
    object.Tells setting.schema shapeKey := by
  obtain ⟨shape, hshape, -, hnames, -⟩ := h
  refine ⟨by rw [Object.member?_toJson, if_pos rfl], shape, hshape, fun decl hdecl hkey => ?_⟩
  have hmem : decl.name ∈ object.fields.map (·.name) := by
    rw [hnames]
    exact List.mem_map_of_mem hdecl
  obtain ⟨value, hvalue⟩ := Option.isSome_iff_exists.mp (Object.isSome_lastField?_iff.mpr hmem)
  refine ⟨value, hvalue, ?_, fun honce => ?_⟩
  · rw [Object.member?_toJson, if_neg hkey, hvalue, Option.map_some]
  · rw [Object.field?_eq_lastField? (hnames ▸ honce), hvalue]

namespace Module

/-- In a module that `decode` gives, each object and each inline object at any depth `Tells` its
shape and its declared fields in its JSON. -/
theorem entries_of_decode {bytes : Bytes} {c : Configuration} {limits : Limits} {m : Module}
    (h : (Module.decode bytes c schema limits).result = .ok m) :
    ∀ object ∈ Value.objectsWithin m.objects ++ m.root.inlineObjects,
      object.Tells schema schema.shapeKey := by
  have hdecode : Module.decode bytes c schema limits =
      ⟨.ok m, (Module.decode bytes c schema limits).events⟩ := by
    rw [← h]
  obtain ⟨l, -, hdescribes, -, -⟩ := Module.decode_eq_ok_iff.mp hdecode
  intro object hmem
  rcases List.mem_append.mp hmem with hmem | hmem
  · exact (hdescribes.objectConforms object hmem).tells schema.shapeKey
  · exact (hdescribes.rootConforms.1.objectConforms object hmem).tells schema.shapeKey

/-- The inner tree of `treeContainer` is one of its objects, and tells its fields. -/
theorem entries_of_treeContainer :
    (Module.decode treeContainer treeConfiguration treeSchema {}).result = .ok treeModule ∧
      Object.Tells treeSchema "type"
        ⟨"Tree", [⟨"label", .string "ash"⟩, ⟨"children", .array []⟩]⟩ := by
  have hdecode : (Module.decode treeContainer treeConfiguration treeSchema {}).result =
      .ok treeModule := by
    rw [decode_treeContainer]
  refine ⟨hdecode, entries_of_decode hdecode _ (List.mem_append_left _ ?_)⟩
  simp [treeModule, Value.objectsWithin, Value.inlineObjectsOfFields, Value.inlineObjects,
    Value.inlineObjectsOfItems]

/-! ### Names that collide -/

/-- Two fields of one name, and one of the name that is set aside for the shape. -/
def twinShape : Shape :=
  ⟨"Twin", [⟨"a", .tag "integer"⟩, ⟨"a", .tag "integer"⟩, ⟨"type", .tag "integer"⟩]⟩

/-- The schema of the shape. -/
def twinSchema : Schema where
  shapes := [twinShape]
  nodup := by decide
  shapeKey := "type"

/-- An object of the shape. -/
def twin : ObjectValue :=
  ⟨"Twin", [⟨"a", .integer 7⟩, ⟨"a", .integer 8⟩, ⟨"type", .integer 9⟩]⟩

/-- A container with the object. -/
def twinContainer : Bytes :=
  Sections.toBytes
    { tags := ["Twin"]
      objectCount := 1
      objects := WriteStep.bytesAll {} [.uint32 1, .index (some 0), .int32 7, .int32 8, .int32 9]
      root := WriteStep.bytesAll {} [.index (some 0), .index (some 0)] }

set_option maxRecDepth 20000 in
theorem objects_twinContainer :
    (Module.decode twinContainer {} twinSchema {}).result.map Module.objects = .ok [twin] := by
  cbv

/-- What `field?` finds is not what `member?` finds in the JSON: `twin` has two fields of one name,
and one of the name of the shape key. -/
theorem entries_of_twinContainer :
    Schema.ofShapes [twinShape] = .ok twinSchema ∧
      (Module.decode twinContainer {} twinSchema {}).result.map Module.objects = .ok [twin] ∧
      (twin.toJson twinSchema.shapeKey).member? "a" ≠
        (twin.field? "a").map (·.toJson twinSchema.shapeKey) ∧
      (twin.toJson twinSchema.shapeKey).member? "type" ≠
        (twin.field? "type").map (·.toJson twinSchema.shapeKey) := by
  refine ⟨rfl, objects_twinContainer, ?_, ?_⟩
  · rw [Object.member?_toJson]
    simp [twin, twinSchema, Object.lastField?, Object.field?, Value.toJson]
  · rw [Object.member?_toJson]
    simp [twin, twinSchema, Object.field?, Value.toJson]

end Module

end BinaryAst
