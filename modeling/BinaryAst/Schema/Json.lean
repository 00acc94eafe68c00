import BinaryAst.Schema
import BinaryAst.Json.Parse
/-!
# BinaryAst.Schema.Json

Schemas written in JSON.

A schema, a shape and a field are each an object with named members, or an array
of the members in order. Unknown members of a shape or a field are passed over;
those of a schema are refused.
-/

namespace BinaryAst

open Json (Parse Token)
open Json.Parse (array colon hasItem once optionalText pass passMember record required
  requiredItem run text)

/-! ### Field types -/

/-- The texts of an array, from behind its opening bracket, if it holds texts
only. -/
def FieldType.membersOf : List Token → Option (List String)
  | .closeArray :: _ => some []
  | .string (.ok member) _ :: .closeArray :: _ => some [member]
  | .string (.ok member) _ :: .comma :: rest => (membersOf rest).map (member :: ·)
  | _ => none

/-- The type that a well-formed value spells, from its first token. -/
def FieldType.ofTokens? : List Token → Option FieldType
  | .string (.ok name) _ :: _ => some (.tag name)
  | .openArray :: rest => (membersOf rest).map .union
  | _ => none

/-- How deeply the type of a field may nest: 127 levels in all, of which five lie
around it. -/
def FieldType.levels : Nat := 122

/-- The type of a field: a text or an array of texts. The whole value has to be
well formed before its kind matters. -/
def FieldType.ofJson : Parse FieldType := do
  let tokens ← get
  pass (.kept levels)
  match ofTokens? tokens with
  | some type => pure type
  | none => throw .unexpected

/-! ### Fields and shapes -/

/-- The members of a field that have come. -/
structure FieldDecl.Draft where
  name : Option String := none
  type : Option FieldType := none

/-- Takes up a member of a field. -/
def FieldDecl.Draft.member (draft : Draft) (key : String) : Parse Draft := do
  match key with
  | "name" => return { draft with name := ← once draft.name text }
  | "type" => return { draft with type := ← once draft.type FieldType.ofJson }
  | _ =>
    passMember
    return draft

/-- A field. -/
def FieldDecl.ofJson : Parse FieldDecl :=
  record (return ⟨← requiredItem true text, ← requiredItem false FieldType.ofJson⟩)
    Draft.member {} fun draft => return ⟨← required draft.name, ← required draft.type⟩

/-- The members of a shape that have come. -/
structure Shape.Draft where
  name : Option String := none
  fields : Option (List FieldDecl) := none

/-- Takes up a member of a shape. -/
def Shape.Draft.member (draft : Draft) (key : String) : Parse Draft := do
  match key with
  | "name" => return { draft with name := ← once draft.name text }
  | "fields" => return { draft with fields := ← once draft.fields (array FieldDecl.ofJson) }
  | _ =>
    passMember
    return draft

/-- A shape. -/
def Shape.ofJson : Parse Shape :=
  record (return ⟨← requiredItem true text, ← requiredItem false (array FieldDecl.ofJson)⟩)
    Draft.member {} fun draft => return ⟨← required draft.name, ← required draft.fields⟩

/-! ### Schemas -/

namespace Schema

/-- The members of a schema that have come; the key may be given as absent. -/
structure Draft where
  shapeKey : Option (Option String) := none
  shapes : Option (List Shape) := none

/-- Takes up a member of a schema; it must be known. -/
def Draft.member (draft : Draft) (key : String) : Parse Draft := do
  match key with
  | "shapeKey" => return { draft with shapeKey := ← once draft.shapeKey optionalText }
  | "shapes" => return { draft with shapes := ← once draft.shapes (array Shape.ofJson) }
  | _ => throw .unexpected

/-- A shape key, if one is given, and shapes that may still share names. -/
def members : Parse (Option String × List Shape) :=
  record (return ⟨← requiredItem true optionalText, ← requiredItem false (array Shape.ofJson)⟩)
    Draft.member {} fun draft => return ⟨draft.shapeKey.join, ← required draft.shapes⟩

/-- The schema that a JSON text spells. Names are compared once the whole text has
been read. -/
def ofJson (text : String) : Except DecodeError Schema :=
  match run members text with
  | .error fault => .error (.invalidJson fault)
  | .ok (shapeKey, shapes) => do
    let schema ← ofShapes shapes
    pure (shapeKey.elim schema schema.setShapeKey)

end Schema

end BinaryAst
