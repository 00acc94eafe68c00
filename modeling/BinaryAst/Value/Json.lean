import BinaryAst.Value
import BinaryAst.Json.Tree
/-!
# BinaryAst.Value.Json

Decoded values as JSON.

An object gives its fields by name, and its shape under a key that is set aside
for it; of two members with the same key the later one stays, the shape last of
all. A reference and an interned symbol are objects with a single marked member.
-/

namespace BinaryAst

open Json (Tree)

namespace Value

/-- The key of a reference to a slot. -/
def refKey : String := "$ref"

/-- The key of an interned symbol. -/
def symbolKey : String := "$symbol"

mutual

/-- A value as JSON. A number that is not finite becomes null. -/
def toJson (shapeKey : String) : Value → Tree
  | null => .null
  | bool value => .boolean value
  | integer value => .integer value.toInt
  | double value => if value.isFinite then .double value else .null
  | string text => .string text
  | symbol text => .string text
  | internedSymbol index => .object [(symbolKey, .integer index)]
  | ref slot => .object [(refKey, .integer slot)]
  | array items => .array (itemsToJson shapeKey items)
  | inline ⟨shape, fields⟩ =>
    .object (Tree.insert shapeKey (.string shape) (fieldsToJson shapeKey [] fields))

/-- Items as JSON. -/
def itemsToJson (shapeKey : String) : List Value → List Tree
  | [] => []
  | item :: items => item.toJson shapeKey :: itemsToJson shapeKey items

/-- Fields as members, on top of those that are there. -/
def fieldsToJson (shapeKey : String) (members : List (String × Tree)) :
    List (Field Value) → List (String × Tree)
  | [] => members
  | ⟨name, value⟩ :: fields =>
    fieldsToJson shapeKey (Tree.insert name (value.toJson shapeKey) members) fields

end

end Value

/-- An object as JSON. -/
def Object.toJson (shapeKey : String) (object : ObjectValue) : Tree :=
  (Value.inline object).toJson shapeKey

end BinaryAst
