import BinaryAst.Binary64
/-!
# BinaryAst.Value

The decoded object graph.

A value is a tree; sharing and cycles go through `ref`, which names a slot of the
object table. An object is kept apart from the type of its values (`Object α`), so
that a table slot and an inline object are the same thing.
-/

namespace BinaryAst

/-- A named member of an object. -/
structure Field (α : Type) where
  name : String
  value : α
  deriving Repr

/-- A shape name and fields, in the order in which the shape declares them. -/
structure Object (α : Type) where
  shape : String
  fields : List (Field α)
  deriving Repr

/-- A decoded value. -/
inductive Value
  /-- The null string, symbol or reference. -/
  | null
  | bool (value : Bool)
  | integer (value : Int32)
  | double (value : Binary64)
  | string (text : String)
  /-- A symbol that is spelled out. -/
  | symbol (text : String)
  /-- A symbol by its index in an interning table. -/
  | internedSymbol (index : Nat)
  | array (items : List Value)
  /-- A slot of the object table. -/
  | ref (slot : Nat)
  /-- An object in the place of a reference to it. -/
  | inline (object : Object Value)
  deriving Repr

/-- A decoded object. -/
abbrev ObjectValue := Object Value

/-- The value of the first field of a name. -/
def Object.field? {α : Type} (object : Object α) (name : String) : Option α :=
  (object.fields.find? (·.name == name)).map Field.value

namespace Value

/-! ### Views of a value -/

/-- The name of the form that a value has. -/
def kind : Value → String
  | null => "null"
  | bool _ => "boolean"
  | integer _ => "integer"
  | double _ => "double"
  | string _ => "string"
  | symbol _ | internedSymbol _ => "symbol"
  | array _ => "array"
  | ref _ => "ref"
  | inline _ => "inline"

/-- The value is null. -/
def isNull : Value → Bool
  | null => true
  | _ => false

/-- The number of an integer. -/
def integer? : Value → Option Int32
  | integer value => some value
  | _ => none

/-- The text of a string or of a symbol that is spelled out. -/
def text? : Value → Option String
  | string text | symbol text => some text
  | _ => none

/-- The items of an array. -/
def items? : Value → Option (List Value)
  | array items => some items
  | _ => none

/-! ### Equality

Values are equal part by part, with doubles compared as numbers: a value that
holds a NaN does not equal itself. -/

mutual

/-- Equality of values. -/
def equal : Value → Value → Bool
  | null, null => true
  | bool x, bool y => x == y
  | integer x, integer y => x == y
  | double x, double y => x.numericEq y
  | string x, string y => x == y
  | symbol x, symbol y => x == y
  | internedSymbol x, internedSymbol y => x == y
  | array xs, array ys => equalItems xs ys
  | ref x, ref y => x == y
  | inline ⟨shape, fields⟩, inline ⟨shape', fields'⟩ =>
    shape == shape' && equalFields fields fields'
  | _, _ => false

/-- Equality of the items of two arrays. -/
def equalItems : List Value → List Value → Bool
  | [], [] => true
  | x :: xs, y :: ys => x.equal y && equalItems xs ys
  | _, _ => false

/-- Equality of the fields of two objects. -/
def equalFields : List (Field Value) → List (Field Value) → Bool
  | [], [] => true
  | ⟨name, x⟩ :: xs, ⟨name', y⟩ :: ys => name == name' && x.equal y && equalFields xs ys
  | _, _ => false

end

end Value

end BinaryAst
