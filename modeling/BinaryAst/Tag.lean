/-!
# BinaryAst.Tag

Type tags. A tag is a name; eight of them are built in, and every other name is
the name of a shape.
-/

namespace BinaryAst.Tag

/-- The ways in which a value can be encoded. -/
inductive Kind
  /-- The concrete tag precedes the value. -/
  | any
  | symbol
  | string
  | boolean
  | integer
  | double
  | array
  /-- A reference to an object, of any shape or of a named one. -/
  | object
  deriving DecidableEq, Repr

/-- The encodings of a single scalar. -/
def Kind.isPrimitive : Kind → Bool
  | symbol | string | boolean | integer | double => true
  | any | array | object => false

/-- The tag of a value that brings its own tag. -/
def any : String := "any"

/-- The tag of a reference to an object of any shape. -/
def object : String := "object"

/-- The member of a union that allows for an absent value; it has no encoding of
its own. -/
def null : String := "null"

/-- The encoding that a tag stands for. A name that is not built in stands for an
object. -/
def kind (tag : String) : Kind :=
  match tag with
  | "any" => .any
  | "symbol" => .symbol
  | "string" => .string
  | "boolean" => .boolean
  | "integer" => .integer
  | "double" => .double
  | "array" => .array
  | _ => .object

/-- Whether a tag stands for a single scalar. -/
def isPrimitive (tag : String) : Bool := (kind tag).isPrimitive

end BinaryAst.Tag
