import BinaryAst.Tag
/-!
# BinaryAst.Schema.Shape

The declared fields of an object, and the tag that a field is encoded with.
-/

namespace BinaryAst

/-- The declared type of a field. -/
inductive FieldType
  /-- One tag. -/
  | tag (tag : String)
  /-- Any of several tags, `null` among them if the field may be absent. -/
  | union (members : List String)
  deriving DecidableEq, Repr

/-- A declared field. -/
structure FieldDecl where
  name : String
  type : FieldType
  deriving DecidableEq, Repr

/-- A named object type with its fields, in the order in which they are encoded. -/
structure Shape where
  name : String
  fields : List FieldDecl
  deriving DecidableEq, Repr

namespace FieldType

/-- The members of a union that can have a value. -/
def candidates (members : List String) : List String := members.filter (· != Tag.null)

/-- The tag that a type is encoded with, given which names are shapes: a single
candidate stands for itself, several shapes are objects, and all else brings its
own tag. -/
def wireTag (isShape : String → Bool) : FieldType → String
  | tag name => name
  | union members =>
    match candidates members with
    | [] => Tag.any
    | [only] => only
    | several => if several.all isShape then Tag.object else Tag.any

end FieldType

end BinaryAst
