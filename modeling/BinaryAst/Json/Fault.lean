/-!
# BinaryAst.Json.Fault

The ways in which a JSON text can fail to be what its reader asks for.
-/

namespace BinaryAst.Json

/-- The first problem that a reader of a JSON text meets, from the left. -/
inductive Fault
  /-- The text ends inside a value. -/
  | truncated
  /-- The text is not JSON, or nests too deeply, or holds a number too large to
  represent. -/
  | malformed
  /-- The text is JSON but not of the kind asked for: a wrong type, or a missing,
  repeated or unknown member. -/
  | unexpected
  deriving DecidableEq, Repr

/-- A short description. -/
def Fault.message : Fault → String
  | .truncated => "text ends inside a value"
  | .malformed => "text is not well formed"
  | .unexpected => "value is not of the expected kind"

end BinaryAst.Json
