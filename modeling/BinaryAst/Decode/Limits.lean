/-!
# BinaryAst.Decode.Limits

What a decode accepts, whatever the layout of the container.
-/

namespace BinaryAst

/-- The limits of a decode. -/
structure Limits where
  /-- How deeply objects and arrays may nest. -/
  maxDepth : Nat := 512
  /-- How many items an array may announce. -/
  maxArrayLength : Nat := 1 <<< 24
  /-- How many objects the header may announce. -/
  maxObjects : Nat := 1 <<< 24
  /-- Bytes left over in a substream are an error. -/
  strict : Bool := false
  deriving DecidableEq, Repr

end BinaryAst
