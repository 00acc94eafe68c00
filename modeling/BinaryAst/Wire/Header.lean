import BinaryAst.Wire.Reader
/-!
# BinaryAst.Wire.Header

What opens every container: the magic bytes and two counts.
-/

namespace BinaryAst

/-- The counts in a container's header. -/
structure Header where
  /-- Announced number of tags. It informs; the tag table carries its own count. -/
  tagCount : Nat
  /-- Number of objects in the object table. -/
  objectCount : Nat
  deriving DecidableEq, Repr

namespace Header

/-- Number of bytes a header takes. -/
def size : Nat := magic.length + 8

/-- Reads a header. A range too short for the magic bytes is consumed whole and
shown in the error, as are eight bytes that differ from them. -/
def read : Read Header := do
  let got ← Read.bytes (min magic.length (← get).remaining)
  if got = magic then
    let tagCount ← Read.uint32
    let objectCount ← Read.uint32
    pure ⟨tagCount, objectCount⟩
  else
    throw (.badMagic got)

end Header

end BinaryAst
