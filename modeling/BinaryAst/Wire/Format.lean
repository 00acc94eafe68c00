import BinaryAst.Wire.Bytes
/-!
# BinaryAst.Wire.Format

The three switches that fix how integers and strings are laid out, and the two
encodings they stand for.

A reader and a writer with the same `WireFormat` agree on every primitive; the
other switches of a configuration only decide which primitives are read from
which stream.
-/

namespace BinaryAst

/-- How counts and indices are laid out. -/
inductive IndexEncoding
  /-- Little-endian base-128 groups, the high bit set on all but the last. -/
  | leb128
  /-- Three little-endian bytes. -/
  | fixed24
  /-- Four little-endian bytes. -/
  | fixed32
  deriving DecidableEq, Repr

/-- How strings are framed. -/
inductive StringEncoding
  /-- An index that gives the byte length, then the bytes; the null index is the
  null string. -/
  | lengthPrefixed
  /-- The bytes, then a zero byte; a leading `0xFF` is the null string. -/
  | nullTerminated
  deriving DecidableEq, Repr

/-- The switches that fix the layout of primitives. -/
structure WireFormat where
  /-- Base-128 groups for integers, instead of a fixed width. -/
  varints : Bool := false
  /-- The fixed width of an index is three bytes, not four. -/
  threeByteIndices : Bool := false
  /-- Strings end at a zero byte, instead of starting with their length. -/
  nullTerminatedStrings : Bool := false
  deriving DecidableEq, Repr

namespace WireFormat

/-- The encoding of counts and indices. Base-128 groups win over the fixed width. -/
def indexEncoding (format : WireFormat) : IndexEncoding :=
  if format.varints then .leb128
  else if format.threeByteIndices then .fixed24
  else .fixed32

/-- The framing of strings. -/
def stringEncoding (format : WireFormat) : StringEncoding :=
  if format.nullTerminatedStrings then .nullTerminated else .lengthPrefixed

end WireFormat

/-- The byte that stands for the null string, and for the null object reference,
where a payload or a flag could start. -/
def nullMarker : UInt8 := 0xFF

/-- The bytes that open every container. -/
def magic : Bytes := [0x89, 0x41, 0x53, 0x54, 0x0D, 0x0A, 0x1A, 0x0A]

end BinaryAst
