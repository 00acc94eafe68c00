import BinaryAst.Wire.Format
import BinaryAst.Binary64
/-!
# BinaryAst.Wire.Writer

Writing primitives: the byte string of each, in a wire format.

A container is described by a list of `WriteStep`s, nested where substreams nest.
Every step writes the same bytes wherever it stands, so the bytes of a program
are those of its steps, one after the other.
-/

namespace BinaryAst

namespace Write

/-! ### Fixed width -/

/-- The low four bytes of a number. -/
def uint32 (value : Nat) : Bytes := Bytes.ofNat 4 value

/-- The low three bytes of a number. -/
def uint24 (value : Nat) : Bytes := Bytes.ofNat 3 value

/-- Four bytes in two's complement. -/
def int32 (value : Int32) : Bytes := Bytes.ofNat 4 value.toUInt32.toNat

/-- The bit pattern of a binary64 number. -/
def binary64 (value : Binary64) : Bytes := Bytes.ofNat 8 value.bits.toNat

/-! ### Base-128 integers -/

/-- A group of seven bits that another group follows. -/
def continued (bits : Nat) : UInt8 := UInt8.ofNat (bits + 128)

/-- An unsigned integer in as few groups as it needs. -/
def lebUnsigned (value : Nat) : Bytes :=
  if value < 128 then [UInt8.ofNat value]
  else continued (value % 128) :: lebUnsigned (value / 128)
termination_by value

/-- A signed integer in as few groups as it needs: bit 6 of the last is its sign. -/
def lebSigned (value : Int) : Bytes :=
  if -64 ≤ value ∧ value < 64 then [UInt8.ofNat (value % 128).toNat]
  else continued (value % 128).toNat :: lebSigned (value / 128)
termination_by value.natAbs

/-! ### Counts, indices and strings -/

/-- An unsigned integer in the format's index encoding. -/
def varUInt32 (format : WireFormat) (value : Nat) : Bytes :=
  match format.indexEncoding with
  | .leb128 => lebUnsigned value
  | .fixed24 => uint24 value
  | .fixed32 => uint32 value

/-- The wire value of an index: null is zero, and others count from one. -/
def wireOf : Option Nat → Nat
  | none => 0
  | some index => index + 1

/-- An index, which may be null. -/
def index (format : WireFormat) (value : Option Nat) : Bytes := varUInt32 format (wireOf value)

/-- A string, which may be null. -/
def string (format : WireFormat) (value : Option String) : Bytes :=
  match format.stringEncoding, value with
  | .lengthPrefixed, none => index format none
  | .lengthPrefixed, some text =>
    index format (some (Bytes.ofText text).length) ++ Bytes.ofText text
  | .nullTerminated, none => [nullMarker]
  | .nullTerminated, some text => Bytes.ofText text ++ [0]

/-! ### Parts of a container -/

/-- A framed substream around a payload. -/
def substream (format : WireFormat) (description : String) (payload : Bytes) : Bytes :=
  string format (some description) ++ uint32 payload.length ++ payload ++ uint32 payload.length

/-- The magic bytes and the two counts. -/
def header (tagCount objectCount : Nat) : Bytes := magic ++ uint32 tagCount ++ uint32 objectCount

/-- The payload of a tag table: a count, then the names. -/
def tagNames (format : WireFormat) (tags : List String) : Bytes :=
  uint32 tags.length ++ tags.flatMap fun tag => string format (some tag)

/-- The tag table as a substream. -/
def tagTable (format : WireFormat) (tags : List String) : Bytes :=
  substream format "tags" (tagNames format tags)

end Write

/-! ### Programs -/

/-- One step of writing. -/
inductive WriteStep
  | raw (bytes : Bytes)
  | byte (value : UInt8)
  | uint32 (value : Nat)
  | uint24 (value : Nat)
  | int32 (value : Int32)
  | binary64 (value : Binary64)
  | lebUnsigned (value : Nat)
  | lebSigned (value : Int32)
  | varUInt32 (value : Nat)
  | index (value : Option Nat)
  | string (value : Option String)
  | substream (description : String) (steps : List WriteStep)
  | framed (description : String) (payload : Bytes)
  | header (tagCount objectCount : Nat)
  | tagTable (tags : List String)
  deriving Repr

mutual

/-- The bytes that a step writes. -/
def WriteStep.bytes (format : WireFormat) : WriteStep → Bytes
  | .raw bytes => bytes
  | .byte value => [value]
  | .uint32 value => Write.uint32 value
  | .uint24 value => Write.uint24 value
  | .int32 value => Write.int32 value
  | .binary64 value => Write.binary64 value
  | .lebUnsigned value => Write.lebUnsigned value
  | .lebSigned value => Write.lebSigned value.toInt
  | .varUInt32 value => Write.varUInt32 format value
  | .index value => Write.index format value
  | .string value => Write.string format value
  | .substream description steps =>
    Write.substream format description (WriteStep.bytesAll format steps)
  | .framed description payload => Write.substream format description payload
  | .header tagCount objectCount => Write.header tagCount objectCount
  | .tagTable tags => Write.tagTable format tags

/-- The bytes that steps write, one after the other. -/
def WriteStep.bytesAll (format : WireFormat) : List WriteStep → Bytes
  | [] => []
  | step :: steps => step.bytes format ++ WriteStep.bytesAll format steps

end

@[simp] theorem WriteStep.bytesAll_append (format : WireFormat) (steps more : List WriteStep) :
    WriteStep.bytesAll format (steps ++ more) =
      WriteStep.bytesAll format steps ++ WriteStep.bytesAll format more := by
  induction steps with
  | nil => simp [WriteStep.bytesAll]
  | cons step steps ih => simp [WriteStep.bytesAll, ih]

end BinaryAst
