import BinaryAst.Wire.Cursor
import BinaryAst.Wire.Format
import BinaryAst.Binary64
import BinaryAst.Error
/-!
# BinaryAst.Wire.Reader

Reading primitives from a framed byte range.

A `Reader` is a cursor with a wire format and a description for error reports. A
`Read α` is a step that consumes from a reader; it hands the reader on both when
it succeeds and when it fails, so what a failed step has consumed is part of its
result:

* a byte, a fixed-width number and a run of bytes are read whole or not at all;
* a step made of several reads (a base-128 integer, a string, a substream) keeps
  what its parts consumed before the failure.
-/

namespace BinaryAst

/-- A position in a described byte range, with the layout of its primitives. -/
structure Reader where
  cursor : Cursor
  format : WireFormat
  /-- The name under which errors report this range. -/
  description : String
  deriving DecidableEq, Repr

namespace Reader

/-- The reader at the start of a whole buffer. -/
def ofBytes (format : WireFormat) (description : String) (bytes : Bytes) : Reader :=
  ⟨.ofBytes 0 bytes, format, description⟩

/-- Absolute offset of the next byte. -/
def offset (r : Reader) : Nat := r.cursor.offset

/-- Absolute offset of the first byte of the range. -/
def base (r : Reader) : Nat := r.cursor.base

/-- Length of the range. -/
def length (r : Reader) : Nat := r.cursor.length

/-- The range holds no bytes. -/
def isEmpty (r : Reader) : Bool := r.cursor.isEmpty

/-- Number of bytes read so far. -/
def consumed (r : Reader) : Nat := r.cursor.pos

/-- Number of bytes ahead. -/
def remaining (r : Reader) : Nat := r.cursor.remaining

/-- The byte `ahead` positions on, without moving. -/
def peek (r : Reader) (ahead : Nat) : Option UInt8 := r.cursor.peek ahead

/-- The report of a read of `need` bytes that found too few. -/
def truncated (r : Reader) (need : Nat) : DecodeError :=
  .truncated r.description r.offset need r.remaining

end Reader

/-- A step that consumes from a reader, and hands it on also when it fails. -/
abbrev Read := EStateM DecodeError Reader

namespace Read

/-! ### Single reads -/

/-- A cursor operation as a step; where it finds too few bytes, the step fails as
a read of `need` bytes and consumes nothing. -/
def ofCursor {α : Type} (need : Nat) (op : Cursor → Option (α × Cursor)) : Read α :=
  fun r =>
    match op r.cursor with
    | some (value, cursor) => .ok value { r with cursor }
    | none => .error (r.truncated need) r

/-- The next byte. -/
def byte : Read UInt8 := ofCursor 1 Cursor.read

/-- The next `count` bytes. -/
def bytes (count : Nat) : Read Bytes := ofCursor count (·.take count)

/-- Moves `count` bytes on. -/
def skip (count : Nat) : Read Unit := ofCursor count (·.skip count)

/-- A little-endian unsigned number of `width` bytes. -/
def unsigned (width : Nat) : Read Nat := Bytes.toNat <$> bytes width

/-- Four little-endian bytes, unsigned. -/
def uint32 : Read Nat := unsigned 4

/-- Three little-endian bytes, unsigned. -/
def uint24 : Read Nat := unsigned 3

/-- Four little-endian bytes in two's complement. -/
def int32 : Read Int32 := (fun value => (UInt32.ofNat value).toInt32) <$> unsigned 4

/-- The bit pattern of a binary64 number, little-endian. -/
def binary64 : Read Binary64 := (fun value => ⟨UInt64.ofNat value⟩) <$> unsigned 8

/-! ### Base-128 integers

A group is a byte: seven bits of the number, and a high bit that says whether
another group follows. A number has five groups at most. -/

/-- Whether another group follows. -/
def continues (group : UInt8) : Bool := 128 ≤ group

/-- Number of groups a 32-bit integer may take. -/
def maxGroups : Nat := 5

/-- Fails for the integer that starts at offset `start`. -/
def overflow {α : Type} (start : Nat) : Read α := do
  throw (.varintOverflow (← get).description start)

/-- Reads the groups of an unsigned integer: `left` more at most, the next one
with weight `2 ^ shift`, on top of `sum`. The last group allowed may only hold
what is left of 32 bits. -/
def unsignedGroups (start : Nat) : (left shift sum : Nat) → Read Nat
  | 0, _, _ => overflow start
  | left + 1, shift, sum => do
    let group ← byte
    let bits := group.toNat % 128
    -- Four bits are left for the fifth group.
    if left = 0 ∧ 15 < bits then
      overflow start
    else
      let sum := sum + (bits <<< shift)
      if continues group then unsignedGroups start left (shift + 7) sum else pure sum

/-- An unsigned 32-bit integer in base-128 groups. -/
def lebUnsigned : Read Nat := do
  unsignedGroups (← get).offset maxGroups 0 0

/-- The number that `sum` stands for when it fills `width` bits and `negative` is
its sign. -/
def signExtend (sum width : Nat) (negative : Bool) : Int :=
  if negative then sum - (1 <<< width : Nat) else sum

/-- Reads the groups of a signed integer, as `unsignedGroups` does. Bit 6 of the
last group is the sign, and the number has to fit 32 bits. -/
def signedGroups (start : Nat) : (left shift sum : Nat) → Read Int32
  | 0, _, _ => overflow start
  | left + 1, shift, sum => do
    let group ← byte
    let sum := sum + ((group.toNat % 128) <<< shift)
    if continues group then
      signedGroups start left (shift + 7) sum
    else
      -- This group has no high bit, so it is 64 or more when bit 6 is set.
      let value := signExtend sum (shift + 7) (64 ≤ group)
      if -0x80000000 ≤ value ∧ value < 0x80000000 then pure (Int32.ofInt value) else overflow start

/-- A signed 32-bit integer in base-128 groups. -/
def lebSigned : Read Int32 := do
  signedGroups (← get).offset maxGroups 0 0

/-! ### Counts and indices -/

/-- An unsigned integer in the format's index encoding. -/
def varUInt32 : Read Nat := do
  match (← get).format.indexEncoding with
  | .leb128 => lebUnsigned
  | .fixed24 => uint24
  | .fixed32 => uint32

/-- A signed integer: base-128 groups where the format has them, else four bytes. -/
def varInt32 : Read Int32 := do
  match (← get).format.indexEncoding with
  | .leb128 => lebSigned
  | .fixed24 | .fixed32 => int32

/-- The index a wire value stands for: zero is null, and others count from one. -/
def indexOf : (wire : Nat) → Option Nat
  | 0 => none
  | wire + 1 => some wire

/-- An index, which may be null. -/
def index : Read (Option Nat) := indexOf <$> varUInt32

/-! ### Strings -/

/-- The payload of a string, `none` for the null string. -/
def stringPayload : Read (Option Bytes) := do
  match (← get).format.stringEncoding with
  | .lengthPrefixed =>
    match ← index with
    | none => pure none
    | some length => some <$> bytes length
  | .nullTerminated =>
    if (← get).peek 0 = some nullMarker then
      skip 1
      pure none
    else
      some <$> ofCursor 1 Cursor.takeUntilZero

/-- A string, `none` for the null string. A payload that is not UTF-8 is reported
at the offset where the string starts. -/
def string : Read (Option String) := do
  let start := (← get).offset
  match ← stringPayload with
  | none => pure none
  | some payload =>
    match Bytes.toText? payload with
    | some text => pure (some text)
    | none => throw (.invalidUtf8 (← get).description start payload.length)

/-! ### Substreams -/

/-- The description of a substream whose own description is null. -/
def unnamed : String := "substream"

/-- A framed substream: description, length, payload, the length again. The
result reads the payload, at its place in the buffer and in the same format. -/
def substream : Read Reader := do
  let description := (← string).getD unnamed
  let header ← uint32
  let base := (← get).offset
  let payload ← bytes header
  let footer ← uint32
  if footer = header then
    pure ⟨.ofBytes base payload, (← get).format, description⟩
  else
    throw (.framingMismatch description header footer)

end Read

end BinaryAst
