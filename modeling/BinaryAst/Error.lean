import BinaryAst.Wire.Bytes
import BinaryAst.Json.Fault
/-!
# BinaryAst.Error

Everything that can go wrong between a file name and a decoded module.

An error is a cause with the facts that its report needs; the wording is in
`DecodeError.message` alone. A failure inside a field is wrapped once per
enclosing object, so an error is a path of `(shape, field)` pairs and, beneath
them, a root cause.
-/

namespace BinaryAst

/-- Why a file could not be loaded. -/
inductive FileFault
  | notFound
  | isDirectory
  | notText
  | other (description : String)
  deriving DecidableEq, Repr

/-- The wording of a file fault. -/
def FileFault.message : FileFault → String
  | .notFound => "No such file or directory (os error 2)"
  | .isDirectory => "Is a directory (os error 21)"
  | .notText => "stream did not contain valid UTF-8"
  | .other description => description

/-- The causes of failure. Each of them is fatal: no module comes out. -/
inductive DecodeError
  /-- A file could not be loaded. -/
  | file (fault : FileFault)
  /-- The container does not open with the magic bytes. -/
  | badMagic (got : Bytes)
  /-- A read of `need` bytes found only `remaining` of them. -/
  | truncated (stream : String) (offset need remaining : Nat)
  /-- The base-128 integer that starts at `offset` does not fit 32 bits. -/
  | varintOverflow (stream : String) (offset : Nat)
  /-- The payload of a string is not UTF-8. -/
  | invalidUtf8 (stream : String) (offset length : Nat)
  /-- The length after a substream's payload differs from the one before it. -/
  | framingMismatch (stream : String) (header footer : Nat)
  /-- An entry of the tag table is the null string. -/
  | nullTagName (index : Nat)
  /-- A tag index is null, or outside the tag table. -/
  | invalidTagIndex (index : Option Nat) (count : Nat)
  /-- No shape is registered under a tag that has to name one. -/
  | unknownShape (tag : String)
  /-- The concrete tag of an `any` value is `any` itself. -/
  | nestedAny
  /-- A reference points outside the object table. -/
  | invalidObjectIndex (index length : Nat)
  /-- A slot of the object table was never filled. -/
  | uninitializedSlot (index : Nat)
  /-- An object table is needed before there is one. -/
  | objectTableMissing
  /-- A second object table is asked for. -/
  | objectTableAlreadyAllocated
  /-- The object-table stream announces a number of objects other than the
  header's. -/
  | objectCountMismatch (count length : Nat)
  /-- Values are kept in one stream per tag, and there is none for this tag. -/
  | missingValueStream (tag : String)
  /-- The root value is null. -/
  | nullRoot
  /-- A field of an object could not be decoded. -/
  | field (shape field : String) (source : DecodeError)
  /-- Objects and arrays nest more deeply than allowed. -/
  | depthExceeded (maxDepth : Nat)
  /-- An array announces more items than allowed. -/
  | arrayTooLarge (count max : Nat)
  /-- The header announces more objects than allowed. -/
  | tooManyObjects (count max : Nat)
  /-- Bytes of a substream are left over, which strict decoding refuses. -/
  | trailingBytes (stream : String) (leftover : Nat)
  /-- No configuration flag has this name. -/
  | unknownFlag (name : String)
  /-- Two shapes have this name. -/
  | duplicateShape (name : String)
  /-- A configuration or a schema is not the JSON it should be. -/
  | invalidJson (fault : Json.Fault)
  deriving DecidableEq, Repr

namespace DecodeError

/-! ### Wording -/

/-- A byte as two lower-case hexadecimal digits. -/
def hexByte (byte : UInt8) : String :=
  String.ofList [(byte.toNat / 16).digitChar, (byte.toNat % 16).digitChar]

/-- A byte string as a list of hexadecimal pairs in square brackets. -/
def hexList (bytes : Bytes) : String :=
  "[" ++ String.intercalate ", " (bytes.map hexByte) ++ "]"

/-- An index as it is written in reports, where it may be absent. -/
def indexText : Option Nat → String
  | some index => s!"Some({index})"
  | none => "None"

/-- The report of an error. -/
def message : DecodeError → String
  | file fault => s!"io: {fault.message}"
  | badMagic got => s!"magic header does not match (got {hexList got})"
  | truncated stream offset need remaining =>
    s!"truncated {stream}: at offset {offset}, need {need} bytes, remaining {remaining}"
  | varintOverflow stream offset => s!"varint overflow in {stream} at offset {offset}"
  | invalidUtf8 stream offset length =>
    s!"invalid utf-8 string in {stream} at offset {offset} ({length} bytes)"
  | framingMismatch stream header footer =>
    s!"substream {stream} length footer {footer} does not match header {header}"
  | nullTagName index => s!"tag table entry {index} is null"
  | invalidTagIndex index count =>
    s!"invalid tag index {indexText index} (tag count {count})"
  | unknownShape tag => s!"no shape registered for tag {tag}"
  | nestedAny => "found 'any' type tag when reading an any-tagged value"
  | invalidObjectIndex index length =>
    s!"invalid object index {index} (table length {length})"
  | uninitializedSlot index => s!"object table slot {index} is uninitialized"
  | objectTableMissing => "object table expected but not allocated"
  | objectTableAlreadyAllocated => "object table already allocated"
  | objectCountMismatch count length =>
    s!"read {count} object(s) into table of length {length}"
  | missingValueStream tag => s!"no value stream for tag {tag}"
  | nullRoot => "failed to retrieve root from module"
  | field shape name source =>
    s!"failed while reading field {name} of {shape}: {source.message}"
  | depthExceeded maxDepth => s!"decode depth exceeded (max={maxDepth})"
  | arrayTooLarge count max => s!"decode array too large: count={count}, max={max}"
  | tooManyObjects count max => s!"object table too large: count={count}, max={max}"
  | trailingBytes stream leftover => s!"substream {stream} has {leftover} unread byte(s)"
  | unknownFlag name => s!"unknown configuration flag: {name}"
  | duplicateShape name => s!"duplicate shape: {name}"
  | invalidJson fault => s!"invalid json: {fault.message}"

/-! ### Path and root cause -/

/-- The error beneath all field annotations. -/
def cause : DecodeError → DecodeError
  | field _ _ source => source.cause
  | cause => cause

/-- The `(shape, field)` annotations, outermost object first. -/
def path : DecodeError → List (String × String)
  | field shape name source => (shape, name) :: source.path
  | _ => []

end DecodeError

end BinaryAst
