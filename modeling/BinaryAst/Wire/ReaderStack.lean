import BinaryAst.Wire.Header
/-!
# BinaryAst.Wire.ReaderStack

A stack of readers driven by a program of operations.

Opening a substream pushes its reader, and dropping it brings back the reader
around it. Each operation acts on the top of the stack, whether or not the one
before it failed: a failed operation leaves the top as the failed read left it.
-/

namespace BinaryAst

/-- Readers, innermost first; there is always one. -/
structure ReaderStack where
  top : Reader
  below : List Reader
  deriving DecidableEq, Repr

namespace ReaderStack

/-- One operation on the top of the stack. -/
inductive Op
  | peek (ahead : Nat)
  | byte
  | bytes (count : Nat)
  | skip (count : Nat)
  | uint32
  | uint24
  | int32
  | binary64
  | varUInt32
  | varInt32
  | index
  | string
  | header
  | enter
  | leave
  deriving DecidableEq, Repr

/-- What an operation gives back. -/
inductive Answer
  | unit
  | peeked (byte : Option UInt8)
  | byte (value : UInt8)
  | bytes (value : Bytes)
  | unsigned (value : Nat)
  | signed (value : Int32)
  | double (value : Binary64)
  | index (value : Option Nat)
  | string (value : Option String)
  | header (value : Header)
  | entered (reader : Reader)
  /-- The height of the stack after an attempt to leave. -/
  | left (height : Nat)
  deriving DecidableEq, Repr

/-- The stack of one reader. -/
def ofReader (r : Reader) : ReaderStack := ⟨r, []⟩

/-- All readers, innermost first. -/
def toList (s : ReaderStack) : List Reader := s.top :: s.below

/-- Number of readers. -/
def height (s : ReaderStack) : Nat := s.toList.length

/-- Runs a step on the top. -/
def onTop {α : Type} (s : ReaderStack) (step : Read α) (answer : α → Answer) :
    Except DecodeError Answer × ReaderStack :=
  match step s.top with
  | .ok value top => (.ok (answer value), { s with top })
  | .error e top => (.error e, { s with top })

/-- Opens a substream of the top, which becomes the new top. -/
def enter (s : ReaderStack) : Except DecodeError Answer × ReaderStack :=
  match Read.substream s.top with
  | .ok inner outer => (.ok (.entered inner), ⟨inner, outer :: s.below⟩)
  | .error e outer => (.error e, { s with top := outer })

/-- Drops the top, unless it is the only reader. -/
def leave (s : ReaderStack) : ReaderStack :=
  match s.below with
  | [] => s
  | outer :: below => ⟨outer, below⟩

/-- Performs one operation. -/
def perform (s : ReaderStack) : Op → Except DecodeError Answer × ReaderStack
  | .peek ahead => (.ok (.peeked (s.top.peek ahead)), s)
  | .byte => s.onTop Read.byte .byte
  | .bytes count => s.onTop (Read.bytes count) .bytes
  | .skip count => s.onTop (Read.skip count) fun _ => .unit
  | .uint32 => s.onTop Read.uint32 .unsigned
  | .uint24 => s.onTop Read.uint24 .unsigned
  | .int32 => s.onTop Read.int32 .signed
  | .binary64 => s.onTop Read.binary64 .double
  | .varUInt32 => s.onTop Read.varUInt32 .unsigned
  | .varInt32 => s.onTop Read.varInt32 .signed
  | .index => s.onTop Read.index .index
  | .string => s.onTop Read.string .string
  | .header => s.onTop Header.read .header
  | .enter => s.enter
  | .leave => (.ok (.left s.leave.height), s.leave)

/-- Performs operations in order, and gives each result with the stack after it. -/
def performAll (s : ReaderStack) :
    List Op → List (Except DecodeError Answer × ReaderStack)
  | [] => []
  | op :: ops => s.perform op :: (s.perform op).2.performAll ops

end ReaderStack

end BinaryAst
