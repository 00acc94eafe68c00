import BinaryAst.Wire.Reader
import BinaryAst.Decode.Event
/-!
# BinaryAst.Decode.Streams

The streams that a section of a container is decoded from.

The object table and the root are the two sections that hold values. Each is
decoded from its own stream and from the side streams that the container has:
inlining flags, type tags, packed indices, and one stream of values per tag. The
side streams go on through both sections.

A place to read values from is a `Source`: the section's own stream, or one of the
`n` value streams. The other side streams are never a source; each serves one
kind of read, and where the container has none, the source serves it.
-/

namespace BinaryAst.Decode

/-- A stream that values are read from. -/
inductive Source (n : Nat)
  /-- The section's own stream. -/
  | own
  /-- A stream of the values of one tag. -/
  | values (i : Fin n)
  deriving DecidableEq, Repr

/-- The side streams that serve one kind of read. -/
structure SideStreams where
  /-- The flag bytes of object references. -/
  inlining : Option Reader
  /-- The indices of type tags. -/
  typeTags : Option Reader
  /-- The packed indices of object references. -/
  packedIndices : Option Reader
  deriving Repr

/-- What changes while a section is decoded. -/
structure State (n : Nat) where
  own : Reader
  values : Vector Reader n
  side : SideStreams
  events : Array Event

/-- A step of decoding a section. A failed step hands its state on, too. -/
abbrev Step (n : Nat) := EStateM DecodeError (State n)

namespace State

variable {n : Nat}

/-- The reader of a source. -/
def reader (s : State n) : Source n → Reader
  | .own => s.own
  | .values i => s.values[i]

/-- The state with another reader for a source. -/
def setReader (s : State n) (source : Source n) (r : Reader) : State n :=
  match source with
  | .own => { s with own := r }
  | .values i => { s with values := s.values.set i r }

/-- Runs a read on a reader, and puts the reader back. -/
def serve {α : Type} (r : Reader) (putBack : Reader → State n) (read : Read α) :
    EStateM.Result DecodeError (State n) α :=
  match read r with
  | .ok value r => .ok value (putBack r)
  | .error e r => .error e (putBack r)

end State

namespace Step

variable {n : Nat} {α : Type}

/-- A read from a source. -/
def fromSource (source : Source n) (read : Read α) : Step n α := fun s =>
  State.serve (s.reader source) (s.setReader source) read

/-- A read from the stream of inlining flags. -/
def fromInlining (source : Source n) (read : Read α) : Step n α := fun s =>
  match s.side.inlining with
  | some r =>
    State.serve r (fun r => { s with side := { s.side with inlining := some r } }) read
  | none => fromSource source read s

/-- A read from the stream of type tags. -/
def fromTypeTags (source : Source n) (read : Read α) : Step n α := fun s =>
  match s.side.typeTags with
  | some r =>
    State.serve r (fun r => { s with side := { s.side with typeTags := some r } }) read
  | none => fromSource source read s

/-- A read from the stream of packed indices. -/
def fromPackedIndices (source : Source n) (read : Read α) : Step n α := fun s =>
  match s.side.packedIndices with
  | some r =>
    State.serve r (fun r => { s with side := { s.side with packedIndices := some r } }) read
  | none => fromSource source read s

/-- The description of a source. -/
def description (source : Source n) : Step n String := fun s =>
  .ok (s.reader source).description s

/-- Tells an event. -/
def tell (event : Event) : Step n Unit := fun s =>
  .ok () { s with events := s.events.push event }

end Step

end BinaryAst.Decode
