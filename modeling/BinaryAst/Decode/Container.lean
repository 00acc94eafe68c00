import BinaryAst.Module
import BinaryAst.Decode.Object
/-!
# BinaryAst.Decode.Container

Decoding a container: its header, the tag table, the side streams, the object
table and the root, in this order.

The container is read front to back by one reader, and a section is decoded as
soon as its substream has been read: what the container holds behind a section
cannot change how the section decodes.
-/

namespace BinaryAst.Decode

/-- What changes while a container is read. -/
structure Assembly where
  container : Reader
  events : Array Event

/-- A step of reading a container. A failed step hands its state on, too. -/
abbrev Assemble := EStateM DecodeError Assembly

namespace Assemble

/-! ### Substreams -/

/-- A read from the container itself. -/
def read {α : Type} (read : Read α) : Assemble α := fun s =>
  match read s.container with
  | .ok value container => .ok value { s with container }
  | .error e container => .error e { s with container }

/-- The next substream of the container. -/
def nextStream : Assemble Reader := do
  let r ← read Read.substream
  modify fun s => { s with events := s.events.push (.stream r.description r.base r.length) }
  pure r

/-- The next substream, where the container has one here. -/
def nextStreamIf (present : Bool) : Assemble (Option Reader) :=
  if present then some <$> nextStream else pure none

/-- A tag table: a count, then names, none of them null. -/
def tagNames : Read (List String) := do
  let count ← Read.uint32
  collect count fun index => do
    match ← Read.string with
    | some name => pure name
    | none => throw (.nullTagName index)

/-- The tag table, and its stream after it was read. -/
def tagTable : Assemble (List String × Reader) := do
  match tagNames (← nextStream) with
  | .ok tags stream => pure (tags, stream)
  | .error e _ => throw e

/-- The side streams that serve one kind of read. -/
def sideStreams (c : Configuration) : Assemble SideStreams := do
  let inlining ← nextStreamIf c.separatesInliningFlags
  let typeTags ← nextStreamIf c.typeTagStream
  let packedIndices ← nextStreamIf c.separatesPackedIndices
  pure { inlining, typeTags, packedIndices }

/-- The index of a tag, then the stream of its values. -/
def valueStream (tags : Array String) : Assemble (String × Reader) := do
  match tagAt tags (← read Read.index) with
  | .ok tag => return (tag, ← nextStream)
  | .error e => throw e

/-- The value streams, as many as there are tags, where values are kept by tag. -/
def valueStreams (c : Configuration) (tags : Array String) :
    Assemble (Array (String × Reader)) :=
  if c.valueStreamPerType then
    List.toArray <$> collect tags.size fun _ => valueStream tags
  else
    pure #[]

/-! ### Sections -/

/-- Decodes a section from its own stream and the streams beside it. -/
def decodeSection {n : Nat} {α : Type} (step : Step n α) (own : Reader)
    (values : Vector Reader n) (side : SideStreams) : Assemble (α × State n) := fun s =>
  match step { own, values, side, events := s.events } with
  | .ok value after => .ok (value, after) { s with events := after.events }
  | .error e after => .error e { s with events := after.events }

/-- The readers of value streams. -/
def readersOf (values : Array (String × Reader)) : Vector Reader values.size :=
  ⟨values.map (·.2), by simp⟩

/-- The value stream of each tag, latest registration first. -/
def routesOf (values : Array (String × Reader)) : List (String × Fin values.size) :=
  (List.finRange values.size).reverse.map fun i => (values[i].1, i)

/-- All streams of a container, in container order. -/
def allStreams {n : Nat} (tags objects : Reader) (s : State n) : List Reader :=
  [tags] ++ s.side.inlining.toList ++ s.side.typeTags.toList ++ s.side.packedIndices.toList ++
    s.values.toList ++ [objects, s.own]

/-- Fails for the first stream that was not read to its end. -/
def checkLeftovers (streams : List StreamUse) : Assemble Unit :=
  match streams.find? (0 < ·.leftover) with
  | some stream => throw (.trailingBytes stream.description stream.leftover)
  | none => pure ()

/-- The module of a container. -/
def moduleOf (configuration : Configuration) (schema : Schema) (limits : Limits) :
    Assemble Module := do
  let header ← read Header.read
  let (tags, tagStream) ← tagTable
  let side ← sideStreams configuration
  let values ← valueStreams configuration tags.toArray
  -- The header's count is checked when the table is due, behind the value streams.
  if limits.maxObjects < header.objectCount then
    throw (.tooManyObjects header.objectCount limits.maxObjects)
  let ctx : Context values.size :=
    { configuration, limits, schema, tags := tags.toArray, routes := routesOf values,
      objectCount := header.objectCount }
  let (objects, afterObjects) ←
    decodeSection (objectTable ctx) (← nextStream) (readersOf values) side
  let (root, afterRoot) ←
    decodeSection (root ctx) (← nextStream) afterObjects.values afterObjects.side
  let streams := (allStreams tagStream afterObjects.own afterRoot).map StreamUse.ofReader
  if limits.strict then
    checkLeftovers streams
  pure { configuration, header, tags, objects, root, streams }

end Assemble

end BinaryAst.Decode

namespace BinaryAst

/-- What decoding gives: the module or an error, and what an observer was told up
to the end or the failure. -/
structure Decoding where
  result : Except DecodeError Module
  events : List Event

/-- Decodes the bytes of a container. -/
def Module.decode (bytes : Bytes) (configuration : Configuration) (schema : Schema)
    (limits : Limits) : Decoding :=
  let start : Decode.Assembly := ⟨.ofBytes configuration.toWireFormat "module" bytes, #[]⟩
  match Decode.Assemble.moduleOf configuration schema limits start with
  | .ok m s => ⟨.ok m, s.events.toList⟩
  | .error e s => ⟨.error e, s.events.toList⟩

/-- A container in memory, with its header checked. -/
structure Container where
  header : Header
  bytes : Bytes
  deriving DecidableEq, Repr

namespace Container

/-- Takes bytes that open with a header. No switch changes how it is laid out. -/
def ofBytes (bytes : Bytes) : Except DecodeError Container :=
  match Header.read (.ofBytes {} "module" bytes) with
  | .ok header _ => .ok ⟨header, bytes⟩
  | .error e _ => .error e

/-- Decodes a container. -/
def decode (c : Container) (configuration : Configuration) (schema : Schema)
    (limits : Limits) : Decoding :=
  Module.decode c.bytes configuration schema limits

end Container

end BinaryAst
