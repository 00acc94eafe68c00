import BinaryAst.Proofs.Container.Passage
import BinaryAst.Proofs.Decode.Grammar
import BinaryAst.Proofs.Nesting
import BinaryAst.Proofs.Wire.Header
/-!
# BinaryAst.Proofs.Container.Layout

How an accepted container is laid out.

A `Layout` cuts a container into its parts, in container order, and marks in each the
bytes that decoding takes. `Layout.Describes` ties it to the module and to the events:
the tag table spells the tags, the object table and the root have logs in the grammar,
and what the logs take from each stream is what is marked there.

Limits are kept apart (`Limits.Admits`): they look at the module alone, not at how it
was laid out.
-/

namespace BinaryAst.Decode

/-- A framed substream, and the bytes at the start of its payload that are read. -/
structure Section where
  frame : Frame
  taken : Bytes

/-- A substream of a container, with the bytes that stand right before it. -/
structure Part extends Section where
  preface : Bytes

/-- A substream with nothing before it. -/
def Section.part (s : Section) : Part := { s with preface := [] }

namespace Part

/-- What the part is in the container. -/
def bytes (p : Part) : Bytes := p.preface ++ p.frame.bytes

/-- The reader of the payload, for a part that stands at an offset. -/
def reader (p : Part) (format : WireFormat) (offset : Nat) : Reader :=
  p.frame.reader format (offset + p.preface.length)

/-- The reader after what is read of the payload. -/
def done (p : Part) (format : WireFormat) (offset : Nat) : Reader :=
  (p.reader format offset).skip p.taken.length

/-- The summary of the substream. -/
def use (p : Part) (offset : Nat) : StreamUse :=
  ⟨p.frame.description, offset + p.preface.length + p.frame.lead.length, p.frame.payload.length,
    p.taken.length⟩

/-- The event of opening the substream. -/
def opening (format : WireFormat) (p : Part) (offset : Nat) : Event :=
  opened (p.reader format offset)

/-- The frame is in order, and the payload starts with what is read. -/
structure Valid (format : WireFormat) (p : Part) : Prop where
  frame : p.frame.Valid format
  taken : p.taken <+: p.frame.payload

theorem ofReader_done (format : WireFormat) {p : Part} (hp : p.taken <+: p.frame.payload)
    (offset : Nat) : StreamUse.ofReader (p.done format offset) = p.use offset := by
  have hlen : (p.done format offset).length = p.frame.payload.length :=
    (Reader.length_skip hp.length_le).trans (Frame.length_reader _)
  rw [StreamUse.ofReader, hlen]
  simp [done, reader, use]

/-- The bytes of several parts. -/
def bytesOf (parts : List Part) : Bytes := parts.flatMap bytes

/-- What `f` gives for each part, told its offset. -/
def eachFrom {α : Type} (f : Part → Nat → α) : (offset : Nat) → List Part → List α
  | _, [] => []
  | offset, part :: parts => f part offset :: eachFrom f (offset + part.bytes.length) parts

@[simp] theorem bytesOf_nil : bytesOf [] = [] := rfl

@[simp] theorem bytesOf_cons (part : Part) (parts : List Part) :
    bytesOf (part :: parts) = part.bytes ++ bytesOf parts := rfl

@[simp] theorem bytesOf_append (parts more : List Part) :
    bytesOf (parts ++ more) = bytesOf parts ++ bytesOf more := List.flatMap_append

variable {α : Type}

@[simp] theorem eachFrom_nil (f : Part → Nat → α) (offset : Nat) : eachFrom f offset [] = [] := rfl

@[simp] theorem eachFrom_cons (f : Part → Nat → α) (offset : Nat) (part : Part)
    (parts : List Part) : eachFrom f offset (part :: parts) =
      f part offset :: eachFrom f (offset + part.bytes.length) parts := rfl

theorem eachFrom_append (f : Part → Nat → α) (offset : Nat) (parts more : List Part) :
    eachFrom f offset (parts ++ more) =
      eachFrom f offset parts ++ eachFrom f (offset + (bytesOf parts).length) more := by
  induction parts generalizing offset with
  | nil => rfl
  | cons part parts ih => simp [ih, Nat.add_assoc]

@[simp] theorem length_eachFrom (f : Part → Nat → α) (offset : Nat) (parts : List Part) :
    (eachFrom f offset parts).length = parts.length := by
  induction parts generalizing offset with
  | nil => rfl
  | cons part parts ih => simp [ih]

theorem getElem?_eachFrom (f : Part → Nat → α) (offset : Nat) (parts : List Part) (i : Nat) :
    (eachFrom f offset parts)[i]? =
      parts[i]?.map fun part => f part (offset + (bytesOf (parts.take i)).length) := by
  induction parts generalizing offset i with
  | nil => simp
  | cons part parts ih =>
      cases i with
      | zero => simp
      | succ i => simp [ih, Nat.add_assoc]

/-- In `eachFrom`, parts may be replaced by others that take as many bytes. -/
theorem eachFrom_map {g : Part → Part} (hg : ∀ part, (g part).bytes.length = part.bytes.length)
    (f : Part → Nat → α) (offset : Nat) (parts : List Part) :
    eachFrom f offset (parts.map g) = eachFrom (fun part => f (g part)) offset parts := by
  induction parts generalizing offset with
  | nil => rfl
  | cons part parts ih => simp [ih, hg]

/-- Parts that are alike under `g` are alike to what does not see more than `g` keeps. -/
theorem eachFrom_congr_of_map {g : Part → Part}
    (hg : ∀ part, (g part).bytes.length = part.bytes.length) {f : Part → Nat → α}
    (hf : ∀ part offset, f (g part) offset = f part offset) {parts others : List Part}
    (h : parts.map g = others.map g) (offset : Nat) :
    eachFrom f offset parts = eachFrom f offset others := by
  have hmap : ∀ parts, eachFrom f offset (parts.map g) = eachFrom f offset parts := by
    intro parts
    rw [eachFrom_map hg, show (fun part => f (g part)) = f from funext fun part => funext (hf part)]
  rw [← hmap, h, hmap]

end Part

/-! ### Side streams and value streams -/

/-- The parts of a substream that may be absent. -/
def Section.optional (s : Option Section) : List Part := s.toList.map Section.part

/-- The three side streams that serve one kind of read. -/
structure SideSections where
  inlining : Option Section
  typeTags : Option Section
  packedIndices : Option Section

namespace SideSections

/-- The parts, in container order. -/
def parts (s : SideSections) : List Part :=
  Section.optional s.inlining ++ Section.optional s.typeTags ++ Section.optional s.packedIndices

/-- The readers, for side streams that stand at an offset. -/
def readers (s : SideSections) (format : WireFormat) (offset : Nat) : SideStreams where
  inlining := s.inlining.map (·.part.reader format offset)
  typeTags := s.typeTags.map
    (·.part.reader format (offset + (Part.bytesOf (Section.optional s.inlining)).length))
  packedIndices := s.packedIndices.map (·.part.reader format
    (offset + (Part.bytesOf (Section.optional s.inlining ++
      Section.optional s.typeTags)).length))

/-- The side streams are those that the configuration calls for. -/
structure Fits (c : Configuration) (s : SideSections) : Prop where
  inlining : s.inlining.isSome = c.separatesInliningFlags
  typeTags : s.typeTags.isSome = c.typeTagStream
  packedIndices : s.packedIndices.isSome = c.separatesPackedIndices

end SideSections

/-- The readers of value streams that stand at an offset, with their tags. -/
def valueReaders (format : WireFormat) : (offset : Nat) → List (String × Part) →
    List (String × Reader)
  | _, [] => []
  | offset, (tag, part) :: entries =>
      (tag, part.reader format offset) :: valueReaders format (offset + part.bytes.length) entries

theorem map_fst_valueReaders (format : WireFormat) (offset : Nat) (entries : List (String × Part)) :
    (valueReaders format offset entries).map (·.1) = entries.map (·.1) := by
  induction entries generalizing offset with
  | nil => rfl
  | cons entry entries ih => simp [valueReaders, ih]

theorem map_snd_valueReaders (format : WireFormat) (offset : Nat) (entries : List (String × Part)) :
    (valueReaders format offset entries).map (·.2) =
      Part.eachFrom (fun part offset => part.reader format offset) offset (entries.map (·.2)) := by
  induction entries generalizing offset with
  | nil => rfl
  | cons entry entries ih => simp [valueReaders, ih]

theorem length_valueReaders (offset : Nat) (entries : List (String × Part)) :
    (valueReaders format offset entries).length = entries.length := by
  induction entries generalizing offset with
  | nil => rfl
  | cons entry entries ih => simp [valueReaders, ih]

/-! ### The streams of both sections -/

/-- The state at the start of a section. -/
def State.opening {n : Nat} (own : Reader) (values : Vector Reader n) (side : SideStreams) :
    State n :=
  { own, values, side, events := #[] }

/-- The streams that go on through the object table and the root. -/
structure Shared where
  side : SideSections
  /-- The value streams with their tags; the index of the tag is before the stream. -/
  values : List (String × Part)

namespace Shared

/-- The parts, in container order. -/
def parts (l : Shared) : List Part := l.side.parts ++ l.values.map (·.2)

/-- The stream of a lane. -/
def section? (l : Shared) : Lane → Option Section
  | .own => none
  | .values i => l.values[i]?.map (·.2.toSection)
  | .inlining => l.side.inlining
  | .typeTags => l.side.typeTags
  | .packedIndices => l.side.packedIndices

/-- The bytes that are marked as taken from a lane. -/
def taken (l : Shared) (lane : Lane) : Bytes := ((l.section? lane).map (·.taken)).getD []

/-- The description of a lane, for a section whose own stream has this one. -/
def describe (l : Shared) (own : String) : Lane → String
  | .own => own
  | lane => ((l.section? lane).map (·.frame.description)).getD ""

/-- The position of the stream that holds the values of a tag: the last that is
registered for it. -/
def route (l : Shared) (tag : String) : Option Nat :=
  (l.values.map (·.1)).zipIdx.reverse.lookup tag

/-- What the encoding of values is relative to, in a section whose own stream has this
description. -/
def site (l : Shared) (setting : Setting) (own : String) : Site where
  toSetting := setting
  route := l.route
  describe := l.describe own

/-- Where the frame of a lane stands, for streams that stand at an offset. -/
def place (l : Shared) (offset : Nat) : Lane → Nat
  | .own => 0
  | .values i => offset + (Part.bytesOf l.side.parts).length +
      (Part.bytesOf ((l.values.map (·.2)).take i)).length +
        (l.values[i]?.map (·.2.preface.length)).getD 0
  | .inlining => offset
  | .typeTags => offset + (Part.bytesOf (Section.optional l.side.inlining)).length
  | .packedIndices => offset + (Part.bytesOf (Section.optional l.side.inlining ++
      Section.optional l.side.typeTags)).length

/-- The value streams with their tags, for streams that stand at an offset. -/
def streams (l : Shared) (format : WireFormat) (offset : Nat) : Array (String × Reader) :=
  (valueReaders format (offset + (Part.bytesOf l.side.parts).length) l.values).toArray

/-- The state at the start of a section, for streams that stand at an offset. -/
def state (l : Shared) (format : WireFormat) (offset : Nat) (own : Reader) :
    State (l.streams format offset).size :=
  .opening own (Assemble.readersOf (l.streams format offset)) (l.side.readers format offset)

theorem lane?_state (l : Shared) (format : WireFormat) (offset : Nat) (own : Reader) {lane : Lane}
    (hlane : lane ≠ .own) : (l.state format offset own).lane? lane =
      (l.section? lane).map (·.frame.reader format (l.place offset lane)) := by
  cases lane with
  | own => exact absurd rfl hlane
  | inlining | typeTags | packedIndices => rfl
  | values i =>
      have hmap : (l.state format offset own).lane? (.values i) =
          ((valueReaders format (offset + (Part.bytesOf l.side.parts).length) l.values).map
            (·.2))[i]? := by
        rw [State.lane?, ← Vector.getElem?_toArray]
        simp [state, State.opening, Assemble.readersOf, streams]
      rw [hmap, map_snd_valueReaders, Part.getElem?_eachFrom, List.getElem?_map]
      cases h : l.values[i]? with
      | none => simp [section?, h]
      | some entry => simp [section?, h, place, Part.reader]

end Shared

/-! ### Layouts -/

/-- A container, cut into its parts. -/
structure Layout extends Shared where
  header : Header
  tags : Section
  objects : Section
  root : Section

namespace Layout

/-- The parts before the root. -/
def beforeRoot (l : Layout) : List Part :=
  [l.tags.part] ++ l.toShared.parts ++ [l.objects.part]

/-- The parts behind the header. -/
def parts (l : Layout) : List Part := l.beforeRoot ++ [l.root.part]

/-- The whole container. -/
def bytes (l : Layout) : Bytes :=
  l.header.bytes ++ Part.bytesOf l.parts

/-- The events of opening the parts before the root, for parts that stand at an
offset. -/
def openings (l : Layout) (format : WireFormat) (offset : Nat) : List Event :=
  Part.eachFrom (Part.opening format) offset l.beforeRoot

/-- The event of opening the root, for parts that stand at an offset. -/
def rootOpening (l : Layout) (format : WireFormat) (offset : Nat) : Event :=
  l.root.part.opening format (offset + (Part.bytesOf l.beforeRoot).length)

end Layout

/-- The two sections decode to the objects and the root of a module with these logs, and
the marks are what the logs take. -/
structure Layout.Decodes (schema : Schema) (l : Layout) (m : Module) (objectsLog rootLog : Log) :
    Prop where
  objects : EncodesTable (l.site (m.setting schema) l.objects.frame.description)
    m.objects objectsLog
  root : EncodesRoot (l.site (m.setting schema) l.root.frame.description) m.root rootLog
  objects_taken : l.objects.taken = objectsLog.taken .own
  root_taken : l.root.taken = rootLog.taken .own
  taken : ∀ lane, lane ≠ .own → l.taken lane = (objectsLog ++ rootLog).taken lane

/-- The parts, at an offset behind the header, are those of the module, and the events are
those of decoding them. -/
structure Layout.Describes (c : Configuration) (schema : Schema) (offset : Nat) (l : Layout)
    (m : Module) (events : List Event) : Prop where
  configuration : m.configuration = c
  header : m.header = l.header
  objectCount : m.objects.length = m.header.objectCount
  parts : ∀ part ∈ l.parts, part.Valid c.toWireFormat
  tags : Read.Spells c.toWireFormat Assemble.tagNames l.tags.taken m.tags
  side : l.side.Fits c
  valueCount : l.values.length = if c.valueStreamPerType then m.tags.length else 0
  valueTags : ∀ entry ∈ l.values, ∃ index,
    Read.Spells c.toWireFormat Read.index entry.2.preface (some index) ∧
      m.tags[index]? = some entry.1
  sections : ∃ objectsLog rootLog, l.Decodes schema m objectsLog rootLog ∧
    events = l.openings c.toWireFormat offset ++ objectsLog.told ++
      l.rootOpening c.toWireFormat offset :: rootLog.told
  streams : m.streams = Part.eachFrom Part.use offset l.parts

end BinaryAst.Decode

namespace BinaryAst

/-- The limits allow for the module. -/
structure Limits.Admits (limits : Limits) (m : Module) : Prop where
  objectCount : m.header.objectCount ≤ limits.maxObjects
  objects : ∀ object ∈ m.objects, object.Within limits.maxDepth limits.maxArrayLength
  root : m.root.Within limits.maxDepth limits.maxArrayLength
  streams : limits.strict = true → ∀ stream ∈ m.streams, stream.leftover = 0

end BinaryAst
