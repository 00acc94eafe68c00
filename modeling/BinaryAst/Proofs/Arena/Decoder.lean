import BinaryAst.Proofs.Container.Slots
/-!
# BinaryAst.Proofs.Arena.Decoder

The decoder that keeps its streams in an arena.

A substream that is opened is put behind those that were opened before, and from then on it is
spoken of by its place, a `Handle`. Whoever reads gets a handle, looks up its reader and puts it
back (`Handling.readFrom`); the side streams and the streams of values are handles that are noted
when they are opened. The object table is looked up at every reference that needs it
(`Handling.tableEntry`), and how deeply objects and arrays nest is counted up and down
(`Handling.nested`).

So there is more that can go wrong than a container can be refused for (`Stop`): a handle may be
of no stream, and nothing in the shape of the decoder bounds its recursion, which is therefore
given a number of levels. `Module.decodeByHandle` has no answer where either happens.
-/

namespace BinaryAst.Decode

/-- A stream, by its place among those that were opened. -/
structure Handle where
  index : Nat
  deriving DecidableEq, Repr

/-- What changes while a container is decoded by handles. -/
structure Arena where
  /-- The container, from where it goes on. -/
  container : Reader
  /-- The streams that were opened, in container order. -/
  streams : List Reader
  /-- The tag table. -/
  tags : Array String
  inlining : Option Handle
  typeTags : Option Handle
  packedIndices : Option Handle
  /-- The value stream of each tag; another one of the same tag takes its place. -/
  values : Std.HashMap String Handle
  objects : SlotTable
  /-- How many objects and arrays are being read. -/
  depth : Nat
  events : Array Event

/-- Why a decoder by handles stops. -/
inductive Stop
  /-- The container is refused. -/
  | refused (e : DecodeError)
  /-- There is no stream of this handle. -/
  | stray (h : Handle)
  /-- The recursion went further in than it was given levels for. -/
  | spent
  deriving DecidableEq, Repr

/-- A step of decoding by handles. A step that stops hands its state on, too. -/
abbrev Handling := EStateM Stop Arena

/-- What a container is decoded by. -/
structure Terms where
  configuration : Configuration
  limits : Limits
  schema : Schema

namespace Handling

variable {α : Type}

/-- Refuses the container. -/
def refuse (e : DecodeError) : Handling α := throw (.refused e)

/-- What was checked, as a step. -/
def check : Except DecodeError α → Handling α
  | .ok value => pure value
  | .error e => refuse e

/-! ### Streams -/

/-- A read from the stream of a handle, whose reader is put back. -/
def readFrom (h : Handle) (read : Read α) : Handling α := fun a =>
  match a.streams[h.index]? with
  | none => .error (.stray h) a
  | some r =>
    match read r with
    | .ok value r => .ok value { a with streams := a.streams.set h.index r }
    | .error e r => .error (.refused e) { a with streams := a.streams.set h.index r }

/-- `readFrom` by a handle that is of a stream does to its reader what the read does. -/
theorem readFrom_eq {a : Arena} {h : Handle} {r : Reader} (hr : a.streams[h.index]? = some r)
    (read : Read α) : readFrom h read a = match read r with
      | .ok value r => .ok value { a with streams := a.streams.set h.index r }
      | .error e r => .error (.refused e) { a with streams := a.streams.set h.index r } := by
  rw [readFrom, hr]

/-- The description of the stream of a handle. -/
def description (h : Handle) : Handling String := do
  match (← get).streams[h.index]? with
  | none => throw (.stray h)
  | some r => pure r.description

theorem description_eq {a : Arena} {h : Handle} {r : Reader} (hr : a.streams[h.index]? = some r) :
    description h a = .ok r.description a := by
  rw [description, get_bind_eq, hr]
  rfl

/-- A read from the container itself. -/
def readContainer (read : Read α) : Handling α := fun a =>
  match read a.container with
  | .ok value container => .ok value { a with container }
  | .error e container => .error (.refused e) { a with container }

/-- Tells an event. -/
def tell (event : Event) : Handling Unit :=
  modify fun a => { a with events := a.events.push event }

/-- Opens the next substream of the container. -/
def openStream : Handling Handle := do
  let r ← readContainer Read.substream
  tell (.stream r.description r.base r.length)
  modify fun a => { a with streams := a.streams ++ [r] }
  return ⟨(← get).streams.length - 1⟩

/-- Opens the next substream, where the container has one here. -/
def openStreamIf (present : Bool) : Handling (Option Handle) :=
  if present then some <$> openStream else pure none

/-! ### Tags -/

/-- Fills the tag table from a stream. -/
def loadTags (h : Handle) : Handling Unit := do
  let tags ← readFrom h Assemble.tagNames
  modify fun a => { a with tags := tags.toArray }

/-- The tag at an index of the tag table. -/
def lookUpTag (index : Option Nat) : Handling String := do
  check (tagAt (← get).tags index)

/-- A type tag, from this very stream. -/
def typeTagFrom (h : Handle) : Handling String := do
  let tag ← lookUpTag (← readFrom h Read.index)
  tell (.tag (← description h) tag)
  pure tag

/-- In `typeTagFrom`, the stream may be described as soon as the index was read: `lookUpTag` neither
moves the streams nor makes one go away. -/
theorem typeTagFrom_eq (h : Handle) : typeTagFrom h = (do
    let (index, stream) ← readFrom h (do return (← Read.index, (← get).description))
    let tag ← lookUpTag index
    tell (.tag stream tag)
    pure tag) := by
  funext a
  cases hr : a.streams[h.index]? with
  | none =>
      have hstray {β : Type} (read : Read β) : readFrom h read a = .error (.stray h) a := by
        rw [readFrom, hr]
      rw [typeTagFrom, bind_of_error (hstray _), bind_of_error (hstray _)]
  | some r =>
      have hlt : h.index < a.streams.length := (List.getElem?_eq_some_iff.mp hr).1
      -- The pair is the index and the description of the reader behind it, in one read.
      have hpair : (do return (← Read.index, (← get).description) : Read (Option Nat × String)) r =
          match Read.index r with
          | .ok index r => .ok (index, r.description) r
          | .error e r => .error e r := by
        cases hindex : Read.index r with
        | ok index r' => exact bind_of_ok hindex
        | error e r' => exact bind_of_error hindex
      have hfirst := readFrom_eq hr Read.index
      have hboth := readFrom_eq hr (do return (← Read.index, (← get).description))
      rw [hpair] at hboth
      cases hindex : Read.index r with
      | error e r' =>
          rw [hindex] at hfirst hboth
          rw [typeTagFrom, bind_of_error hfirst, bind_of_error hboth]
      | ok index r' =>
          rw [hindex] at hfirst hboth
          rw [typeTagFrom, bind_of_ok hfirst, bind_of_ok hboth]
          change (check (tagAt a.tags index) >>= _) _ = (check (tagAt a.tags index) >>= _) _
          cases tagAt a.tags index with
          | error e => rfl
          | ok tag =>
              exact bind_of_ok (description_eq (List.getElem?_set_self hlt))

/-- A type tag, from the stream of type tags if there is one. -/
def typeTag (h : Handle) : Handling String := do
  typeTagFrom ((← get).typeTags.getD h)

/-! ### Object references -/

/-- A packed index, from the stream of packed indices if it is dedicated to them. -/
def packedIndex (h : Handle) (dedicated : Bool) : Handling (Option Nat) := do
  if dedicated then readFrom ((← get).packedIndices.getD h) Read.index
  else readFrom h Read.index

/-- A reference with its flag in the low bit of an index. -/
def packedReference (h : Handle) (dedicated : Bool) : Handling Reference := do
  match ← packedIndex h dedicated with
  | none => pure .null
  | some packed =>
    if packed % 2 = 1 then .inline <$> lookUpTag (some (packed / 2))
    else pure (.slot (packed / 2))

/-- A flag byte, from the stream of inlining flags if there is one. -/
def inliningFlag (h : Handle) : Handling UInt8 := do
  readFrom ((← get).inlining.getD h) Read.byte

/-- A reference with a flag byte before it. -/
def flaggedReference (h : Handle) : Handling Reference := do
  let flag ← inliningFlag h
  if flag = nullMarker then pure .null
  else if flag = 0 then Reference.ofIndex <$> readFrom h Read.index
  else .inline <$> typeTag h

/-- A reference where objects may be inline. -/
def reference (terms : Terms) (h : Handle) : Handling Reference :=
  match terms.configuration.referenceEncoding with
  | .packed dedicated => packedReference h dedicated
  | .flagged | .plain => flaggedReference h

/-- What an index into an object table of so many slots stands for. -/
def entryWithin (slots : Nat) : (index : Option Nat) → Handling Value
  | none => pure .null
  | some index =>
    if index < slots then pure (.ref index) else refuse (.invalidObjectIndex index slots)

/-- What an index into the object table stands for. The table is looked up first. -/
def tableEntry (index : Option Nat) : Handling Value := do
  entryWithin (← check (← get).objects.slots) index

/-! ### Values -/

/-- One level further in, if anything may nest there. -/
def nested (terms : Terms) (body : Handling α) : Handling α := fun a =>
  if terms.limits.maxDepth ≤ a.depth then
    .error (.refused (.depthExceeded terms.limits.maxDepth)) a
  else
    match body { a with depth := a.depth + 1 } with
    | .ok value a => .ok value { a with depth := a.depth - 1 }
    | .error stop a => .error stop { a with depth := a.depth - 1 }

section

variable {terms : Terms} {body : Handling α} {a b : Arena}

theorem nested_of_limit (h : terms.limits.maxDepth ≤ a.depth) :
    nested terms body a = .error (.refused (.depthExceeded terms.limits.maxDepth)) a :=
  if_pos h

theorem nested_of_ok {value : α} (h : a.depth < terms.limits.maxDepth)
    (hbody : body { a with depth := a.depth + 1 } = .ok value b) :
    nested terms body a = .ok value { b with depth := b.depth - 1 } := by
  rw [nested, if_neg (Nat.not_le.mpr h), hbody]

theorem nested_of_error {stop : Stop} (h : a.depth < terms.limits.maxDepth)
    (hbody : body { a with depth := a.depth + 1 } = .error stop b) :
    nested terms body a = .error stop { b with depth := b.depth - 1 } := by
  rw [nested, if_neg (Nat.not_le.mpr h), hbody]

end

section

variable (terms : Terms) (decode : Handle → String → Handling Value)

/-- An array: a length, then one tag for all items when there are any. -/
def array (h : Handle) : Handling Value := do
  let count ← readFrom h Read.varUInt32
  if terms.limits.maxArrayLength < count then
    refuse (.arrayTooLarge count terms.limits.maxArrayLength)
  else if count = 0 then
    pure (.array [])
  else
    let tag ← typeTag h
    nested terms (Value.array <$> collect count fun _ => decode h tag)

/-- The stream that was found for the values of a tag, if one was. -/
def streamFound (tag : String) : Option Handle → Handling Handle
  | some h => pure h
  | none => refuse (.missingValueStream tag)

/-- The stream of the values of a tag. -/
def valueStream (tag : String) : Handling Handle := do
  streamFound tag (← get).values[tag]?

/-- The stream of a field's value. -/
def fieldStream (active : Handle) (pinned : Bool) (tag : String) : Handling Handle :=
  if pinned && !(terms.configuration.noOverridingPrimitiveStream && Tag.isPrimitive tag) then
    pure active
  else if terms.configuration.valueStreamPerType then valueStream tag
  else pure active

/-- The value of a field. -/
def fieldValue (active : Handle) (pinned : Bool) (shape : Shape) (field : FieldDecl) :
    Handling Value := do
  let tag := terms.schema.fieldTag field
  let source ← fieldStream terms active pinned tag
  tell (.field shape.name field.name (← description source) (source != active))
  decode source tag

/-- A step whose refusal is put down to a field. -/
def inField (shape field : String) (step : Handling α) : Handling α := fun a =>
  match step a with
  | .ok value a => .ok value a
  | .error (.refused e) a => .error (.refused (.field shape field e)) a
  | .error stop a => .error stop a

/-- The fields of an object, in declared order. -/
def fields (active : Handle) (pinned : Bool) (shape : Shape) : Handling ObjectValue := do
  let fields ← shape.fields.mapM fun field =>
    inField shape.name field.name do
      return ⟨field.name, ← fieldValue terms decode active pinned shape field⟩
  pure ⟨shape.name, fields⟩

/-- The shape of a tag. -/
def lookUpShape (tag : String) : Handling Shape :=
  match terms.schema.shape? tag with
  | some shape => pure shape
  | none => refuse (.unknownShape tag)

/-- An object: an inline one, whose shape is known, or one with its type tag before it. -/
def objectContents (h : Handle) (inlineTag : Option String) : Handling ObjectValue := do
  let tag ← inlineTag.elim (typeTag h) pure
  let shape ← lookUpShape terms tag
  if inlineTag.isSome then
    let pinned := terms.configuration.separatesInlineObjects
    let active ← if pinned then valueStream tag else pure h
    tell (.inline tag (← description active))
    nested terms (fields terms decode active pinned shape)
  else
    nested terms (fields terms decode h false shape)

/-- A value of an object tag. -/
def objectReference (h : Handle) (tag : String) (viaAny : Bool) : Handling Value := do
  if tag ≠ Tag.object ∧ !terms.schema.contains tag then
    refuse (.unknownShape tag)
  else if terms.configuration.conditionalInlining && !viaAny then
    match ← reference terms h with
    | .null => pure .null
    | .inline shape => Value.inline <$> objectContents terms decode h (some shape)
    | .slot index => tableEntry (some index)
  else
    tableEntry (← readFrom h Read.index)

/-- A symbol: an index where symbols are interned, else a text. -/
def symbolValue (h : Handle) : Handling Value :=
  if terms.configuration.internedSymbols then
    (·.elim .null .internedSymbol) <$> readFrom h Read.index
  else
    (·.elim .null .symbol) <$> readFrom h Read.string

/-- A value of a tag other than `any`. -/
def taggedValue (h : Handle) (tag : String) (viaAny : Bool) : Handling Value :=
  match Tag.kind tag with
  | .any => refuse .nestedAny
  | .symbol => symbolValue terms h
  | .string => (·.elim .null .string) <$> readFrom h Read.string
  | .boolean => (Value.bool <| · ≠ 0) <$> readFrom h Read.byte
  | .integer => .integer <$> readFrom h Read.int32
  | .double => .double <$> readFrom h Read.binary64
  | .array => array terms decode h
  | .object => objectReference terms decode h tag viaAny

/-- A value of any tag, given the decoder of the values in it. -/
def valueWithin (h : Handle) (tag : String) : Handling Value := do
  if Tag.kind tag = .any then
    taggedValue terms decode h (← typeTag h) true
  else
    taggedValue terms decode h tag false

end

/-- A value, by a recursion of so many levels. -/
def value (terms : Terms) : (levels : Nat) → Handle → String → Handling Value
  | 0 => fun _ _ => throw .spent
  | levels + 1 => valueWithin terms (value terms levels)

/-! ### The container -/

section

variable (terms : Terms) (decode : Handle → String → Handling Value)

/-- Opens the tag table and fills it. -/
def openTags : Handling Unit := do
  loadTags (← openStream)

/-- Opens the side streams that serve one kind of read. -/
def openSideStreams : Handling Unit := do
  let inlining ← openStreamIf terms.configuration.separatesInliningFlags
  modify fun a => { a with inlining }
  let typeTags ← openStreamIf terms.configuration.typeTagStream
  modify fun a => { a with typeTags }
  let packedIndices ← openStreamIf terms.configuration.separatesPackedIndices
  modify fun a => { a with packedIndices }

/-- Opens a value stream behind the index of its tag, and registers it for the tag. -/
def openValueStream : Handling Unit := do
  let tag ← lookUpTag (← readContainer Read.index)
  let h ← openStream
  modify fun a => { a with values := a.values.insert tag h }

/-- Opens so many value streams. -/
def openEachValueStream : (left : Nat) → Handling Unit
  | 0 => pure ()
  | left + 1 => do
    openValueStream
    openEachValueStream left

/-- Opens the value streams, as many as there are tags, where values are kept by tag. -/
def openValueStreams : Handling Unit := do
  if terms.configuration.valueStreamPerType then
    openEachValueStream (← get).tags.size

/-- Opens the streams that both sections share. -/
def openSharedStreams : Handling Unit := do
  openSideStreams terms
  openValueStreams terms

/-- Allocates the object table. -/
def allocate (count : Nat) : Handling Unit := do
  let objects ← check ((← get).objects.allocate count terms.limits.maxObjects)
  modify fun a => { a with objects }

/-- The object of a slot, which is told when it is there. -/
def slotObject (h : Handle) (slot : Nat) : Handling ObjectValue := do
  let object ← objectContents terms decode h none
  tell (.slot slot object.shape)
  pure object

/-- Decodes so many objects, and puts each into its slot. -/
def fillEachSlot (h : Handle) : (left slot : Nat) → Handling Unit
  | 0, _ => pure ()
  | left + 1, slot => do
    let object ← slotObject terms decode h slot
    modify fun a => { a with objects := a.objects.fill slot object }
    fillEachSlot h left (slot + 1)

/-- The object table, into its slots: it has to have as many objects as there are. -/
def objectTable (h : Handle) : Handling Unit := do
  let count ← readFrom h Read.uint32
  let slots ← check (← get).objects.slots
  if count = slots then fillEachSlot terms decode h slots 0
  else refuse (.objectCountMismatch count slots)

/-- The root: a value that brings its own tag and is not null. -/
def root (h : Handle) : Handling Value := do
  let root ← decode h Tag.any
  if root.isNull then refuse .nullRoot else pure root

/-- Refuses the first stream that was not read to its end. -/
def checkLeftovers (streams : List StreamUse) : Handling Unit :=
  match streams.find? (0 < ·.leftover) with
  | some stream => refuse (.trailingBytes stream.description stream.leftover)
  | none => pure ()

/-- The module, once every slot of the object table is full. -/
def finish (header : Header) (root : Value) : Handling Module := do
  let a ← get
  let streams := a.streams.map StreamUse.ofReader
  if terms.limits.strict then
    checkLeftovers streams
  let objects ← check a.objects.objects
  pure { configuration := terms.configuration, header, tags := a.tags.toList, objects, root,
         streams }

/-- The module of a container. -/
def container : Handling Module := do
  let header ← readContainer Header.read
  openTags
  openSharedStreams terms
  allocate terms header.objectCount
  objectTable terms decode (← openStream)
  let root ← root decode (← openStream)
  finish terms header root

end

end Handling

/-- The arena that a container is opened in. -/
def Arena.empty (container : Reader) : Arena where
  container
  streams := []
  tags := #[]
  inlining := none
  typeTags := none
  packedIndices := none
  values := ∅
  objects := none
  depth := 0
  events := #[]

end BinaryAst.Decode

namespace BinaryAst

open Decode

/-- Decodes the bytes of a container by handles. There is no answer if a handle is of no stream,
or if values nest further than a level beyond the deepest that is allowed. -/
def Module.decodeByHandle (bytes : Bytes) (configuration : Configuration) (schema : Schema)
    (limits : Limits) : Option Decoding :=
  let terms : Terms := { configuration, limits, schema }
  let decode := Handling.value terms (limits.maxDepth + 1)
  let container := Reader.ofBytes configuration.toWireFormat "module" bytes
  match Handling.container terms decode (.empty container) with
  | .ok m a => some ⟨.ok m, a.events.toList⟩
  | .error (.refused e) a => some ⟨.error e, a.events.toList⟩
  | .error _ _ => none

end BinaryAst
