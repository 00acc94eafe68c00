import BinaryAst.Proofs.Decode.Narration
/-!
# BinaryAst.Proofs.Decode.Pieces

The pieces that logs are put together from.

There are a few kinds of them (`Site.Piece`): type tags, references with the inline object
they announce, bytes of scalars and of lengths, and the events of fields and slots. Values
are read from the section's own stream or from a value stream, never from a side stream
(`Lane.HoldsValues`). So whatever holds of each piece, and of logs that are joined, holds of
all logs of the grammar, and the recursion over the grammar is done here once.
-/

namespace BinaryAst

/-! ### What is told of tags and of inline objects -/

namespace Event

/-- The stream and the tag of a type tag. -/
def tag? : Event → Option (String × String)
  | .tag source name => some (source, name)
  | .stream _ _ _ | .field _ _ _ _ | .inline _ _ | .slot _ _ => none

/-- The shape of an inline object. -/
def inlineShape? : Event → Option String
  | .inline shape _ => some shape
  | .stream _ _ _ | .tag _ _ | .field _ _ _ _ | .slot _ _ => none

end Event

/-- The shape of an inline object that comes next. -/
def Visit.inlineShape? : Visit → Option String
  | .inline shape => some shape
  | .field _ _ | .slot _ _ => none

/-- The shape of an inline object can be read off an event (`Event.inlineShape?`) or off its visit.
-/
theorem Event.bind_visit?_inlineShape? (event : Event) :
    event.visit?.bind Visit.inlineShape? = event.inlineShape? := by
  cases event <;> rfl

/-- The inline objects that are told are those of the visit: `Event.inlineShape?` over the events is
`Visit.inlineShape?` over what they visit. -/
theorem inlineShapes_of_visits {events : List Event} {visits : List Visit}
    (h : events.filterMap Event.visit? = visits) :
    events.filterMap Event.inlineShape? = visits.filterMap Visit.inlineShape? := by
  rw [← h, List.filterMap_filterMap]
  simp only [Event.bind_visit?_inlineShape?]

mutual

/-- `visits` comes by the `inlineObjects` of a value, each before those inside it. -/
theorem Value.inlineShapes_visits : ∀ value : Value,
    value.visits.filterMap Visit.inlineShape? = value.inlineObjects.map Object.shape
  | .array items => inlineShapes_visitsOfItems items
  | .inline ⟨shape, fields⟩ => by
      rw [visits, inlineObjects, List.map_cons, ← inlineShapes_visitsOfFields shape fields]
      rfl
  | .null | .bool _ | .integer _ | .double _ | .string _ | .symbol _ | .internedSymbol _
  | .ref _ => rfl

theorem Value.inlineShapes_visitsOfItems : ∀ items : List Value,
    (visitsOfItems items).filterMap Visit.inlineShape? =
      (inlineObjectsOfItems items).map Object.shape
  | [] => rfl
  | item :: items => by
      rw [visitsOfItems, inlineObjectsOfItems, List.filterMap_append, List.map_append,
        inlineShapes_visits item, inlineShapes_visitsOfItems items]

theorem Value.inlineShapes_visitsOfFields : ∀ (shape : String) (fields : List (Field Value)),
    (visitsOfFields shape fields).filterMap Visit.inlineShape? =
      (inlineObjectsOfFields fields).map Object.shape
  | _, [] => rfl
  | shape, ⟨_, value⟩ :: fields => by
      rw [visitsOfFields, inlineObjectsOfFields, List.filterMap_cons_none rfl,
        List.filterMap_append, List.map_append, inlineShapes_visits value,
        inlineShapes_visitsOfFields shape fields]

end

/-- The inline objects of a module, at any depth, in the order of its visit. -/
def Module.inlineObjects (m : Module) : List ObjectValue :=
  m.objects.flatMap (Value.inlineObjectsOfFields ·.fields) ++ m.root.inlineObjects

theorem inlineShapes_visitsOfSlots (slot : Nat) (objects : List ObjectValue) :
    (visitsOfSlots slot objects).filterMap Visit.inlineShape? =
      (objects.flatMap (Value.inlineObjectsOfFields ·.fields)).map Object.shape := by
  induction objects generalizing slot with
  | nil => rfl
  | cons object objects ih =>
      rw [visitsOfSlots, List.filterMap_append, List.filterMap_cons_none rfl, ih,
        List.flatMap_cons, List.map_append, Object.visits, Value.inlineShapes_visitsOfFields]

/-- A visit of a module comes by its `inlineObjects`, object table first. -/
theorem Module.inlineShapes_visits (m : Module) :
    m.visits.filterMap Visit.inlineShape? = m.inlineObjects.map Object.shape := by
  rw [visits, inlineObjects, List.filterMap_append, List.map_append, inlineShapes_visitsOfSlots,
    Value.inlineShapes_visits]

namespace Decode

/-! ### Pieces -/

/-- The stream is one that values are read from. -/
def Lane.HoldsValues : Lane → Prop
  | .own | .values _ => True
  | .inlining | .typeTags | .packedIndices => False

theorem Lane.holdsValues_own : Lane.own.HoldsValues := trivial

namespace Routing

variable {routing : Routing} {lane active source : Lane} {tag shape : String} {pinned : Bool}

/-- A value stream `HoldsValues`. -/
theorem holdsValues_of_valueLane (h : routing.valueLane tag = some lane) : lane.HoldsValues := by
  obtain ⟨i, -, rfl⟩ := Option.map_eq_some_iff.mp h
  trivial

/-- `inlineLane` leads from a lane that `HoldsValues` to such a lane: the one of the reference or a
value stream. -/
theorem holdsValues_of_inlineLane (hsource : source.HoldsValues)
    (h : routing.inlineLane source shape = some active) : active.HoldsValues := by
  unfold inlineLane at h
  split at h
  · exact holdsValues_of_valueLane h
  · exact Option.some.inj h ▸ hsource

/-- `fieldLane` leads from a lane that `HoldsValues` to such a lane, so no side stream is ever
active. -/
theorem holdsValues_of_fieldLane (hactive : active.HoldsValues)
    (h : routing.fieldLane active pinned tag = some source) : source.HoldsValues := by
  unfold fieldLane at h
  split at h
  · exact Option.some.inj h ▸ hactive
  · split at h
    · exact holdsValues_of_valueLane h
    · exact Option.some.inj h ▸ hactive

/-- Type tags are not read from a stream that is neither `source` nor the stream of type tags. -/
theorem typeTagLane_ne (hsource : source ≠ lane) (h : .typeTags ≠ lane) :
    routing.typeTagLane source ≠ lane := by
  unfold typeTagLane
  split <;> assumption

/-- Flag bytes are not read from a stream that is neither `source` nor the stream of inlining flags.
-/
theorem inliningLane_ne (hsource : source ≠ lane) (h : .inlining ≠ lane) :
    routing.inliningLane source ≠ lane := by
  unfold inliningLane
  split <;> assumption

/-- Packed indices are not read from a stream that is neither `source` nor the stream of packed
indices. -/
theorem packedLane_ne (hsource : source ≠ lane) (h : .packedIndices ≠ lane) :
    routing.packedLane source ≠ lane := by
  unfold packedLane
  split <;> assumption

end Routing

/-- The shape of the inline object that a reference announces. -/
def Reference.inlineShape? : Reference → Option String
  | .inline shape => some shape
  | .null | .slot _ => none

namespace Site

variable {site : Site}

/-- What is told of the object that a reference stands for: an event if it is an inline one. -/
def announced (site : Site) (active : Lane) (reference : Reference) : Log :=
  reference.inlineShape?.toList.map fun shape => .tell (site.inlineEvent active shape)

@[simp] theorem announced_null (active : Lane) : site.announced active .null = [] := rfl

@[simp] theorem announced_slot (active : Lane) (slot : Nat) :
    site.announced active (.slot slot) = [] := rfl

@[simp] theorem announced_inline (active : Lane) (shape : String) :
    site.announced active (.inline shape) = [.tell (site.inlineEvent active shape)] := rfl

/-- The pieces that logs are put together from. -/
inductive Piece (site : Site) : Log → Prop
  | typeTag {source tag log} : source.HoldsValues → site.TypeTag source tag log → Piece site log
  /-- A reference, and the event of the object that is in its place. -/
  | reference {source viaAny reference log} (active : Lane) : source.HoldsValues →
      site.EncodesReference source viaAny reference log →
      (∀ slot, reference = .slot slot → slot < site.slots) →
      Piece site (log ++ site.announced active reference)
  /-- A scalar or a length. -/
  | bytes {source bytes} : source.HoldsValues → Piece site [.take source bytes]
  | field {shape name active source} :
      Piece site [.tell (site.fieldEvent shape name active source)]
  | slot {index shape} : Piece site [.tell (.slot index shape)]

/-- The log is put together from pieces. -/
inductive Pieces (site : Site) : Log → Prop
  | nil : Pieces site []
  | cons {piece log} : Piece site piece → Pieces site log → Pieces site (piece ++ log)

namespace Pieces

theorem single {piece : Log} (h : site.Piece piece) : site.Pieces piece := by
  simpa using cons h nil

theorem append {log more : Log} (h : site.Pieces log) (hmore : site.Pieces more) :
    site.Pieces (log ++ more) := by
  induction h with
  | nil => exact hmore
  | cons hpiece _ ih =>
      rw [List.append_assoc]
      exact .cons hpiece ih

/-- The induction over `Pieces`: what holds of every `Piece`, and of logs that are joined where it
holds of both, holds of logs that are put together from pieces. -/
theorem closed {P : Log → Prop} (hnil : P [])
    (happend : ∀ {log more : Log}, P log → P more → P (log ++ more))
    (hpiece : ∀ {piece : Log}, site.Piece piece → P piece) {log : Log} (h : site.Pieces log) :
    P log := by
  induction h with
  | nil => exact hnil
  | cons hfirst _ ih => exact happend (hpiece hfirst) ih

end Pieces

end Site

variable {site : Site}

/-! ### The logs of values

By recursion on the derivation, with one case for each rule. -/

mutual

/-- The log of a value is put together from `Pieces`. -/
theorem Encodes.pieces : ∀ {source : Lane} {tag : String} {value : Value} {log : Log},
    source.HoldsValues → Encodes site source tag value log → site.Pieces log
  | _, _, _, _, hsource, .any _ htag hvalue =>
      .cons (.typeTag hsource htag) (EncodesAs.pieces hsource hvalue)
  | _, _, _, _, hsource, .declared _ hvalue => EncodesAs.pieces hsource hvalue

theorem EncodesAs.pieces : ∀ {viaAny : Bool} {source : Lane} {tag : String} {value : Value}
    {log : Log}, source.HoldsValues → EncodesAs site viaAny source tag value log →
      site.Pieces log
  | _, _, _, _, _, hsource, .scalar _ => .single (.bytes hsource)
  | _, _, _, _, _, hsource, .emptyArray _ _ => .single (.bytes hsource)
  | _, _, _, _, _, hsource, .array _ _ _ htag hitems =>
      .cons (.bytes hsource) (.cons (.typeTag hsource htag) (EncodesItems.pieces hsource hitems))
  | _, source, _, _, _, hsource, .null _ hreference => by
      simpa using Site.Pieces.single (.reference source hsource hreference nofun)
  | _, source, _, _, _, hsource, .ref _ hreference hslot => by
      simpa using Site.Pieces.single (.reference source hsource hreference (by simp [hslot]))
  | _, _, _, _, _, hsource, .inline _ hreference _ hactive hfields => by
      rw [List.append_cons]
      exact .cons (.reference _ hsource hreference nofun)
        (EncodesFields.pieces (Routing.holdsValues_of_inlineLane hsource hactive) hfields)

theorem EncodesItems.pieces : ∀ {source : Lane} {tag : String} {items : List Value} {log : Log},
    source.HoldsValues → EncodesItems site source tag items log → site.Pieces log
  | _, _, _, _, _, .nil => .nil
  | _, _, _, _, hsource, .cons hitem hitems =>
      (Encodes.pieces hsource hitem).append (EncodesItems.pieces hsource hitems)

theorem EncodesFields.pieces : ∀ {active : Lane} {pinned : Bool} {shape : String}
    {decls : List FieldDecl} {fields : List (Field Value)} {log : Log}, active.HoldsValues →
    EncodesFields site active pinned shape decls fields log → site.Pieces log
  | _, _, _, _, _, _, _, .nil => .nil
  | _, _, _, _, _, _, hactive, .cons hsource hvalue hfields =>
      have hvalue := Encodes.pieces (Routing.holdsValues_of_fieldLane hactive hsource) hvalue
      .cons .field (hvalue.append (EncodesFields.pieces hactive hfields))

end

/-! ### Sections -/

/-- An object of the table is `Pieces`: its type tag, then those of its fields. -/
theorem EncodesObject.pieces {object : ObjectValue} {log : Log}
    (h : EncodesObject site object log) : site.Pieces log := by
  cases h with
  | intro htag _ hfields =>
      exact .cons (.typeTag Lane.holdsValues_own htag) (hfields.pieces Lane.holdsValues_own)

theorem EncodesSlots.pieces {slot : Nat} {objects : List ObjectValue} {log : Log}
    (h : EncodesSlots site slot objects log) : site.Pieces log := by
  induction h with
  | nil => exact .nil
  | cons hobject _ ih => exact hobject.pieces.append (.cons .slot ih)

/-- The object table is `Pieces`: the bytes of its count, then those of each object. -/
theorem EncodesTable.pieces {objects : List ObjectValue} {log : Log}
    (h : EncodesTable site objects log) : site.Pieces log := by
  cases h with
  | intro _ _ hslots => exact .cons (.bytes Lane.holdsValues_own) hslots.pieces

/-- The root is `Pieces`, since it is a value that brings its tag. -/
theorem EncodesRoot.pieces {value : Value} {log : Log} (h : EncodesRoot site value log) :
    site.Pieces log := by
  cases h with
  | intro hvalue => exact hvalue.pieces Lane.holdsValues_own

/-! ### What pieces take -/

/-- A `take` from one lane does not show in what is `taken` from another. -/
theorem Log.taken_take_of_ne {lane from_ : Lane} (h : from_ ≠ lane) (bytes : Bytes) :
    taken lane [.take from_ bytes] = [] := by
  rw [taken_take, if_neg h]

namespace Lane.HoldsValues

variable {source : Lane}

theorem ne_inlining (h : source.HoldsValues) : source ≠ .inlining := by
  rintro rfl
  exact h

theorem ne_typeTags (h : source.HoldsValues) : source ≠ .typeTags := by
  rintro rfl
  exact h

theorem ne_packedIndices (h : source.HoldsValues) : source ≠ .packedIndices := by
  rintro rfl
  exact h

end Lane.HoldsValues

namespace Site

variable {source active lane : Lane} {viaAny : Bool} {tag : String} {reference : Reference}
  {log : Log}

/-- A type tag takes bytes from `typeTagLane` alone. -/
theorem TypeTag.taken_eq_nil (h : site.TypeTag source tag log)
    (hlane : site.typeTagLane source ≠ lane) : log.taken lane = [] := by
  cases h with
  | intro => exact Log.taken_take_of_ne hlane _

/-- `PlainReference` takes bytes from its source alone. -/
theorem PlainReference.taken_eq_nil (h : site.PlainReference source reference log)
    (hlane : source ≠ lane) : log.taken lane = [] := by
  cases h with
  | intro => exact Log.taken_take_of_ne hlane _

/-- `PlainReference` announces no inline object. -/
theorem PlainReference.inlineShape?_eq_none (h : site.PlainReference source reference log) :
    reference.inlineShape? = none := by
  cases h with
  | @intro index => cases index <;> rfl

/-- The three ways in which a reference is encoded, by `referenceEncoding`. A plain one may stand
under any of them, below `any`. -/
theorem EncodesReference.cases (h : site.EncodesReference source viaAny reference log) :
    site.PlainReference source reference log ∨
      site.configuration.referenceEncoding = .flagged ∧
        site.FlaggedReference source reference log ∨
      (∃ dedicated, site.configuration.referenceEncoding = .packed dedicated) ∧
        site.PackedReference source reference log := by
  unfold EncodesReference at h
  split at h
  case isTrue => exact .inl h
  case isFalse =>
    split at h
    case h_1 => exact .inl h
    case h_2 hencoding => exact .inr (.inl ⟨hencoding, h⟩)
    case h_3 dedicated hencoding => exact .inr (.inr ⟨⟨dedicated, hencoding⟩, h⟩)

/-- What is `announced` of a reference is its inline object, if it is one. -/
theorem inlineShapes_announced (site : Site) (active : Lane) (reference : Reference) :
    (site.announced active reference).told.filterMap Event.inlineShape? =
      reference.inlineShape?.toList := by
  cases reference <;> rfl

theorem tags_announced (site : Site) (active : Lane) (reference : Reference) :
    (site.announced active reference).told.filterMap Event.tag? = [] := by
  cases reference <;> rfl

/-- What is `announced` for a reference takes no bytes from any lane. -/
theorem taken_announced (site : Site) (active lane : Lane) (reference : Reference) :
    (site.announced active reference).taken lane = [] := by
  cases reference <;> rfl

end Site

end Decode

end BinaryAst
