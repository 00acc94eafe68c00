import BinaryAst.Proofs.Container.Marks
import BinaryAst.Proofs.Container.Steps
import BinaryAst.Wire.Sections
import Mathlib
/-!
# BinaryAst.Proofs.Container.Assembly

Exactly the containers that have a layout are accepted.

`Module.decode_eq_ok_iff` is the result: decoding gives a module and events when the
bytes start with a layout that describes both, and the limits allow for the module. It
goes both ways, so a statement about all accepted containers becomes one about
layouts, and a container is accepted once a layout is given for it.
-/

namespace BinaryAst.Decode

variable {format : WireFormat}

/-! ### Summaries of the streams -/

/-- The streams that both sections share, in container order. -/
def State.sharedStreams {n : Nat} (s : State n) : List Reader :=
  s.side.inlining.toList ++ s.side.typeTags.toList ++ s.side.packedIndices.toList ++
    s.values.toList

/-- A stream that may be absent is summed up (`StreamUse.ofReader`) as the part that it is. -/
theorem uses_optional {s : Option Section} {r : Option Reader} {taken : Bytes} {offset : Nat}
    (hr : r = s.map fun s => (s.frame.reader format offset).skip taken.length)
    (htaken : ∀ sec, s = some sec → taken <+: sec.frame.payload) :
    r.toList.map StreamUse.ofReader =
      Part.eachFrom Part.use offset (Section.optional (s.map ({ · with taken := taken }))) := by
  subst hr
  cases s with
  | none => rfl
  | some s =>
      have := Part.ofReader_done format
        (p := Section.part { s with taken := taken }) (htaken s rfl) offset
      exact congrArg (· :: []) this

/-- The `sharedStreams` are summed up as the parts that they are, marked (`mark`) with what was
taken from them. -/
theorem uses_shared {l : Shared} {offset : Nat} {start : Reader} {log : Log}
    {s : State (l.streams format offset).size}
    (hs : ∀ lane, lane ≠ .own → s.lane? lane =
      ((l.state format offset start).lane? lane).map (·.skip (log.taken lane).length))
    (htaken : ∀ lane, lane ≠ .own → log.taken lane <+: l.payload lane) :
    s.sharedStreams.map StreamUse.ofReader = Part.eachFrom Part.use offset (l.mark log).parts := by
  have hlane : ∀ lane, lane ≠ .own → s.lane? lane = (l.section? lane).map fun sec =>
      (sec.frame.reader format (l.place offset lane)).skip (log.taken lane).length := by
    intro lane hne
    rw [hs lane hne, l.lane?_state format offset start hne, Option.map_map]
    rfl
  have hpayload : ∀ lane sec, lane ≠ .own → l.section? lane = some sec →
      log.taken lane <+: sec.frame.payload := by
    intro lane sec hne hsec
    simpa [Shared.payload, hsec] using htaken lane hne
  have hbytes : Part.bytesOf (l.mark log).side.parts = Part.bytesOf l.side.parts := by
    obtain ⟨⟨_ | _, _ | _, _ | _⟩, _⟩ := l <;> rfl
  -- Value streams one by one: the place of each is behind those before it, whose bytes a mark
  -- leaves.
  have hvalues : s.values.toList.map StreamUse.ofReader = Part.eachFrom Part.use
      (offset + (Part.bytesOf l.side.parts).length) ((l.mark log).values.map (·.2)) := by
    refine List.ext_getElem? fun i => ?_
    have hi : s.values.toList[i]? = s.lane? (.values i) := by simp [State.lane?]
    have htake : Part.bytesOf (((l.mark log).values.map (·.2)).take i) =
        Part.bytesOf ((l.values.map (·.2)).take i) := by
      refine Part.bytesOf_congr ?_
      rw [List.map_take, List.map_take, List.map_map, List.map_map]
      exact congrArg _ (l.map_values_revise fun _ _ => rfl)
    rw [List.getElem?_map, hi, hlane _ (by simp), Part.getElem?_eachFrom, htake, List.getElem?_map]
    simp only [Shared.section?, Shared.mark, Shared.revise, List.getElem?_mapIdx, Option.map_map]
    cases hentry : l.values[i]? with
    | none => rfl
    | some entry =>
        have hp := hpayload (.values i) entry.2.toSection (by simp)
          (by simp [Shared.section?, hentry])
        have := Part.ofReader_done format
          (p := { entry.2 with taken := log.taken (.values i) }) hp
          (offset + (Part.bytesOf l.side.parts).length +
            (Part.bytesOf ((l.values.map (·.2)).take i)).length)
        simpa [Shared.place, hentry, Part.done, Part.reader] using this
  have hinlining : s.side.inlining.toList.map StreamUse.ofReader = Part.eachFrom Part.use offset
      (Section.optional (l.mark log).side.inlining) :=
    uses_optional (hlane .inlining (by simp)) fun sec hsec => hpayload _ sec (by simp) hsec
  have htypeTags : s.side.typeTags.toList.map StreamUse.ofReader = Part.eachFrom Part.use
      (l.place offset .typeTags) (Section.optional (l.mark log).side.typeTags) :=
    uses_optional (hlane .typeTags (by simp)) fun sec hsec => hpayload _ sec (by simp) hsec
  have hpacked : s.side.packedIndices.toList.map StreamUse.ofReader = Part.eachFrom Part.use
      (l.place offset .packedIndices) (Section.optional (l.mark log).side.packedIndices) :=
    uses_optional (hlane .packedIndices (by simp)) fun sec hsec => hpayload _ sec (by simp) hsec
  -- A side stream starts behind the side streams before it, marked or not.
  have htypeTagsAt : l.place offset .typeTags = (l.mark log).place offset .typeTags := by
    obtain ⟨⟨_ | _, _, _⟩, _⟩ := l <;> rfl
  have hpackedAt : l.place offset .packedIndices = (l.mark log).place offset .packedIndices := by
    obtain ⟨⟨_ | _, _ | _, _⟩, _⟩ := l <;> rfl
  simp only [State.sharedStreams, List.map_append, hinlining, htypeTags, hpacked, hvalues,
    htypeTagsAt, hpackedAt, ← hbytes]
  simp only [Shared.parts, SideSections.parts, Part.eachFrom_append, Shared.place]

/-! ### Both sections -/

namespace Assemble

/-- What stays fixed while the sections are decoded, of what was read in front of them. -/
def contextOf (c : Configuration) (schema : Schema) (limits : Limits) (header : Header)
    (tags : List String) (values : Array (String × Reader)) : Context values.size :=
  { configuration := c, limits, schema, tags := tags.toArray, routes := routesOf values,
    objectCount := header.objectCount }

/-- The module, unless a stream of it was not read to its end and that is an error. -/
def finish (limits : Limits) (m : Module) : Assemble Module := do
  if limits.strict then
    checkLeftovers m.streams
  pure m

/-- The object table, the root, and the module of both. -/
def sections (c : Configuration) (schema : Schema) (limits : Limits) (header : Header)
    (tags : List String × Reader) (side : SideStreams) (values : Array (String × Reader)) :
    Assemble Module := do
  let objectsReader ← nextStream
  let objects ← readSection (objectTable (contextOf c schema limits header tags.1 values))
    objectsReader (readersOf values) side
  let rootReader ← nextStream
  let root ← readSection (root (contextOf c schema limits header tags.1 values))
    rootReader objects.2.values objects.2.side
  finish limits ⟨c, header, tags.1, objects.1, root.1,
    (allStreams tags.2 objects.2.own root.2).map StreamUse.ofReader⟩

/-- All that is behind the header. -/
def body (c : Configuration) (schema : Schema) (limits : Limits) (header : Header) :
    Assemble Module := do
  let tags ← tagTable
  let shared ← sharedStreams c tags.1
  if limits.maxObjects < header.objectCount then
    throw (.tooManyObjects header.objectCount limits.maxObjects)
  else
    sections c schema limits header tags shared.1 shared.2

/-- `moduleOf` cut behind the header. -/
theorem moduleOf_eq (c : Configuration) (schema : Schema) (limits : Limits) :
    moduleOf c schema limits = read Header.read >>= body c schema limits := by
  have hsections : ∀ header tags side values, sections c schema limits header tags side values =
      (do
        let objectsReader ← nextStream
        let objects ← decodeSection (objectTable (contextOf c schema limits header tags.1 values))
          objectsReader (readersOf values) side
        let rootReader ← nextStream
        let root ← decodeSection (root (contextOf c schema limits header tags.1 values))
          rootReader objects.2.values objects.2.side
        finish limits ⟨c, header, tags.1, objects.1, root.1,
          (allStreams tags.2 objects.2.own root.2).map StreamUse.ofReader⟩) := by
    intro header tags side values
    simp only [sections, readSection, bind_map_left]
    rfl
  unfold moduleOf body sharedStreams
  simp only [hsections, bind_assoc, pure_bind]
  rfl

end Assemble

open Assemble

/-- `checkLeftovers` accepts exactly the streams that were read to their end, and takes no bytes. -/
theorem parses_checkLeftovers (streams : List StreamUse) :
    Parses format (checkLeftovers streams) fun _ _ bytes told =>
      (∀ stream ∈ streams, stream.leftover = 0) ∧ bytes = [] ∧ told = [] := by
  unfold checkLeftovers
  cases h : streams.find? (0 < ·.leftover) with
  | none =>
      have hall : ∀ stream ∈ streams, stream.leftover = 0 := fun stream hstream => by
        simpa using List.find?_eq_none.mp h stream hstream
      refine (Parses.pure ()).congr fun offset v bytes told => ?_
      exact and_congr_left fun _ => ⟨fun _ => hall, fun _ => rfl⟩
  | some found =>
      have hleft : 0 < found.leftover := by simpa using List.find?_some h
      refine (Parses.throw _).congr fun offset v bytes told => ?_
      refine ⟨False.elim, fun hall => ?_⟩
      have := hall.1 found (List.mem_of_find?_eq_some h)
      omega

/-- `finish` accepts a module whose streams were read to their end, if that is asked for. -/
theorem parses_finish (limits : Limits) (m : Module) : Parses format (finish limits m)
    fun _ v bytes told => m = v ∧
      (limits.strict = true → ∀ stream ∈ m.streams, stream.leftover = 0) ∧ bytes = [] ∧
        told = [] := by
  unfold finish
  cases hstrict : limits.strict with
  | false => exact (Parses.pure m).congr fun offset v bytes told => by simp
  | true =>
      refine ((parses_checkLeftovers m.streams).bind fun _ => Parses.pure m).congr
        fun offset v bytes told => ?_
      constructor
      · intro h
        rcases h with ⟨_, _, _, _, _, ⟨hall, rfl, rfl⟩, ⟨rfl, rfl, rfl⟩, rfl, rfl⟩
        exact ⟨rfl, fun _ => hall, rfl, rfl⟩
      · intro h
        rcases h with ⟨rfl, hall, rfl, rfl⟩
        exact ⟨(), [], [], [], [], ⟨hall rfl, rfl, rfl⟩, ⟨rfl, rfl, rfl⟩, rfl, rfl⟩

/-- What the sections are encoded relative to, before the objects are known. -/
def settingOf (c : Configuration) (schema : Schema) (header : Header) (tags : List String) :
    Setting :=
  ⟨c, schema, tags, header.objectCount⟩

/-- The site of a `contextOf` is the one that the layout has: what the decoders go by is what the
grammar goes by. -/
theorem site_contextOf (c : Configuration) (schema : Schema) (limits : Limits) (header : Header)
    (tags : List String) (l : Shared) (offset : Nat) (own : String) :
    (contextOf c schema limits header tags (l.streams format offset)).site (l.describe own) =
      l.site (settingOf c schema header tags) own := by
  have hroute : (fun tag => ((routesOf (l.streams format offset)).lookup tag).map Fin.val) =
      l.route := funext l.lookup_streams
  simp only [Context.site, contextOf, Shared.site, settingOf, hroute]

/-- The frames and the logs of both sections, for frames that stand at an offset beside
streams that stand at another. -/
structure SectionParts (c : Configuration) (schema : Schema) (limits : Limits) (header : Header)
    (tags : List String × Reader) (l : Shared) (side : Nat) (offset : Nat) (m : Module)
    (bytes : Bytes) (told : List Event) (objects root : Section) (log more : Log) : Prop where
  objectsFrame : objects.frame.Valid c.toWireFormat
  rootFrame : root.frame.Valid c.toWireFormat
  bytes_eq : bytes = objects.part.bytes ++ root.part.bytes
  told_eq : told = objects.part.opening c.toWireFormat offset :: (log.told ++
    root.part.opening c.toWireFormat (offset + objects.part.bytes.length) :: more.told)
  objects_eq : EncodesTable (l.site (settingOf c schema header tags.1) objects.frame.description)
    m.objects log
  root_eq : EncodesRoot (l.site (settingOf c schema header tags.1) root.frame.description)
    m.root more
  objects_taken : objects.taken = log.taken .own
  root_taken : root.taken = more.taken .own
  own : log.taken .own <+: objects.frame.payload
  next : more.taken .own <+: root.frame.payload
  shared : ∀ lane, lane ≠ .own → (log ++ more).taken lane <+: l.payload lane
  objects_within : ∀ object ∈ m.objects, object.Within limits.maxDepth limits.maxArrayLength
  root_within : m.root.Within limits.maxDepth limits.maxArrayLength
  streams : limits.strict = true → ∀ stream ∈ m.streams, stream.leftover = 0
  configuration : m.configuration = c
  header_eq : m.header = header
  tags_eq : m.tags = tags.1
  streams_eq : m.streams = StreamUse.ofReader tags.2 ::
    (Part.eachFrom Part.use side (l.mark (log ++ more)).parts ++
      [objects.part.use offset, root.part.use (offset + objects.part.bytes.length)])

/-- `quiet`, which forgets the events of a section, changes no stream. -/
theorem lane?_quiet {n : Nat} (s : State n) (lane : Lane) : s.quiet.lane? lane = s.lane? lane := by
  cases lane <;> rfl

/-- The root, behind an object table that leaves the shared streams in some state. -/
theorem parses_rootSection {c : Configuration} (schema : Schema) (limits : Limits)
    (header : Header) (tags : List String × Reader) {l : Shared} (hl : l.side.Fits c) (side : Nat)
    (objects : List ObjectValue) {start : Reader} {log : Log}
    {s : State (l.streams c.toWireFormat side).size}
    (hs : s = ((l.state c.toWireFormat side start).after log).quiet) :
    Parses c.toWireFormat (do
      let rootReader ← nextStream
      let root ← readSection (root (contextOf c schema limits header tags.1
        (l.streams c.toWireFormat side))) rootReader s.values s.side
      finish limits ⟨c, header, tags.1, objects, root.1,
        (allStreams tags.2 s.own root.2).map StreamUse.ofReader⟩)
      fun offset m bytes told => ∃ (root : Section) (more : Log),
        root.frame.Valid c.toWireFormat ∧ bytes = root.part.bytes ∧
        told = root.part.opening c.toWireFormat offset :: more.told ∧
        EncodesRoot (l.site (settingOf c schema header tags.1) root.frame.description) m.root more ∧
        m.root.Within limits.maxDepth limits.maxArrayLength ∧
        (State.opening (root.part.reader c.toWireFormat offset) s.values s.side).Covers more ∧
        (limits.strict = true → ∀ stream ∈ m.streams, stream.leftover = 0) ∧
        m = ⟨c, header, tags.1, objects, m.root, (allStreams tags.2 s.own
          ((State.opening (root.part.reader c.toWireFormat offset) s.values s.side).after
            more).quiet).map StreamUse.ofReader⟩ := by
  refine (parses_part.bind_of (q := fun r _ m bytes told => ∃ more : Log,
    EncodesRoot (l.site (settingOf c schema header tags.1) r.description) m.root more ∧
    m.root.Within limits.maxDepth limits.maxArrayLength ∧
    (State.opening r s.values s.side).Covers more ∧
    (limits.strict = true → ∀ stream ∈ m.streams, stream.leftover = 0) ∧
    m = ⟨c, header, tags.1, objects, m.root, (allStreams tags.2 s.own
      ((State.opening r s.values s.side).after more).quiet).map StreamUse.ofReader⟩ ∧
    bytes = [] ∧ told = more.told) fun r offset bytes told h => ?_).congr
      fun offset m bytes told => ?_
  · obtain ⟨sec, -, -, rfl, -⟩ := h
    -- the shared streams are where the object table left them
    have hfits : (State.opening (sec.part.reader c.toWireFormat offset) s.values s.side).Fits
        (l.site (settingOf c schema header tags.1) sec.frame.description) := by
      have hshared : ∀ lane, lane ≠ .own → ∃ count,
          (State.opening (sec.part.reader c.toWireFormat offset) s.values s.side).lane? lane =
            ((l.state c.toWireFormat side start).lane? lane).map (·.skip count) :=
        fun lane hlane => ⟨(log.taken lane).length, by
          rw [State.lane?_opening hlane, hs, lane?_quiet, State.lane?_after]⟩
      exact Shared.fits_of (settingOf c schema header tags.1) hl start rfl rfl hshared
    have hroot := recognises_root (contextOf c schema limits header tags.1
      (l.streams c.toWireFormat side)) (l.describe sec.frame.description)
    rw [site_contextOf] at hroot
    refine ((parses_readSection hroot hfits).bind fun v => parses_finish limits _).congr
      fun offset m bytes told => ?_
    constructor
    · intro h
      rcases h with ⟨⟨v, after⟩, _, _, _, _, ⟨more, ⟨hencodes, hwithin⟩, hcovers, rfl, rfl, rfl⟩,
        ⟨rfl, hstrict, rfl, rfl⟩, rfl, rfl⟩
      exact ⟨more, hencodes, hwithin, hcovers, hstrict, rfl, rfl, List.append_nil _⟩
    · intro h
      rcases h with ⟨more, hencodes, hwithin, hcovers, hstrict, hm, rfl, rfl⟩
      refine ⟨(m.root, _), [], _, [], [], ⟨more, ⟨hencodes, hwithin⟩, hcovers, rfl, rfl, rfl⟩,
        ⟨hm.symm, ?_, rfl, rfl⟩, rfl, (List.append_nil _).symm⟩
      rw [hm] at hstrict
      exact hstrict
  · constructor
    · intro h
      rcases h with ⟨_, _, _, _, _, ⟨sec, hf, rfl, rfl, rfl⟩, ⟨more, hencodes, hwithin, hcovers,
        hstrict, hm, rfl, rfl⟩, rfl, rfl⟩
      exact ⟨sec, more, hf, List.append_nil _, rfl, hencodes, hwithin, hcovers, hstrict, hm⟩
    · intro h
      rcases h with ⟨sec, more, hf, rfl, rfl, hencodes, hwithin, hcovers, hstrict, hm⟩
      exact ⟨_, _, _, [], _, ⟨sec, hf, rfl, rfl, rfl⟩, ⟨more, hencodes, hwithin, hcovers, hstrict,
        hm, rfl, rfl⟩, (List.append_nil _).symm, rfl⟩

/-- The streams of a module, once both sections are decoded. -/
theorem uses_allStreams (c : Configuration) {l : Shared} {side offset : Nat} (tags : Reader)
    (objects root : Section) {log more : Log}
    (hobjects : objects.taken = log.taken .own) (hroot : root.taken = more.taken .own)
    (hown : log.taken .own <+: objects.frame.payload)
    (hnext : more.taken .own <+: root.frame.payload)
    (hshared : ∀ lane, lane ≠ .own → (log ++ more).taken lane <+: l.payload lane)
    {s t : State (l.streams c.toWireFormat side).size}
    (hs : s = ((l.state c.toWireFormat side
      (objects.part.reader c.toWireFormat offset)).after log).quiet)
    (ht : t = ((State.opening (root.part.reader c.toWireFormat
      (offset + objects.part.bytes.length)) s.values s.side).after more).quiet) :
    (allStreams tags s.own t).map StreamUse.ofReader = StreamUse.ofReader tags ::
      (Part.eachFrom Part.use side (l.mark (log ++ more)).parts ++
        [objects.part.use offset, root.part.use (offset + objects.part.bytes.length)]) := by
  -- The root goes on in the shared streams where the objects left off, so the skips add up.
  have hlane : ∀ lane, lane ≠ .own → t.lane? lane =
      ((l.state c.toWireFormat side (objects.part.reader c.toWireFormat offset)).lane? lane).map
        (·.skip ((log ++ more).taken lane).length) := by
    intro lane hne
    rw [ht, lane?_quiet, State.lane?_after, State.lane?_opening hne, hs, lane?_quiet,
      State.lane?_after, Option.map_map, Log.taken_append, List.length_append]
    congr 1
    funext r
    exact Reader.skip_skip r _ _
  have hfirst : StreamUse.ofReader s.own = objects.part.use offset := by
    have htaken : objects.part.taken <+: objects.part.frame.payload := hobjects ▸ hown
    rw [hs, ← Part.ofReader_done c.toWireFormat htaken, Part.done]
    exact congrArg (fun taken => StreamUse.ofReader (Reader.skip _ taken.length)) hobjects.symm
  have hsecond : StreamUse.ofReader t.own =
      root.part.use (offset + objects.part.bytes.length) := by
    have htaken : root.part.taken <+: root.part.frame.payload := hroot ▸ hnext
    rw [ht, ← Part.ofReader_done c.toWireFormat htaken, Part.done]
    exact congrArg (fun taken => StreamUse.ofReader (Reader.skip _ taken.length)) hroot.symm
  have hall : allStreams tags s.own t = tags :: (t.sharedStreams ++ [s.own, t.own]) := by
    simp [allStreams, State.sharedStreams]
  rw [hall, List.map_cons, List.map_append, uses_shared hlane hshared, List.map_cons,
    List.map_singleton, hfirst, hsecond]

/-- `sections` accepts exactly the bytes that can be cut into `SectionParts`. -/
theorem parses_sections {c : Configuration} (schema : Schema) (limits : Limits) (header : Header)
    (tags : List String × Reader) {l : Shared} (hl : l.side.Fits c) (side : Nat) :
    Parses c.toWireFormat (sections c schema limits header tags
      (l.side.readers c.toWireFormat side) (l.streams c.toWireFormat side))
      fun offset m bytes told => ∃ objects root log more,
        SectionParts c schema limits header tags l side offset m bytes told objects root log
          more := by
  apply Parses.congr
  · apply parses_part.bind_of
    intro r offset bytes told h
    have hr : r.format = c.toWireFormat := by
      obtain ⟨sec, -, -, rfl, -⟩ := h
      rfl
    have hshared : ∀ lane, lane ≠ .own → ∃ count, (l.state c.toWireFormat side r).lane? lane =
        ((l.state c.toWireFormat side r).lane? lane).map (·.skip count) :=
      fun lane _ => ⟨0, by simp⟩
    have hfits : (l.state c.toWireFormat side r).Fits
        (l.site (settingOf c schema header tags.1) r.description) :=
      Shared.fits_of (settingOf c schema header tags.1) hl _ hr rfl hshared
    have hobjects := recognises_objectTable (contextOf c schema limits header tags.1
      (l.streams c.toWireFormat side)) (l.describe r.description)
    rw [site_contextOf] at hobjects
    apply (parses_readSection hobjects hfits).bind_of
    intro v _ _ _ hv
    obtain ⟨log, -, -, hs, -⟩ := hv
    exact parses_rootSection schema limits header tags hl side v.1 hs
  · intro offset m bytes told
    obtain ⟨mConfiguration, mHeader, mTags, mObjects, mRoot, mStreams⟩ := m
    constructor
    · intro h
      rcases h with ⟨_, _, _, _, _, ⟨objects, hobjects, rfl, rfl, rfl⟩, ⟨⟨_, _⟩, _, _, _, _,
        ⟨log, ⟨htable, hin⟩, hcovers, rfl, rfl, rfl⟩, ⟨root, more, hroot, rfl, rfl, hvalue, hwithin,
          hnext, hstrict, hm⟩, rfl, rfl⟩, rfl, rfl⟩
      simp only [Module.mk.injEq] at hm
      obtain ⟨rfl, rfl, rfl, rfl, -, rfl⟩ := hm
      obtain ⟨hown, hnext, hshared⟩ := State.covers_both_iff.mp ⟨hcovers, hnext⟩
      have hshared : ∀ lane, lane ≠ .own → (log ++ more).taken lane <+: l.payload lane :=
        fun lane hlane => l.ahead_state _ hlane ▸ hshared lane hlane
      -- the sections are marked with what the logs take
      exact ⟨{ objects with taken := log.taken .own }, { root with taken := more.taken .own }, log,
        more, hobjects, hroot, rfl, rfl, htable, hvalue, rfl, rfl, hown, hnext, hshared, hin,
          hwithin, hstrict, rfl, rfl, rfl,
            uses_allStreams _ tags.2 { objects with taken := log.taken .own }
              { root with taken := more.taken .own } rfl rfl hown hnext hshared rfl rfl⟩
    · intro h
      rcases h with ⟨objects, root, log, more, h⟩
      obtain ⟨_, _⟩ := tags
      obtain rfl := h.configuration
      obtain rfl := h.header_eq
      obtain rfl := h.tags_eq
      obtain rfl := h.bytes_eq
      obtain rfl := h.told_eq
      have hcovers : (l.state mConfiguration.toWireFormat side
          (objects.part.reader mConfiguration.toWireFormat offset)).Covers log ∧
          (State.opening (root.part.reader mConfiguration.toWireFormat
            (offset + objects.part.bytes.length)) _ _).Covers more :=
        State.covers_both_iff.mpr ⟨h.own, h.next, fun lane hlane =>
          (l.ahead_state _ hlane).symm ▸ h.shared lane hlane⟩
      have hstreams := h.streams_eq.trans (uses_allStreams mConfiguration _ objects root
        h.objects_taken h.root_taken h.own
        h.next h.shared rfl rfl).symm
      exact ⟨_, _, _, _, _, ⟨objects, h.objectsFrame, rfl, rfl, rfl⟩, ⟨(mObjects, _), [], _, _, _,
        ⟨log, ⟨h.objects_eq, h.objects_within⟩, hcovers.1, rfl, rfl, rfl⟩, ⟨root, more, h.rootFrame,
          rfl, rfl, h.root_eq, h.root_within, hcovers.2, h.streams,
            congrArg (Module.mk _ _ _ _ _) hstreams⟩, rfl, rfl⟩, rfl, rfl⟩

/-- A layout, behind a header, of a module that the limits allow for. -/
structure BodyParts (c : Configuration) (schema : Schema) (limits : Limits) (header : Header)
    (offset : Nat) (m : Module) (bytes : Bytes) (told : List Event) (l : Layout) : Prop where
  header_eq : l.header = header
  bytes_eq : bytes = Part.bytesOf l.parts
  describes : l.Describes c schema offset m told
  admits : limits.Admits m

/-- The `setting` of a module is the one that its container was decoded in, once its object table
has as many objects as the header says. -/
theorem setting_eq {c : Configuration} (schema : Schema) {header : Header} {tags : List String}
    {m : Module} (hc : m.configuration = c) (hheader : m.header = header) (htags : m.tags = tags)
    (hcount : m.objects.length = m.header.objectCount) :
    m.setting schema = settingOf c schema header tags := by
  rw [Module.setting, settingOf, hc, htags, hcount, hheader]

/-- The parts of a container that was read make a layout (`BodyParts`), once they are marked with
what was taken from them. -/
theorem bodyParts_of_sections {c : Configuration} {schema : Schema} {limits : Limits}
    {header : Header} {offset : Nat} {m : Module} {bytes : Bytes} {told : List Event}
    {tags : List String × Reader} {sec : Section} {l : Shared} {objects root : Section}
    {log more : Log} (hsec : sec.part.Valid c.toWireFormat)
    (htags : Read.Spells c.toWireFormat tagNames sec.taken tags.1)
    (hdone : tags.2 = sec.part.done c.toWireFormat offset) (hl : l.Stands c tags.1)
    (hcount : ¬limits.maxObjects < header.objectCount)
    (h : SectionParts c schema limits header tags l (offset + sec.part.bytes.length)
      (offset + sec.part.bytes.length + (Part.bytesOf l.parts).length) m bytes told objects root
        log more) :
    BodyParts c schema limits header offset m
      (sec.part.bytes ++ (Part.bytesOf l.parts ++ bytes))
      (sec.part.opening c.toWireFormat offset :: (Part.eachFrom (Part.opening c.toWireFormat)
        (offset + sec.part.bytes.length) l.parts ++ told))
      { l.mark (log ++ more) with header, tags := sec, objects, root } := by
  have hobjects : m.objects.length = m.header.objectCount := by
    cases h.objects_eq with
    | intro _ hlen _ =>
        rw [hlen, h.header_eq]
        rfl
  have hsetting := setting_eq schema h.configuration h.header_eq h.tags_eq hobjects
  have hbytes := Part.bytesOf_congr (l.unmark_parts_mark (log ++ more))
  have hopenings := Part.openings_congr (l.unmark_parts_mark (log ++ more)) c.toWireFormat
  -- the fields of `Layout.Describes` in their order, then those of `Limits.Admits`
  refine ⟨rfl, ?_, ⟨h.configuration, h.header_eq, hobjects, ?_, h.tags_eq ▸ htags, ?_, ?_, ?_,
    ⟨log, more, ⟨?_, ?_, h.objects_taken, h.root_taken, ?_⟩, ?_⟩, ?_⟩,
    ⟨?_, h.objects_within, h.root_within, h.streams⟩⟩
  · simp [Layout.parts, Layout.beforeRoot, h.bytes_eq, hbytes]
  · simp only [Layout.parts, Layout.beforeRoot, List.forall_mem_append, List.forall_mem_singleton]
    exact ⟨⟨⟨hsec, Shared.valid_of_mem_mark hl.sideFrames (fun e he => (hl.valueStreams e he).frame)
      h.shared⟩, ⟨h.objectsFrame, h.objects_taken ▸ h.own⟩⟩,
        ⟨h.rootFrame, h.root_taken ▸ h.next⟩⟩
  · refine ⟨?_, ?_, ?_⟩
    · simpa [Shared.mark, Shared.revise] using hl.side.inlining
    · simpa [Shared.mark, Shared.revise] using hl.side.typeTags
    · simpa [Shared.mark, Shared.revise] using hl.side.packedIndices
  · simpa [Shared.mark, Shared.revise, h.tags_eq] using hl.valueCount
  · intro entry hentry
    obtain ⟨i, hi, rfl⟩ := List.mem_mapIdx.mp hentry
    exact h.tags_eq ▸ (hl.valueStreams _ (List.getElem_mem hi)).index
  · rw [hsetting, Shared.site_mark]
    exact h.objects_eq
  · rw [hsetting, Shared.site_mark]
    exact h.root_eq
  · exact fun lane hlane => Shared.taken_mark_of_isPrefix (h.shared lane hlane)
  · simp [Layout.openings, Layout.rootOpening, Layout.beforeRoot, Part.eachFrom_append, hbytes,
      hopenings, h.told_eq, Nat.add_assoc]
  · simp [Layout.parts, Layout.beforeRoot, Part.eachFrom_append, hbytes, h.streams_eq, hdone,
      Part.ofReader_done c.toWireFormat hsec.taken, Nat.add_assoc]
  · rw [h.header_eq]
    omega

/-- The other way round: the parts of a layout that describes a module are `SectionParts`. -/
theorem sections_of_describes {c : Configuration} {schema : Schema} {limits : Limits}
    {offset : Nat} {m : Module} {told : List Event} {l : Layout}
    (h : l.Describes c schema offset m told) (hadmits : limits.Admits m) :
    ∃ log more later, SectionParts c schema limits l.header
      (m.tags, l.tags.part.done c.toWireFormat offset) l.toShared
      (offset + l.tags.part.bytes.length)
      (offset + l.tags.part.bytes.length + (Part.bytesOf l.toShared.parts).length) m
      (l.objects.part.bytes ++ l.root.part.bytes) later l.objects l.root log more ∧
      told = l.tags.part.opening c.toWireFormat offset ::
        (Part.eachFrom (Part.opening c.toWireFormat) (offset + l.tags.part.bytes.length)
          l.toShared.parts ++ later) := by
  obtain ⟨log, more, hdecodes, htold⟩ := h.sections
  have hsetting := setting_eq schema h.configuration h.header rfl h.objectCount
  have hparts := h.parts
  simp only [Layout.parts, Layout.beforeRoot, List.forall_mem_append,
    List.forall_mem_singleton] at hparts
  obtain ⟨⟨⟨htags, hshared⟩, hobjects⟩, hroot⟩ := hparts
  refine ⟨log, more, _, ⟨hobjects.frame, hroot.frame, rfl, rfl, hsetting ▸ hdecodes.objects,
    hsetting ▸ hdecodes.root, hdecodes.objects_taken, hdecodes.root_taken,
    hdecodes.objects_taken ▸ hobjects.taken, hdecodes.root_taken ▸ hroot.taken, ?_,
    hadmits.objects, hadmits.root, hadmits.streams, h.configuration, h.header, rfl, ?_⟩, ?_⟩
  · exact fun lane hlane => hdecodes.taken lane hlane ▸ Shared.taken_prefix_payload hshared lane
  · rw [Shared.mark_eq_self hdecodes.taken, h.streams]
    simp [Layout.parts, Layout.beforeRoot, Part.eachFrom_append,
      Part.ofReader_done c.toWireFormat htags.taken, Nat.add_assoc]
  · rw [htold]
    simp [Layout.openings, Layout.rootOpening, Layout.beforeRoot, Part.eachFrom_append,
      Nat.add_assoc]

/-- `body` accepts exactly the bytes that are a layout of the module, behind the header. -/
theorem parses_body (c : Configuration) (schema : Schema) (limits : Limits) (header : Header) :
    Parses c.toWireFormat (body c schema limits header) fun offset m bytes told =>
      ∃ l, BodyParts c schema limits header offset m bytes told l := by
  apply Parses.congr
  · apply parses_tagTable.bind
    intro tags
    apply (parses_sharedStreams c tags.1).bind_exists
    intro spot v _ _ _ h
    obtain ⟨-, hstands, -, rfl, -⟩ := h
    exact Parses.ite (fun _ => .throw _) fun _ =>
      parses_sections schema limits header tags hstands.side spot.2
  · intro offset m bytes told
    constructor
    · intro hgiven
      rcases hgiven with ⟨tags, _, _, _, _, ⟨sec, hsec, htags, rfl, hdone, rfl⟩, ⟨⟨l, _⟩, _, _, _,
        _, _, ⟨rfl, hstands, rfl, rfl, rfl⟩, hsections, rfl, rfl⟩, rfl, rfl⟩
      -- too many objects are turned away before the sections are opened
      split at hsections
      case isTrue => exact hsections.elim
      case isFalse hcount =>
        obtain ⟨objects, root, log, more, h⟩ := hsections
        exact ⟨_, bodyParts_of_sections hsec htags hdone hstands hcount h⟩
    · intro h
      rcases h with ⟨l, rfl, rfl, hdescribes, hadmits⟩
      obtain ⟨log, more, later, hsections, rfl⟩ := sections_of_describes hdescribes hadmits
      have hparts := hdescribes.parts
      simp only [Layout.parts, Layout.beforeRoot, List.forall_mem_append,
        List.forall_mem_singleton] at hparts
      obtain ⟨⟨⟨htags, hshared⟩, -⟩, -⟩ := hparts
      have hstands : l.toShared.Stands c m.tags :=
        ⟨hdescribes.side, fun part hpart => (hshared part (List.mem_append_left _ hpart)).frame,
          hdescribes.valueCount, fun entry hentry =>
            ⟨(hshared entry.2 (List.mem_append_right _ (List.mem_map_of_mem hentry))).frame,
              hdescribes.valueTags entry hentry⟩⟩
      refine ⟨(m.tags, l.tags.part.done c.toWireFormat offset), _, _, _, _, ⟨l.tags, htags,
        hdescribes.tags, rfl, rfl, rfl⟩, ⟨(l.toShared, _), _, _, _, l.objects.part.bytes ++
        l.root.part.bytes, _, ⟨rfl, hstands, rfl, rfl, rfl⟩, ?_, rfl, rfl⟩, ?_, rfl⟩
      · rw [if_neg]
        · exact ⟨l.objects, l.root, log, more, hsections⟩
        · have := hadmits.objectCount
          rw [hdescribes.header] at this
          omega
      · simp [Layout.parts, Layout.beforeRoot]

/-- `Header.read` succeeds exactly where the bytes of a header that `Fits` are ahead. -/
theorem Assemble.read_header_eq_ok_iff {s t : Assembly} {header : Header} :
    Assemble.read Header.read s = .ok header t ↔
      header.Fits ∧ header.bytes <+: s.container.unread ∧ t = s.after Header.size [] := by
  constructor
  · intro h
    unfold Assemble.read at h
    split at h
    case h_1 v container hread =>
      obtain ⟨hfits, hp, rfl⟩ := Read.header_eq_ok_iff.mp hread
      cases h
      exact ⟨hfits, hp, by simp [Assembly.after]⟩
    case h_2 => cases h
  · intro h
    rcases h with ⟨hfits, hp, rfl⟩
    unfold Assemble.read
    rw [Read.header_eq_ok_iff.mpr ⟨hfits, hp, rfl⟩]
    simp [Assembly.after]

/-- The assembly of a container that was not started on. -/
def Assembly.start (c : Configuration) (bytes : Bytes) : Assembly :=
  ⟨.ofBytes c.toWireFormat "module" bytes, #[]⟩

@[simp] theorem Assembly.unread_start (c : Configuration) (bytes : Bytes) :
    (Assembly.start c bytes).container.unread = bytes := rfl

/-- From the start, positions are numbers of bytes. -/
theorem Assembly.offset_after_start (c : Configuration) (bytes : Bytes) (count : Nat)
    (told : List Event) : ((Assembly.start c bytes).after count told).container.offset = count := by
  rw [container_after, Reader.offset_skip]
  exact Nat.zero_add count

end BinaryAst.Decode

namespace BinaryAst

open Decode

namespace Module

variable {bytes : Bytes} {c : Configuration} {schema : Schema} {limits : Limits} {m : Module}
  {events : List Event}

/-- `decode` accepts where `moduleOf` does, and gives the events that were told. -/
theorem decode_eq_ok_iff_moduleOf : decode bytes c schema limits = ⟨.ok m, events⟩ ↔
    ∃ t, Assemble.moduleOf c schema limits (.start c bytes) = .ok m t ∧
      t.events.toList = events := by
  simp only [decode, Assembly.start]
  cases Assemble.moduleOf c schema limits ⟨.ofBytes c.toWireFormat "module" bytes, #[]⟩ with
  | ok v t => simp [and_assoc]
  | error e t => simp

/-- `decode` fails where `moduleOf` does, with the same error and the events told by then. -/
theorem decode_of_error {e : DecodeError} {t : Assembly}
    (h : Assemble.moduleOf c schema limits (.start c bytes) = .error e t) :
    decode bytes c schema limits = ⟨.error e, t.events.toList⟩ := by
  rw [Assembly.start] at h
  simp only [decode, h]

/-- `decode` accepts a container exactly when it starts with a layout that `Describes` the module
and the events, and the limits allow for the module (`Admits`). -/
theorem decode_eq_ok_iff : decode bytes c schema limits = ⟨.ok m, events⟩ ↔
    ∃ l : Layout, l.header.Fits ∧ l.Describes c schema Header.size m events ∧
      l.bytes <+: bytes ∧ limits.Admits m := by
  rw [decode_eq_ok_iff_moduleOf, Assemble.moduleOf_eq]
  constructor
  · intro h
    rcases h with ⟨t, ht, rfl⟩
    obtain ⟨header, s, hheader, hbody⟩ := bind_eq_ok_iff.mp ht
    obtain ⟨hfits, hp, rfl⟩ := Assemble.read_header_eq_ok_iff.mp hheader
    obtain ⟨_, told, ⟨l, rfl, rfl, hdescribes, hadmits⟩, hbytes, rfl⟩ :=
      ((parses_body c schema limits header).ok_iff _ _ _ rfl).mp hbody
    refine ⟨l, hfits, ?_, ?_, hadmits⟩
    · rw [Assembly.offset_after_start] at hdescribes
      simpa [Assembly.after, Assembly.start] using hdescribes
    · rw [← Header.length_bytes] at hbytes
      exact Reader.append_isPrefix hp hbytes
  · intro h
    rcases h with ⟨l, hfits, hdescribes, ⟨rest, hrest⟩, hadmits⟩
    rw [Layout.bytes, List.append_assoc] at hrest
    refine ⟨_, bind_eq_ok_iff.mpr ⟨l.header, _,
      Assemble.read_header_eq_ok_iff.mpr ⟨hfits, ⟨_, hrest⟩, rfl⟩,
      ((parses_body c schema limits l.header).ok_iff _ m _ rfl).mpr
        ⟨_, events, ⟨l, rfl, rfl, ?_, hadmits⟩, ?_, rfl⟩⟩, ?_⟩
    · rwa [Assembly.offset_after_start]
    · rw [Assembly.container_after, Reader.unread_skip, Assembly.unread_start, ← hrest,
        ← Header.length_bytes l.header, List.drop_left]
      exact List.prefix_append _ rest
    · simp [Assembly.after, Assembly.start]

end Module

/-! ### The end of a container -/

/-- Where the last stream of a module ends, with the length behind it. -/
def Module.extent (m : Module) : Nat :=
  (m.streams.getLast?.map fun s => s.offset + s.length + 4).getD 0

/-- The `extent` of a module that a layout `Describes` is where the layout ends: the last stream is
the root. -/
theorem Decode.Layout.Describes.extent_eq {c : Configuration} {schema : Schema} {l : Layout}
    {m : Module} {events : List Event} (h : l.Describes c schema Header.size m events) :
    m.extent = l.bytes.length := by
  have hroot : l.root.part.Valid c.toWireFormat := h.parts _ (by simp [Layout.parts])
  have hafter := hroot.frame.length_after
  rw [Module.extent, h.streams, Layout.parts, Part.eachFrom_append]
  simp only [Part.eachFrom_cons, Part.eachFrom_nil, List.getLast?_concat, Option.map_some,
    Option.getD_some]
  simp only [Layout.bytes, Layout.parts, Part.bytesOf_append, Part.bytesOf_cons, Part.bytesOf_nil,
    List.append_nil, List.length_append, Header.length_bytes, Part.use, Part.bytes,
    Frame.length_bytes]
  rw [show l.root.part.frame.after.length = 4 from hafter]
  omega

/-! ### A container that loops -/

/-- Pairs of a number and a pair. -/
def loopSchema : Schema where
  shapes := [⟨"Pair", [⟨"head", .tag "integer"⟩, ⟨"tail", .tag "Pair"⟩]⟩]
  nodup := by decide
  shapeKey := "type"

/-- A pair that is its own tail. The header announces some number of tags, and a byte is
left over in the root. -/
def loopContainer (tagCount : Nat) (spare : UInt8) : Bytes :=
  Sections.toBytes
    { tags := ["Pair"]
      tagCount := some tagCount
      objectCount := 1
      objects := WriteStep.bytesAll {} [.uint32 1, .index (some 0), .int32 7, .index (some 0)]
      root := WriteStep.bytesAll {} [.index (some 0), .index (some 0), .byte spare] }

/-- The module of the container. -/
def loopModule (tagCount : Nat) : Module where
  configuration := {}
  header := ⟨tagCount, 1⟩
  tags := ["Pair"]
  objects := [⟨"Pair", [⟨"head", .integer 7⟩, ⟨"tail", .ref 0⟩]⟩]
  root := .ref 0
  streams := [⟨"tags", 28, 12, 12⟩, ⟨"objects", 59, 16, 16⟩, ⟨"root", 91, 9, 8⟩]

/-- What is told of the container. -/
def loopEvents : List Event :=
  [.stream "tags" 28 12, .stream "objects" 59 16, .tag "objects" "Pair",
    .field "Pair" "head" "objects" false, .field "Pair" "tail" "objects" false, .slot 0 "Pair",
    .stream "root" 91 9, .tag "root" "Pair"]

set_option maxRecDepth 20000 in
theorem decode_loopContainer :
    Module.decode (loopContainer 1 0) {} loopSchema {} = ⟨.ok (loopModule 1), loopEvents⟩ := by
  cbv

/-! ### A tree in a tree -/

/-- Trees with a label. -/
def treeSchema : Schema where
  shapes := [⟨"Tree", [⟨"label", .tag "string"⟩, ⟨"children", .tag "array"⟩]⟩]
  nodup := by decide
  shapeKey := "type"

/-- Objects in place of references, with streams for flags and type tags. -/
def treeConfiguration : Configuration := { conditionalInlining := true, typeTagStream := true }

/-- A tree in the object table, whose only child is an inline tree. -/
def treeContainer : Bytes :=
  Sections.toBytes
    { tags := ["Tree"]
      objectCount := 1
      inlining := some [1]
      typeTags := some (WriteStep.bytesAll {} (List.replicate 4 (.index (some 0))))
      objects := WriteStep.bytesAll {} [.uint32 1, .string (some "oak"), .varUInt32 1,
        .string (some "ash"), .varUInt32 0]
      root := WriteStep.bytesAll {} [.index (some 0)] }

/-- The module of the container. -/
def treeModule : Module where
  configuration := treeConfiguration
  header := ⟨1, 1⟩
  tags := ["Tree"]
  objects := [⟨"Tree", [⟨"label", .string "oak"⟩, ⟨"children", .array
    [.inline ⟨"Tree", [⟨"label", .string "ash"⟩, ⟨"children", .array []⟩]⟩]⟩]⟩]
  root := .ref 0
  streams := [⟨"tags", 28, 12, 12⟩, ⟨"inlining", 60, 1, 1⟩, ⟨"typeTags", 81, 16, 16⟩,
    ⟨"objects", 116, 26, 26⟩, ⟨"root", 158, 4, 4⟩]

/-- What is told of the container. -/
def treeEvents : List Event :=
  [.stream "tags" 28 12, .stream "inlining" 60 1, .stream "typeTags" 81 16,
    .stream "objects" 116 26, .tag "typeTags" "Tree", .field "Tree" "label" "objects" false,
    .field "Tree" "children" "objects" false, .tag "typeTags" "Tree", .tag "typeTags" "Tree",
    .inline "Tree" "objects", .field "Tree" "label" "objects" false,
    .field "Tree" "children" "objects" false, .slot 0 "Tree", .stream "root" 158 4,
    .tag "typeTags" "Tree"]

set_option maxRecDepth 20000 in
theorem decode_treeContainer : Module.decode treeContainer treeConfiguration treeSchema {} =
    ⟨.ok treeModule, treeEvents⟩ := by
  cbv

end BinaryAst
