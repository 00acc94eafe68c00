import BinaryAst.Proofs.Container.Opening
import BinaryAst.Proofs.Container.Streams
import BinaryAst.Proofs.Container.Trace
/-!
# BinaryAst.Proofs.Container.Framing

What the frames of a container settle.

Once the header, the tag table and the frames behind it are in order (`Layout.Framed`), no
payload can change which streams are opened, and where. In front of the sections the run is
determined (`Layout.Framed.opening_eq`). A section is decoded from the streams that are open by
then and opens none itself, so whether it succeeds or fails, the streams that have been opened
stay the same (`Ledger.opened`).

So decoding opens the streams of the layout, all of them or the first few; and where it fails,
it is for what is in a payload, or for a limit (`Layout.Framed.decode_opens`).
-/

namespace BinaryAst

namespace DecodeError

/-- An error of the frames: the container has no magic, a name of a tag is null, or a frame has
another length behind its payload than in front of it. -/
def OfFraming : DecodeError → Prop
  | badMagic _ | nullTagName _ | framingMismatch _ _ _ => True
  | _ => False

/-- What decoding can end with where the frames are in order (`Layout.Framed`) and the streams have
these names: an error of a section, or one of the two that only a limit brings about. -/
inductive EndsFramed (names : List String) : DecodeError → Prop
  | inSection {e : DecodeError} (h : e.EndsSectionIn names) : EndsFramed names e
  | tooManyObjects (count max : Nat) : EndsFramed names (.tooManyObjects count max)
  | trailingBytes {name : String} (h : name ∈ names) (leftover : Nat) :
      EndsFramed names (.trailingBytes name leftover)

/-- No error of `OfValue` is one of `OfFraming`, so what a payload is refused for never looks like a
broken frame. -/
theorem OfValue.not_ofFraming {e : DecodeError} (h : e.OfValue) : ¬e.OfFraming := by
  cases e <;> first | exact id | cases h

theorem OfSection.not_ofFraming {e : DecodeError} (h : e.OfSection) : ¬e.OfFraming := by
  cases e <;> first | exact id | cases h

theorem OfSection.stream?_eq_none {e : DecodeError} (h : e.OfSection) : e.stream? = none := by
  cases e <;> first | rfl | cases h

variable {names : List String} {e : DecodeError}

/-- The cause of an error in `EndsFramed` is never an `OfFraming` error, whatever fields it is
wrapped in. -/
theorem EndsFramed.not_ofFraming (h : e.EndsFramed names) : ¬e.cause.OfFraming := by
  cases h with
  | inSection h =>
      rcases h with hvalue | hsection
      · exact hvalue.endsValue.not_ofFraming
      · rw [hsection.ofContainer.cause_eq]
        exact hsection.not_ofFraming
  | tooManyObjects | trailingBytes => exact id

/-- The stream that the cause of an `EndsFramed` error names is among `names`. -/
theorem EndsFramed.mem_of_stream? (h : e.EndsFramed names) {name : String}
    (hname : e.cause.stream? = some name) : name ∈ names := by
  cases h with
  | inSection h =>
      rcases h with hvalue | hsection
      · exact hvalue.stream name hname
      · rw [hsection.ofContainer.cause_eq, hsection.stream?_eq_none] at hname
        cases hname
  | tooManyObjects => cases hname
  | trailingBytes h => exact Option.some.inj hname ▸ h

end DecodeError

/-- `Event.opened?` and `Event.stream?` agree on which events open a stream. -/
theorem Event.stream?_eq_none {event : Event} (h : event.opened? = none) :
    event.stream? = none := by
  cases event <;> first | rfl | cases h

/-- The ledger whose events open exactly the streams of `marks`. It can be kept because what is told
in a section opens none. -/
def Ledger.opened (names : List String) (marks : List (String × Nat × Nat)) : Ledger names where
  Holds events := events.filterMap Event.stream? = marks
  concat h hopened _ := by
    rw [List.filterMap_append, h]
    simp [Event.stream?_eq_none hopened]

namespace Decode

open Assemble

variable {format : WireFormat} {names : List String}

/-- The name, payload offset and length of each of some parts that stand at an offset, as
`Event.stream?` gives them. -/
def Part.marks (offset : Nat) (parts : List Part) : List (String × Nat × Nat) :=
  (eachFrom use offset parts).map fun s => (s.description, s.offset, s.length)

/-- The events of `Part.opening` are those of the `Part.marks`. -/
theorem Part.streams_openings (offset : Nat) (parts : List Part) :
    (eachFrom (opening format) offset parts).filterMap Event.stream? = marks offset parts := by
  rw [openings_eq, Decode.streams_openings, marks]

/-- Telling the openings of some parts adds their `Part.marks` to the streams that have been opened.
-/
theorem opened_after (format : WireFormat) {s : Assembly} {marks : List (String × Nat × Nat)}
    (count offset : Nat) (parts : List Part)
    (hs : s.events.toList.filterMap Event.stream? = marks) :
    (s.after count (Part.eachFrom (Part.opening format) offset parts)).events.toList.filterMap
      Event.stream? = marks ++ Part.marks offset parts := by
  rw [Assembly.after, Array.toList_append, List.filterMap_append, hs, Part.streams_openings]

theorem Part.marks_append (offset : Nat) (parts more : List Part) :
    marks offset (parts ++ more) =
      marks offset parts ++ marks (offset + (bytesOf parts).length) more := by
  rw [marks, eachFrom_append, List.map_append, marks, marks]

/-! ### In front of the sections -/

namespace Layout

variable {c : Configuration} {tags : List String} {l : Layout} {bytes : Bytes}

/-- The header and all frames of the layout are in order, and the payload of the first stream is
that of a table of `tags`. Nothing is asked of any other payload. -/
structure Framed (c : Configuration) (tags : List String) (l : Layout) : Prop where
  header : l.header.Fits
  tagTable : l.tags.part.Valid c.toWireFormat
  names : Read.Spells c.toWireFormat tagNames l.tags.taken tags
  shared : l.toShared.Stands c tags
  objects : l.objects.frame.Valid c.toWireFormat
  root : l.root.frame.Valid c.toWireFormat

/-- The parts in front of the sections. -/
def front (l : Layout) : List Part := [l.tags.part] ++ l.toShared.parts

theorem parts_eq_front (l : Layout) : l.parts = l.front ++ ([l.objects.part] ++ [l.root.part]) := by
  simp [parts, beforeRoot, front]

/-- What `Assemble.opening` reads in front of the sections: the header, the tags, and the readers of
the side streams and value streams, each at the place that the layout has for it. -/
def opening (c : Configuration) (tags : List String) (l : Layout) : Opening where
  header := l.header
  tags := (tags, l.tags.part.done c.toWireFormat Header.size)
  side := l.side.readers c.toWireFormat (Header.size + l.tags.part.bytes.length)
  values := l.streams c.toWireFormat (Header.size + l.tags.part.bytes.length)

/-- The container read up to the sections, with the opening of each part of `Layout.front` told. -/
def entered (c : Configuration) (bytes : Bytes) (l : Layout) : Assembly :=
  (Assembly.start c bytes).after (Header.size + (Part.bytesOf l.front).length)
    (Part.eachFrom (Part.opening c.toWireFormat) Header.size l.front)

/-- What `start` has `unread` is the bytes, and some bytes on it is the rest of them. -/
theorem unread_after_start (front : Bytes) {back : Bytes} {count : Nat} (told : List Event)
    (hbytes : bytes = front ++ back) (hcount : count = front.length) :
    ((Assembly.start c bytes).after count told).container.unread = back := by
  rw [Assembly.container_after, Reader.unread_skip, Assembly.unread_start, hbytes, hcount,
    List.drop_left]

/-- In `Layout.entered`, the two sections are ahead: the object table, then the root. -/
theorem unread_entered {rest : Bytes} (hrest : l.bytes ++ rest = bytes) :
    (l.entered c bytes).container.unread =
      l.objects.part.bytes ++ (l.root.part.bytes ++ rest) := by
  refine unread_after_start (l.header.bytes ++ Part.bytesOf l.front) _ ?_ ?_
  · rw [← hrest, Layout.bytes, parts_eq_front]
    simp
  · rw [List.length_append, l.header.length_bytes]

/-- In `Layout.entered`, the streams in front of the sections have been opened, and no others. -/
theorem streams_entered : (l.entered c bytes).events.toList.filterMap Event.stream? =
    Part.marks Header.size l.front :=
  opened_after _ _ _ l.front (s := .start c bytes) rfl

/-- On bytes that start with a `Framed` layout, `Assemble.opening` gives `Layout.opening` and ends
in `Layout.entered`, unless the header counts more objects than `limits.maxObjects`: then it fails
with `tooManyObjects`, in the very same state. Neither the payloads of the shared streams nor what
is behind them are looked at. -/
theorem Framed.opening_eq (h : l.Framed c tags) (hp : l.bytes <+: bytes) (limits : Limits) :
    Assemble.opening c limits (.start c bytes) =
      if limits.maxObjects < l.header.objectCount then
        .error (.tooManyObjects l.header.objectCount limits.maxObjects) (l.entered c bytes)
      else .ok (l.opening c tags) (l.entered c bytes) := by
  obtain ⟨rest, hrest⟩ := hp
  have hbytes : bytes = l.header.bytes ++ (l.tags.part.bytes ++ (Part.bytesOf l.toShared.parts ++
      (l.objects.part.bytes ++ (l.root.part.bytes ++ rest)))) := by
    rw [← hrest]
    simp [Layout.bytes, parts, beforeRoot]
  -- Header, tag table and shared streams: each one parses, since its bytes are next.
  have hheader : Assemble.read Header.read (.start c bytes) =
      .ok l.header ((Assembly.start c bytes).after Header.size []) :=
    Assemble.read_header_eq_ok_iff.mpr ⟨h.header, ⟨_, hbytes.symm⟩, rfl⟩
  have htags := (parses_tagTable.ok_iff ((Assembly.start c bytes).after Header.size [])
    (tags, l.tags.part.done c.toWireFormat Header.size) _ rfl).mpr
    ⟨l.tags.part.bytes, [l.tags.part.opening c.toWireFormat Header.size],
      by rw [Assembly.offset_after_start]; exact ⟨l.tags, h.tagTable, h.names, rfl, rfl, rfl⟩,
      by
        rw [unread_after_start _ [] hbytes l.header.length_bytes.symm]
        exact List.prefix_append _ _,
      rfl⟩
  rw [Assembly.after_after] at htags
  have hshared := ((parses_sharedStreams c tags).ok_iff
    ((Assembly.start c bytes).after (Header.size + l.tags.part.bytes.length)
      ([] ++ [l.tags.part.opening c.toWireFormat Header.size])) _ _ rfl).mpr
    ⟨Part.bytesOf l.toShared.parts, _,
      ⟨(l.toShared, Header.size + l.tags.part.bytes.length),
        (Assembly.offset_after_start ..).symm, h.shared, rfl, rfl, rfl⟩,
      by
        rw [unread_after_start _ _ ((List.append_assoc ..).symm ▸ hbytes)
          (by rw [List.length_append, l.header.length_bytes])]
        exact List.prefix_append _ _,
      rfl⟩
  have hentered : (Assembly.start c bytes).after
      (Header.size + l.tags.part.bytes.length + (Part.bytesOf l.toShared.parts).length)
      ([] ++ [l.tags.part.opening c.toWireFormat Header.size] ++
        Part.eachFrom (Part.opening c.toWireFormat) (Header.size + l.tags.part.bytes.length)
          l.toShared.parts) = l.entered c bytes := by
    simp [entered, front, Nat.add_assoc]
  rw [Assembly.after_after, hentered] at hshared
  rw [Assemble.opening, bind_of_ok hheader, bind_of_ok htags, bind_of_ok hshared]
  split <;> rfl

/-! ### The names of the streams -/

/-- The descriptions of the streams, in container order. -/
def descriptions (l : Layout) : List String := l.parts.map (·.frame.description)

/-- `Layout.descriptions`, stream by stream: the tag table, the side streams, the value streams, the
object table and the root. -/
theorem descriptions_eq (l : Layout) : l.descriptions = l.tags.frame.description ::
    (l.side.parts.map (·.frame.description) ++ (l.values.map (·.2.frame.description) ++
      [l.objects.frame.description, l.root.frame.description])) := by
  simp [descriptions, parts, beforeRoot, Shared.parts, Section.part]

theorem descriptions_readers (side : SideSections) (offset : Nat) :
    (side.readers format offset).descriptions = side.parts.map (·.frame.description) := by
  obtain ⟨_ | _, _ | _, _ | _⟩ := side <;> rfl

theorem descriptionsOf_valueReaders (offset : Nat) (entries : List (String × Part)) :
    descriptionsOf (valueReaders format offset entries) =
      entries.map (·.2.frame.description) := by
  induction entries generalizing offset with
  | nil => rfl
  | cons entry entries ih =>
      rw [valueReaders, List.map_cons, ← ih (offset + entry.2.bytes.length)]
      rfl

/-- The side streams of `Layout.opening` have names of the layout. -/
theorem side_opening_subset : (l.opening c tags).side.descriptions ⊆ l.descriptions := by
  intro name hname
  rw [opening, descriptions_readers] at hname
  simp [descriptions_eq, List.mem_map.mp hname]

/-- The value streams of `Layout.opening` have names of the layout. -/
theorem values_opening_subset :
    descriptionsOf (l.opening c tags).values.toList ⊆ l.descriptions := by
  intro name hname
  rw [opening, Shared.streams, descriptionsOf_valueReaders] at hname
  simp only [descriptions_eq, List.mem_cons, List.mem_append]
  exact .inr (.inr (.inl hname))

end Layout

/-! ### The sections -/

variable {s : Assembly}

/-- Where a section with a valid frame is ahead, `nextStream` gives the reader of its payload, tells
its opening and moves the container on behind it. -/
theorem nextStream_of_isPrefix {sec : Section} {rest : Bytes}
    (hf : sec.frame.Valid s.container.format) (h : s.container.unread = sec.part.bytes ++ rest) :
    nextStream s = .ok (sec.part.reader s.container.format s.container.offset)
      (s.after sec.part.bytes.length
        (Part.eachFrom (Part.opening s.container.format) s.container.offset [sec.part])) :=
  (parses_part.ok_iff s _ _ rfl).mpr ⟨_, _, ⟨sec, hf, rfl, rfl, rfl⟩, ⟨rest, h.symm⟩, rfl⟩

/-- `finish` leaves the state as it is. It gives the module it was given, or fails with an
`EndsFramed` error, since the stream that is left over is one of the streams of the module. -/
theorem meets_finish (limits : Limits) {m : Module}
    (hstreams : ∀ stream ∈ m.streams, stream.description ∈ names) (s : Assembly) :
    Meets (fun v t => v = m ∧ t = s) (fun e t => t = s ∧ e.EndsFramed names)
      (finish limits m s) := by
  unfold finish checkLeftovers
  split
  case isTrue =>
    split
    case h_1 stream hfound =>
      exact ⟨rfl, .trailingBytes (hstreams stream (List.mem_of_find?_eq_some hfound)) _⟩
    case h_2 => exact ⟨rfl, rfl⟩
  case isFalse => exact ⟨rfl, rfl⟩

/-- `allStreams` of a module are the tag table, the object table and those that the state of the
root section has (`lane?`). -/
theorem mem_allStreams {n : Nat} {tags objects r : Reader} {s : State n}
    (h : r ∈ allStreams tags objects s) :
    r = tags ∨ r = objects ∨ ∃ lane, s.lane? lane = some r := by
  simp only [allStreams, List.mem_append, List.mem_cons, List.not_mem_nil, or_false,
    Option.mem_toList, Vector.mem_toList_iff] at h
  rcases h with ((((rfl | h) | h) | h) | h) | rfl | rfl
  · exact .inl rfl
  · exact .inr (.inr ⟨.inlining, h⟩)
  · exact .inr (.inr ⟨.typeTags, h⟩)
  · exact .inr (.inr ⟨.packedIndices, h⟩)
  · obtain ⟨i, hi, rfl⟩ := Vector.getElem_of_mem h
    exact .inr (.inr ⟨.values i, by simp [State.lane?, hi]⟩)
  · exact .inr (.inl rfl)
  · exact .inr (.inr ⟨.own, rfl⟩)

namespace Layout

variable {c : Configuration} {tags : List String} {l : Layout} {bytes : Bytes}

/-- The names and places of the streams, in container order. -/
def marks (l : Layout) : List (String × Nat × Nat) := Part.marks Header.size l.parts

/-- How a container with the layout decodes. For a module all streams of `Layout.marks` are opened,
and header and tags are those of the layout; for an error the first few are, and the error is one of
`EndsFramed`: the frames are not to blame for it. -/
structure Opens (tags : List String) (l : Layout) (d : Decoding) : Prop where
  ok : ∀ m, d.result = .ok m →
    d.events.filterMap Event.stream? = l.marks ∧ m.header = l.header ∧ m.tags = tags
  error : ∀ e, d.result = .error e →
    d.events.filterMap Event.stream? <+: l.marks ∧ e.EndsFramed l.descriptions

theorem Opens.of_ok {m : Module} {events : List Event}
    (hevents : events.filterMap Event.stream? = l.marks) (hheader : m.header = l.header)
    (htags : m.tags = tags) : l.Opens tags ⟨.ok m, events⟩ := by
  refine ⟨fun other hm => ?_, fun e he => ?_⟩
  · exact Except.ok.inj hm ▸ ⟨hevents, hheader, htags⟩
  · cases he

theorem Opens.of_error {e : DecodeError} {events : List Event}
    (hevents : events.filterMap Event.stream? <+: l.marks) (he : e.EndsFramed l.descriptions) :
    l.Opens tags ⟨.error e, events⟩ := by
  refine ⟨fun m hm => ?_, fun other h => ?_⟩
  · cases hm
  · exact Except.error.inj h ▸ ⟨hevents, he⟩

/-- From `Layout.entered` on, `sections` opens the streams of the object table and of the root, and
what fails in them is told of a stream of the layout. -/
theorem Framed.meets_sections (h : l.Framed c tags) (hp : l.bytes <+: bytes) (schema : Schema)
    (limits : Limits) :
    Meets (fun m t => l.Opens tags ⟨.ok m, t.events.toList⟩)
      (fun e t => l.Opens tags ⟨.error e, t.events.toList⟩)
      (sections c schema limits l.header (l.opening c tags).tags (l.opening c tags).side
        (l.opening c tags).values (l.entered c bytes)) := by
  obtain ⟨rest, hrest⟩ := hp
  have hnames : l.tags.frame.description ∈ l.descriptions ∧
      l.objects.frame.description ∈ l.descriptions ∧
      l.root.frame.description ∈ l.descriptions := by
    simp [descriptions_eq]
  have hmarks : l.marks = Part.marks Header.size l.front ++
      Part.marks (l.entered c bytes).container.offset [l.objects.part] ++
        Part.marks ((l.entered c bytes).container.offset + l.objects.part.bytes.length)
          [l.root.part] := by
    rw [marks, parts_eq_front, Part.marks_append, Part.marks_append, ← List.append_assoc,
      entered, Assembly.offset_after_start]
    simp
  have hunread := unread_entered (c := c) hrest
  rw [sections, bind_of_ok (nextStream_of_isPrefix h.objects hunread)]
  -- no section opens a stream
  refine Meets.bind ((heeds_readSection (.opened l.descriptions _) (behaves_objectTable _)
    (description_mem_of_lane? side_opening_subset values_opening_subset hnames.2.1) _
    (opened_after _ _ _ [l.objects.part] streams_entered)).mono (fun _ _ h => h) fun e t h => ?_)
    fun table u htable hu => ?_
  · exact .of_error (h.1 ▸ hmarks ▸ List.prefix_append _ _) (.inSection h.2)
  have hcontainer : u.container =
      (l.entered c bytes).container.skip l.objects.part.bytes.length :=
    container_of_readSection htable
  have hroot : l.root.frame.Valid u.container.format := hcontainer ▸ h.root
  have hrest : u.container.unread = l.root.part.bytes ++ rest := by
    rw [hcontainer, Reader.unread_skip, hunread, List.drop_left]
  rw [bind_of_ok (nextStream_of_isPrefix hroot hrest)]
  have hopened := opened_after u.container.format l.root.part.bytes.length u.container.offset
    [l.root.part] hu.1
  rw [hcontainer, Reader.offset_skip, ← hmarks, ← Reader.offset_skip, ← hcontainer] at hopened
  refine Meets.bind ((heeds_readSection (.opened l.descriptions _) (behaves_root _)
    (description_mem_of_opening hu.2 hnames.2.2) _ hopened).mono (fun _ _ h => h) fun e t h => ?_)
    fun value v _ hv => ?_
  · exact .of_error (h.1 ▸ List.prefix_rfl) (.inSection h.2)
  have hstreams : ∀ stream ∈ (allStreams (l.opening c tags).tags.2 table.2.own value.2).map
      StreamUse.ofReader, stream.description ∈ l.descriptions := by
    intro stream hmem
    obtain ⟨r, hr, rfl⟩ := List.mem_map.mp hmem
    rcases mem_allStreams hr with rfl | rfl | ⟨lane, hlane⟩
    · exact hnames.1
    · exact hu.2 .own _ rfl
    · exact hv.2 lane r hlane
  refine (meets_finish limits hstreams v).mono ?_ ?_
  · rintro m t ⟨rfl, rfl⟩
    exact .of_ok hv.1 rfl rfl
  · rintro e t ⟨rfl, h⟩
    exact .of_error (hv.1 ▸ List.prefix_rfl) h

/-- `Module.decode`, on bytes that start with a `Framed` layout. No payload can keep a stream from
being opened where it is, but by ending the decoding before that. -/
theorem Framed.decode_opens (h : l.Framed c tags) (hp : l.bytes <+: bytes) (schema : Schema)
    (limits : Limits) : l.Opens tags (Module.decode bytes c schema limits) := by
  have hmeets : Meets (fun m t => l.Opens tags ⟨.ok m, t.events.toList⟩)
      (fun e t => l.Opens tags ⟨.error e, t.events.toList⟩)
      (moduleOf c schema limits (.start c bytes)) := by
    rw [moduleOf_eq_opening]
    have hopening := h.opening_eq hp limits
    split at hopening
    case isTrue =>
      rw [bind_of_error hopening]
      refine .of_error ?_ (.tooManyObjects _ _)
      rw [streams_entered, marks, parts_eq_front, Part.marks_append]
      exact List.prefix_append _ _
    case isFalse =>
      rw [bind_of_ok hopening]
      exact h.meets_sections hp schema limits
  rw [Assembly.start] at hmeets
  unfold Module.decode
  dsimp only
  cases hrun : moduleOf c schema limits ⟨.ofBytes c.toWireFormat "module" bytes, #[]⟩ <;>
    rwa [hrun] at hmeets

end Layout

end Decode

end BinaryAst
