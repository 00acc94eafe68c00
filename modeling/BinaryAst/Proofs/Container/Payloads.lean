import BinaryAst.Proofs.Container.Framing
import BinaryAst.Proofs.Encode.Program
/-!
# BinaryAst.Proofs.Container.Payloads

A container that is put together from payloads is read back section by section.

What the payloads are plays no part in this: they are framed, and the frames are in order when
the sections suit the configuration and have room in the format. So the container has a layout
whose frames are in order (`Sections.framed_layout`), and decoding opens its streams, each around
the payload that was given for it (`Sections.decode_toBytes`).
-/

namespace BinaryAst

/-- The mark has the name of the stream, and the place of its payload in the container. -/
structure Delimits (bytes : Bytes) (stream : String × Bytes) (mark : String × Nat × Nat) :
    Prop where
  description : mark.1 = stream.1
  payload : bytes.slice mark.2.1 mark.2.2 = stream.2
  end_le : mark.2.1 + mark.2.2 ≤ bytes.length

namespace Decode

variable {format : WireFormat}

/-- The description and the payload of a part. -/
def Part.stream (part : Part) : String × Bytes := (part.frame.description, part.frame.payload)

theorem Part.Stands.delimits {bytes : Bytes} {part : Part} {s : StreamUse}
    (h : part.Stands bytes s) (hvalid : part.Valid format) :
    Delimits bytes part.stream (s.description, s.offset, s.length) where
  description := h.description_eq
  payload := h.payload_eq hvalid
  end_le := (Nat.le_add_right _ 4).trans (h.framed hvalid).end_le

theorem Part.delimits_marks {parts : List Part} (hvalid : ∀ part ∈ parts, part.Valid format)
    (front back : Bytes) :
    List.Forall₂ (Delimits (front ++ (bytesOf parts ++ back))) (parts.map stream)
      (marks front.length parts) := by
  induction parts generalizing front with
  | nil => exact .nil
  | cons part parts ih =>
      obtain ⟨hpart, hrest⟩ := List.forall_mem_cons.mp hvalid
      have hstands : part.Stands (front ++ (bytesOf (part :: parts) ++ back))
          (part.use front.length) := ⟨front, bytesOf parts ++ back, by simp, rfl⟩
      have hmore := ih hrest (front ++ part.bytes)
      rw [List.append_assoc, ← List.append_assoc part.bytes, ← bytesOf_cons,
        List.length_append] at hmore
      exact .cons (hstands.delimits hpart) hmore

/-- Each of the `marks` of a layout `Delimits` its stream in the bytes. -/
theorem Layout.delimits_marks {l : Layout} {bytes : Bytes}
    (hvalid : ∀ part ∈ l.parts, part.Valid format) (hp : l.bytes <+: bytes) :
    List.Forall₂ (Delimits bytes) (l.parts.map Part.stream) l.marks := by
  obtain ⟨rest, rfl⟩ := hp
  rw [Layout.bytes, List.append_assoc, marks, ← l.header.length_bytes]
  exact Part.delimits_marks hvalid _ _

end Decode

open Decode

namespace Sections

/-- The streams of the container and their payloads, in container order. -/
def streams (s : Sections) : List (String × Bytes) :=
  ("tags", Write.tagNames s.format s.tags) ::
    ((s.inlining.map ("inlining", ·)).toList ++ (s.typeTags.map ("typeTags", ·)).toList ++
      (s.packedIndices.map ("packedIndices", ·)).toList ++
      s.values.map (fun entry => (s.valuesDescription entry.1, entry.2)) ++
      [("objects", s.objectTable), ("root", s.root)])

/-- The sections are those that the configuration calls for: the side streams, and as many value
streams as there are tags where values are kept by tag. -/
structure Suits (s : Sections) (c : Configuration) : Prop where
  format : c.toWireFormat = s.format
  inlining : s.inlining.isSome = c.separatesInliningFlags
  typeTags : s.typeTags.isSome = c.typeTagStream
  packedIndices : s.packedIndices.isSome = c.separatesPackedIndices
  valueCount : s.values.length = if c.valueStreamPerType then s.tags.length else 0
  valueTags : ∀ entry ∈ s.values, entry.1 < s.tags.length

/-- Names, counts and lengths have room in the format. -/
structure Fits (s : Sections) : Prop where
  tagCount : s.tagCount.getD s.tags.length < 2 ^ 32
  objectCount : s.objectCount < 2 ^ 32
  tagsLength : s.tags.length < 2 ^ 32
  tags : ∀ tag ∈ s.tags, s.format.Holds (some tag)
  valueNames : ∀ entry ∈ s.values, s.format.Holds (some (s.valuesDescription entry.1))
  valueIndices : ∀ entry ∈ s.values, Write.wireOf (some entry.1) < s.format.indexBound
  payloads : ∀ stream ∈ s.streams, stream.2.length < 2 ^ 32

/-! ### The layout -/

/-- A value stream with its tag, behind the index of the tag. -/
def valueEntry (s : Sections) (entry : Nat × Bytes) : String × Part :=
  (s.tags[entry.1]?.getD "",
    { Section.whole s.format (s.valuesDescription entry.1) entry.2 with
      preface := Write.index s.format (some entry.1) })

/-- The counts in the header. -/
def header (s : Sections) : Header := ⟨s.tagCount.getD s.tags.length, s.objectCount⟩

/-- The container, cut into its parts. -/
def layout (s : Sections) : Layout where
  header := s.header
  tags := .whole s.format "tags" (Write.tagNames s.format s.tags)
  side :=
    { inlining := s.inlining.map (.whole s.format "inlining")
      typeTags := s.typeTags.map (.whole s.format "typeTags")
      packedIndices := s.packedIndices.map (.whole s.format "packedIndices") }
  values := s.values.map s.valueEntry
  objects := .whole s.format "objects" s.objectTable
  root := .whole s.format "root" s.root

theorem bytes_optional (s : Sections) (description : String) (payload : Option Bytes) :
    s.optional description payload =
      Part.bytesOf (Section.optional (payload.map (.whole s.format description))) := by
  cases payload with
  | none => rfl
  | some payload => simp [optional, Section.optional, Section.bytes_part_whole]

theorem bytes_values (s : Sections) (entries : List (Nat × Bytes)) :
    entries.flatMap s.valueStream = Part.bytesOf ((entries.map s.valueEntry).map (·.2)) := by
  induction entries with
  | nil => rfl
  | cons entry entries ih =>
      rw [List.flatMap_cons, ih, List.map_cons, List.map_cons, Part.bytesOf_cons]
      simp [valueStream, valueEntry, Part.bytes, Section.bytes_whole]

/-- The parts of the `layout` take the bytes that `toBytes` writes. -/
theorem bytes_layout (s : Sections) : s.layout.bytes = s.toBytes := by
  simp [toBytes, bytes_optional, bytes_values, Layout.bytes, Layout.parts, Layout.beforeRoot,
    Shared.parts, SideSections.parts, layout, header, Header.bytes, Write.tagTable,
    Section.bytes_part_whole]

/-- The `streams` of the sections are those of the parts of their `layout`. -/
theorem streams_eq (s : Sections) : s.streams = s.layout.parts.map Part.stream := by
  obtain ⟨_, _, _, _, _ | _, _ | _, _ | _, _, _, _⟩ := s <;>
    simp [streams, Layout.parts, Layout.beforeRoot, Shared.parts, SideSections.parts, layout,
      Section.optional, Section.part, Section.whole, valueEntry, Part.stream]

/-- Each part of the `layout` is written `whole`, around its payload. -/
theorem whole_of_mem_parts (s : Sections) {part : Part} (h : part ∈ s.layout.parts) :
    part.toSection = .whole s.format part.frame.description part.frame.payload := by
  simp only [Layout.parts, Layout.beforeRoot, Shared.parts, SideSections.parts, Section.optional,
    layout, List.mem_append, List.mem_map, Option.mem_toList, Option.map_eq_some_iff,
    List.mem_singleton] at h
  rcases h with ((rfl | ((⟨_, ⟨_, _, rfl⟩, rfl⟩ | ⟨_, ⟨_, _, rfl⟩, rfl⟩) | ⟨_, ⟨_, _, rfl⟩, rfl⟩) |
    ⟨_, ⟨_, _, rfl⟩, rfl⟩) | rfl) | rfl <;> rfl

/-! ### The names of streams -/

/-- The names of the streams that are not those of values. -/
def plainNames : List String :=
  ["tags", "inlining", "typeTags", "packedIndices", "objects", "root"]

theorem name_of_mem_streams (s : Sections) {stream : String × Bytes} (h : stream ∈ s.streams) :
    stream.1 ∈ plainNames ∨ ∃ entry ∈ s.values, stream.1 = s.valuesDescription entry.1 := by
  simp only [streams, List.mem_cons, List.mem_append, Option.mem_toList, Option.map_eq_some_iff,
    List.mem_map, List.not_mem_nil, or_false] at h
  rcases h with rfl | ((((⟨_, _, rfl⟩ | ⟨_, _, rfl⟩) | ⟨_, _, rfl⟩) | ⟨entry, hentry, rfl⟩) |
    rfl | rfl)
  case inr.inl.inr => exact .inr ⟨entry, hentry, rfl⟩
  all_goals exact .inl (by simp [plainNames])

/-- None of the `streams` has the name of the container. -/
theorem module_notMem_streams (s : Sections) : "module" ∉ s.streams.map Prod.fst := by
  intro hmem
  obtain ⟨stream, hstream, hname⟩ := List.mem_map.mp hmem
  rcases s.name_of_mem_streams hstream with hplain | ⟨entry, -, hvalues⟩
  · exact absurd (hname ▸ hplain) (by decide)
  · rw [hname, valuesDescription] at hvalues
    have hfirst := congrArg String.toList hvalues
    simp at hfirst

variable {s : Sections} {c : Configuration}

theorem Fits.holds_of_mem_streams (h : s.Fits) {stream : String × Bytes}
    (hstream : stream ∈ s.streams) : s.format.Holds (some stream.1) := by
  rcases s.name_of_mem_streams hstream with hplain | ⟨entry, hentry, hname⟩
  · have hshort : ∀ name ∈ plainNames,
        (Bytes.ofText name).length + 1 < 2 ^ 24 ∧ Char.ofNat 0 ∉ name.toList := by decide
    exact s.format.holds_of_short (hshort _ hplain).1 (hshort _ hplain).2
  · exact hname ▸ h.valueNames entry hentry

/-! ### Reading the container back -/

theorem Fits.valid_of_mem_parts (h : s.Fits) : ∀ part ∈ s.layout.parts, part.Valid s.format := by
  intro part hpart
  have hstream : part.stream ∈ s.streams := s.streams_eq ▸ List.mem_map_of_mem hpart
  have hwhole := s.whole_of_mem_parts hpart
  refine ⟨?_, ?_⟩
  · rw [show part.frame = _ from congrArg Section.frame hwhole]
    exact Section.valid_whole (h.holds_of_mem_streams hstream) (h.payloads _ hstream)
  · rw [show part.taken = _ from congrArg Section.taken hwhole]
    exact List.prefix_rfl

/-- Sections that `Suits` admits for the configuration and that have room (`Fits`) are `Framed` as
they should be. -/
theorem framed_layout (hsuits : s.Suits c) (hfits : s.Fits) : s.layout.Framed c s.tags := by
  have hvalid := hfits.valid_of_mem_parts
  rw [← hsuits.format] at hvalid
  simp only [Layout.parts, Layout.beforeRoot, Shared.parts, List.forall_mem_append,
    List.forall_mem_singleton] at hvalid
  obtain ⟨⟨⟨htags, hside, hvalues⟩, hobjects⟩, hroot⟩ := hvalid
  refine ⟨⟨hfits.tagCount, hfits.objectCount⟩, htags, ?_,
    ⟨⟨?_, ?_, ?_⟩, fun part hpart => (hside part hpart).frame, ?_, fun entry hentry => ?_⟩,
    hobjects.frame, hroot.frame⟩
  · rw [hsuits.format]
    exact spells_tagNames hfits.tagsLength hfits.tags
  · rw [← hsuits.inlining]
    exact Option.isSome_map
  · rw [← hsuits.typeTags]
    exact Option.isSome_map
  · rw [← hsuits.packedIndices]
    exact Option.isSome_map
  · rw [← hsuits.valueCount]
    exact List.length_map _
  · obtain ⟨given, hgiven, rfl⟩ := List.mem_map.mp hentry
    have hlt := hsuits.valueTags given hgiven
    refine ⟨(hvalues _ (List.mem_map_of_mem hentry)).frame, given.1, ?_, ?_⟩
    · rw [hsuits.format]
      exact Write.spells_index (hfits.valueIndices given hgiven)
    · simp [valueEntry, List.getElem?_eq_getElem hlt]

/-- How the container of the sections may decode, where these are the places of its streams. A
module was decoded from all streams, and has the counts and the tags that were given. An error
ended the decoding with the first few streams open. It is not one of the header, the tag table or
the frames; and if it tells of a stream, then of one of the sections, not of the container. -/
structure ReadBack (s : Sections) (marks : List (String × Nat × Nat)) (d : Decoding) : Prop where
  ok : ∀ m, d.result = .ok m → d.events.filterMap Event.stream? = marks ∧
    m.header = ⟨s.tagCount.getD s.tags.length, s.objectCount⟩ ∧ m.tags = s.tags
  error : ∀ e, d.result = .error e → d.events.filterMap Event.stream? <+: marks ∧
    ¬e.cause.OfFraming ∧ e.cause.stream? ≠ some "module" ∧
      ∀ name, e.cause.stream? = some name → name ∈ s.streams.map Prod.fst

/-- What `toBytes` puts together from sections, `decode` reads back section by section. They have to
suit the configuration (`Suits`), and names and lengths have to have room in the format (`Fits`);
what the payloads are is left open, and so are the schema and the limits. The streams are opened in
order, and each of the marks `Delimits` the payload that was given for it. -/
theorem decode_toBytes (hsuits : s.Suits c) (hfits : s.Fits) :
    ∃ marks, List.Forall₂ (Delimits s.toBytes) s.streams marks ∧
      ∀ (schema : Schema) (limits : Limits),
        s.ReadBack marks (Module.decode s.toBytes c schema limits) := by
  have hp : s.layout.bytes <+: s.toBytes := s.bytes_layout ▸ List.prefix_rfl
  refine ⟨s.layout.marks, ?_, fun schema limits => ?_⟩
  · rw [streams_eq]
    exact Layout.delimits_marks hfits.valid_of_mem_parts hp
  have hnames : s.layout.descriptions = s.streams.map Prod.fst := by
    rw [streams_eq, List.map_map]
    rfl
  have hopens := (framed_layout hsuits hfits).decode_opens hp schema limits
  refine ⟨hopens.ok, fun e he => ?_⟩
  obtain ⟨hevents, hends⟩ := hopens.error e he
  rw [hnames] at hends
  exact ⟨hevents, hends.not_ofFraming,
    fun hstream => s.module_notMem_streams (hends.mem_of_stream? hstream),
    fun name => hends.mem_of_stream?⟩

/-- The sections of a tree with an inline tree in it. -/
def ofTree : Sections where
  tags := ["Tree"]
  objectCount := 1
  inlining := some [1]
  typeTags := some (WriteStep.bytesAll {} (List.replicate 4 (.index (some 0))))
  objects := WriteStep.bytesAll {} [.uint32 1, .string (some "oak"), .varUInt32 1,
    .string (some "ash"), .varUInt32 0]
  root := WriteStep.bytesAll {} [.index (some 0)]

/-- The sections `ofTree`, with the marks that the streams of `treeContainer` have. -/
theorem decode_toBytes_ofTree : ofTree.Suits treeConfiguration ∧ ofTree.Fits ∧
    List.Forall₂ (Delimits ofTree.toBytes) ofTree.streams
      [("tags", 28, 12), ("inlining", 60, 1), ("typeTags", 81, 16), ("objects", 116, 26),
        ("root", 158, 4)] := by
  have hsuits : ofTree.Suits treeConfiguration := by
    constructor <;> decide
  have hfits : ofTree.Fits := by
    constructor <;> decide
  obtain ⟨marks, hmarks, hdecode⟩ := decode_toBytes hsuits hfits
  have htree := hdecode treeSchema {}
  rw [show ofTree.toBytes = treeContainer from rfl, decode_treeContainer] at htree
  obtain rfl : treeEvents.filterMap Event.stream? = marks := (htree.ok _ rfl).1
  exact ⟨hsuits, hfits, hmarks⟩

end Sections

end BinaryAst
