import BinaryAst.Proofs.Container.Consumption
import BinaryAst.Proofs.Triple
/-!
# BinaryAst.Proofs.Container.Streams

Where the streams of an accepted container lie, and what each of them is for.

The summary of a stream is made while the stream is read; the layout says which part of the
container it sums up (`Part.Stands`). So what a summary says can be looked up in the bytes
of the container: the length of the payload stands on both sides of it, and the next stream
is behind that.

The streams are listed without names. Which of them is which follows from the configuration
and from the number of tags (`StreamRoles.Fits`), and from nothing else.
-/

namespace BinaryAst

namespace StreamUse

/-- The payload of a stream of a container. -/
def payload (s : StreamUse) (bytes : Bytes) : Bytes := bytes.slice s.offset s.length

/-- The bytes that were read of a stream of a container. -/
def taken (s : StreamUse) (bytes : Bytes) : Bytes := bytes.slice s.offset s.consumed

/-- The reader at the start of a stream of a container. -/
def reader (s : StreamUse) (format : WireFormat) (bytes : Bytes) : Reader :=
  ⟨.ofBytes s.offset (s.payload bytes), format, s.description⟩

/-- The stream lies in the container with its length on both sides, and is read no further than it
is long. -/
structure Framed (bytes : Bytes) (s : StreamUse) : Prop where
  before : bytes.slice (s.offset - 4) 4 = Write.uint32 s.length
  after : bytes.slice (s.offset + s.length) 4 = Write.uint32 s.length
  length_lt : s.length < 2 ^ 32
  consumed_le : s.consumed ≤ s.length
  end_le : s.offset + s.length + 4 ≤ bytes.length

end StreamUse

/-! ### Roles -/

/-- The streams of a container by what they are for. -/
structure StreamRoles where
  tags : StreamUse
  inlining : Option StreamUse
  typeTags : Option StreamUse
  packedIndices : Option StreamUse
  /-- The value streams, in the order in which they are registered. -/
  values : List StreamUse
  objects : StreamUse
  root : StreamUse

namespace StreamRoles

/-- The streams in container order. -/
def toList (roles : StreamRoles) : List StreamUse :=
  roles.tags :: (roles.inlining.toList ++ (roles.typeTags.toList ++
    (roles.packedIndices.toList ++ (roles.values ++ [roles.objects, roles.root]))))

/-- The streams of the module are these: the side streams that its configuration calls for, and a
value stream for each of its tags where values are kept by tag. -/
structure Fits (m : Module) (roles : StreamRoles) : Prop where
  streams : m.streams = roles.toList
  inlining : roles.inlining.isSome = m.configuration.separatesInliningFlags
  typeTags : roles.typeTags.isSome = m.configuration.typeTagStream
  packedIndices : roles.packedIndices.isSome = m.configuration.separatesPackedIndices
  values : roles.values.length =
    if m.configuration.valueStreamPerType then m.tags.length else 0

/-- Two lists that start with a side stream each, or with none, are cut in the same place if it is
known whether there is one. -/
theorem toList_append_inj {a b : Option StreamUse} {as bs : List StreamUse}
    (h : a.isSome = b.isSome) (heq : a.toList ++ as = b.toList ++ bs) : a = b ∧ as = bs := by
  cases a with
  | none =>
      obtain rfl : b = none := by simpa using h.symm
      exact ⟨rfl, heq⟩
  | some s =>
      obtain ⟨t, rfl⟩ := Option.isSome_iff_exists.mp h.symm
      obtain ⟨rfl, rfl⟩ := List.cons.inj heq
      exact ⟨rfl, rfl⟩

/-- The roles that `Fits` a module are settled by it: each of its streams has one role. -/
theorem Fits.unique {m : Module} {roles other : StreamRoles} (h : roles.Fits m)
    (hother : other.Fits m) : roles = other := by
  obtain ⟨hstreams, hinlining, htypeTags, hpacked, hvalues⟩ := h
  obtain ⟨hstreams', hinlining', htypeTags', hpacked', hvalues'⟩ := hother
  obtain ⟨tags, inlining, typeTags, packedIndices, values, objects, root⟩ := roles
  obtain ⟨tags', inlining', typeTags', packedIndices', values', objects', root'⟩ := other
  rw [hstreams] at hstreams'
  obtain ⟨rfl, hrest⟩ := List.cons.inj hstreams'
  obtain ⟨rfl, hrest⟩ := toList_append_inj (hinlining.trans hinlining'.symm) hrest
  obtain ⟨rfl, hrest⟩ := toList_append_inj (htypeTags.trans htypeTags'.symm) hrest
  obtain ⟨rfl, hrest⟩ := toList_append_inj (hpacked.trans hpacked'.symm) hrest
  obtain ⟨rfl, hlast⟩ := List.append_inj hrest (hvalues.trans hvalues'.symm)
  simp only [List.cons.injEq, and_true] at hlast
  obtain ⟨rfl, rfl⟩ := hlast
  rfl

end StreamRoles

namespace Decode

variable {format : WireFormat}

/-! ### Parts in the container -/

namespace Part

/-- The part stands in the container where its summary says. -/
def Stands (bytes : Bytes) (part : Part) (s : StreamUse) : Prop :=
  ∃ front back, bytes = front ++ (part.bytes ++ back) ∧ s = part.use front.length

section Stands

variable {bytes : Bytes} {part : Part} {s : StreamUse}

/-- A part that `Stands` in the container cuts it around the payload, with the length on both sides
and its summary settled by the cut. -/
theorem Stands.exists_cut (h : part.Stands bytes s) (hvalid : part.Valid format) :
    ∃ front back, bytes = (front ++ part.frame.before) ++ (part.frame.payload ++
        (part.frame.after ++ back)) ∧ s.offset = (front ++ part.frame.before).length ∧
      s.length = part.frame.payload.length ∧ s.consumed = part.taken.length ∧
      part.frame.before = Write.uint32 s.length ∧ part.frame.after = Write.uint32 s.length ∧
      s.length < 2 ^ 32 := by
  obtain ⟨front, back, rfl, rfl⟩ := h
  obtain ⟨hbefore, hlt⟩ := Write.uint32_of_spells hvalid.frame.before
  obtain ⟨hafter, -⟩ := Write.uint32_of_spells hvalid.frame.after
  refine ⟨front ++ (part.preface ++ part.frame.name), back, ?_, ?_, rfl, rfl, hbefore, hafter,
    hlt⟩
  · simp [Part.bytes, Frame.bytes, Frame.lead]
  · simp [use, Frame.lead, Nat.add_assoc]

/-- The summary of a part that `Stands` in the container has the description of its frame. -/
theorem Stands.description_eq (h : part.Stands bytes s) :
    s.description = part.frame.description := by
  obtain ⟨front, back, -, rfl⟩ := h
  rfl

theorem Stands.consumed_eq (h : part.Stands bytes s) : s.consumed = part.taken.length := by
  obtain ⟨front, back, -, rfl⟩ := h
  rfl

/-- A part that stands in the container is `StreamUse.Framed` there. -/
theorem Stands.framed (h : part.Stands bytes s) (hvalid : part.Valid format) :
    s.Framed bytes := by
  obtain ⟨front, back, hbytes, hoffset, hlength, hconsumed, hbefore, hafter, hlt⟩ :=
    h.exists_cut hvalid
  have hwidth : (Write.uint32 s.length).length = 4 := Bytes.length_ofNat 4 s.length
  rw [List.length_append, hbefore, hwidth] at hoffset
  rw [hbefore, hafter] at hbytes
  refine ⟨?_, ?_, hlt, ?_, ?_⟩
  · have hslice := Bytes.slice_append front (Write.uint32 s.length)
      (part.frame.payload ++ (Write.uint32 s.length ++ back))
    rw [hwidth] at hslice
    rwa [hbytes, List.append_assoc, hoffset, Nat.add_sub_cancel]
  · have hslice := Bytes.slice_append (front ++ (Write.uint32 s.length ++ part.frame.payload))
      (Write.uint32 s.length) back
    have hplace : s.offset + s.length =
        (front ++ (Write.uint32 s.length ++ part.frame.payload)).length := by
      rw [List.length_append, List.length_append, hwidth, ← hlength, hoffset, Nat.add_assoc]
    rw [hbytes, hplace]
    rw [hwidth] at hslice
    simpa using hslice
  · rw [hconsumed, hlength]
    exact hvalid.taken.length_le
  · rw [hbytes]
    simp only [List.length_append, hwidth]
    omega

/-- What the payload of a part starts with is the slice of the container at `StreamUse.offset`. -/
theorem Stands.slice_eq (h : part.Stands bytes s) (hvalid : part.Valid format) {first : Bytes}
    (hfirst : first <+: part.frame.payload) : bytes.slice s.offset first.length = first := by
  obtain ⟨front, back, hbytes, hoffset, -⟩ := h.exists_cut hvalid
  obtain ⟨rest, hrest⟩ := hfirst
  rw [hbytes, hoffset, ← hrest, List.append_assoc first]
  exact Bytes.slice_append _ first _

/-- `StreamUse.payload`, sliced out of the container, is the payload of the part. -/
theorem Stands.payload_eq (h : part.Stands bytes s) (hvalid : part.Valid format) :
    s.payload bytes = part.frame.payload := by
  obtain ⟨_, _, _, _, hlength, _⟩ := h.exists_cut hvalid
  rw [StreamUse.payload, hlength]
  exact h.slice_eq hvalid List.prefix_rfl

/-- `StreamUse.taken`, sliced out of the container, is what was taken of the part. -/
theorem Stands.taken_eq (h : part.Stands bytes s) (hvalid : part.Valid format) :
    s.taken bytes = part.taken := by
  obtain ⟨_, _, _, _, _, hconsumed, _⟩ := h.exists_cut hvalid
  rw [StreamUse.taken, hconsumed]
  exact h.slice_eq hvalid hvalid.taken

/-- What `Part.taken` spells, a reader at the start of its stream reads again (`StreamUse.reader`).
-/
theorem Stands.read_eq {α : Type} {read : Read α} {v : α} (h : part.Stands bytes s)
    (hvalid : part.Valid format) (hspells : Read.Spells format read part.taken v) :
    read (s.reader format bytes) = .ok v ((s.reader format bytes).skip s.consumed) := by
  obtain ⟨_, _, _, _, _, hconsumed, _⟩ := h.exists_cut hvalid
  rw [hconsumed]
  refine hspells _ rfl ?_
  change part.taken <+: s.payload bytes
  rw [h.payload_eq hvalid]
  exact hvalid.taken

end Stands

/-- What `eachFrom` gives for some parts is given for one of them, which stands behind those before
it. -/
theorem exists_append_of_mem_eachFrom {α : Type} {f : Part → Nat → α} {v : α} {offset : Nat}
    {parts : List Part} (h : v ∈ eachFrom f offset parts) :
    ∃ before part after, parts = before ++ part :: after ∧
      v = f part (offset + (bytesOf before).length) := by
  induction parts generalizing offset with
  | nil => cases h
  | cons part parts ih =>
      rcases List.mem_cons.mp h with rfl | h
      · exact ⟨[], part, parts, rfl, rfl⟩
      · obtain ⟨before, found, after, rfl, rfl⟩ := ih h
        exact ⟨part :: before, found, after, rfl, by simp [Nat.add_assoc]⟩

end Part

/-! ### The streams of a layout -/

namespace Layout

/-- The streams of a layout whose parts stand at an offset, by what they are for. -/
def roles (l : Layout) (offset : Nat) : StreamRoles where
  tags := l.tags.part.use offset
  inlining := l.side.inlining.map
    (·.part.use (l.place (offset + l.tags.part.bytes.length) .inlining))
  typeTags := l.side.typeTags.map
    (·.part.use (l.place (offset + l.tags.part.bytes.length) .typeTags))
  packedIndices := l.side.packedIndices.map
    (·.part.use (l.place (offset + l.tags.part.bytes.length) .packedIndices))
  values := Part.eachFrom Part.use
    (offset + l.tags.part.bytes.length + (Part.bytesOf l.side.parts).length)
    (l.values.map (·.2))
  objects := l.objects.part.use
    (offset + (Part.bytesOf ([l.tags.part] ++ l.toShared.parts)).length)
  root := l.root.part.use (offset + (Part.bytesOf l.beforeRoot).length)

/-- `eachFrom` of a side stream that may be missing. -/
theorem eachFrom_optional {α : Type} (f : Part → Nat → α) (offset : Nat) (s : Option Section) :
    Part.eachFrom f offset (Section.optional s) = (s.map (f ·.part offset)).toList := by
  cases s <;> rfl

/-- The streams of `Layout.roles`, in order, are the streams of its parts. -/
theorem toList_roles (l : Layout) (offset : Nat) :
    (l.roles offset).toList = Part.eachFrom Part.use offset l.parts := by
  simp [roles, StreamRoles.toList, parts, beforeRoot, Shared.parts, SideSections.parts,
    Part.eachFrom_append, eachFrom_optional, Shared.place, Nat.add_assoc]

variable {c : Configuration} {schema : Schema} {l : Layout} {m : Module} {events : List Event}
  {bytes : Bytes}

/-- `Layout.roles` gives to the streams of a layout the roles that `Fits` asks for in the module. -/
theorem Describes.fits_roles {offset : Nat} (h : l.Describes c schema offset m events) :
    (l.roles offset).Fits m := by
  refine ⟨h.streams.trans (l.toList_roles offset).symm, ?_, ?_, ?_, ?_⟩
  · simpa [roles, h.configuration] using h.side.inlining
  · simpa [roles, h.configuration] using h.side.typeTags
  · simpa [roles, h.configuration] using h.side.packedIndices
  · simpa [roles, h.configuration] using h.valueCount

/-- Each part of a layout `Stands` behind the header and the parts before it. -/
theorem stands_of_parts (before after : List Part) {part : Part} (hp : l.bytes <+: bytes)
    (h : l.parts = before ++ part :: after) :
    part.Stands bytes (part.use (Header.size + (Part.bytesOf before).length)) := by
  obtain ⟨rest, rfl⟩ := hp
  refine ⟨l.header.bytes ++ Part.bytesOf before, Part.bytesOf after ++ rest, ?_, ?_⟩
  · simp [Layout.bytes, h]
  · rw [List.length_append, Header.length_bytes]

/-- A side stream of `Layout.roles` belongs to a section of the layout, which stands in the
container. -/
theorem exists_stands_side {lane : Lane} (before after : List Part) {found : Option StreamUse}
    {s : StreamUse} (hp : l.bytes <+: bytes)
    (hparts : l.parts = before ++ (Section.optional (l.section? lane) ++ after))
    (hfound : found = (l.section? lane).map
      (·.part.use (Header.size + (Part.bytesOf before).length)))
    (hs : found = some s) :
    ∃ sec, l.section? lane = some sec ∧ sec.part ∈ l.parts ∧ sec.part.Stands bytes s := by
  rw [hs] at hfound
  obtain ⟨sec, hsec, rfl⟩ := Option.map_eq_some_iff.mp hfound.symm
  rw [hsec] at hparts
  exact ⟨sec, hsec, by simp [hparts, Section.optional], stands_of_parts _ _ hp hparts⟩

theorem exists_stands_inlining {s : StreamUse} (hp : l.bytes <+: bytes)
    (h : (l.roles Header.size).inlining = some s) :
    ∃ sec, l.section? .inlining = some sec ∧ sec.part ∈ l.parts ∧ sec.part.Stands bytes s :=
  exists_stands_side [l.tags.part]
    (Section.optional l.side.typeTags ++ (Section.optional l.side.packedIndices ++
      (l.values.map (·.2) ++ [l.objects.part, l.root.part]))) hp
    (by simp [parts, beforeRoot, Shared.parts, SideSections.parts, Shared.section?])
    (by simp [roles, Shared.place, Shared.section?]) h

theorem exists_stands_typeTags {s : StreamUse} (hp : l.bytes <+: bytes)
    (h : (l.roles Header.size).typeTags = some s) :
    ∃ sec, l.section? .typeTags = some sec ∧ sec.part ∈ l.parts ∧ sec.part.Stands bytes s :=
  exists_stands_side ([l.tags.part] ++ Section.optional l.side.inlining)
    (Section.optional l.side.packedIndices ++
      (l.values.map (·.2) ++ [l.objects.part, l.root.part])) hp
    (by simp [parts, beforeRoot, Shared.parts, SideSections.parts, Shared.section?])
    (by simp [roles, Shared.place, Shared.section?, Nat.add_assoc]) h

theorem exists_stands_packedIndices {s : StreamUse} (hp : l.bytes <+: bytes)
    (h : (l.roles Header.size).packedIndices = some s) :
    ∃ sec, l.section? .packedIndices = some sec ∧ sec.part ∈ l.parts ∧
      sec.part.Stands bytes s :=
  exists_stands_side ([l.tags.part] ++ (Section.optional l.side.inlining ++
      Section.optional l.side.typeTags))
    (l.values.map (·.2) ++ [l.objects.part, l.root.part]) hp
    (by simp [parts, beforeRoot, Shared.parts, SideSections.parts, Shared.section?])
    (by simp [roles, Shared.place, Shared.section?, Nat.add_assoc]) h

/-- Every stream of a module that a layout `Describes` is `Framed` in the container. -/
theorem Describes.framed (h : l.Describes c schema Header.size m events) (hp : l.bytes <+: bytes) :
    ∀ s ∈ m.streams, s.Framed bytes := by
  intro s hs
  rw [h.streams] at hs
  obtain ⟨before, part, after, hparts, rfl⟩ := Part.exists_append_of_mem_eachFrom hs
  exact (stands_of_parts _ _ hp hparts).framed (h.parts part (by simp [hparts]))

end Layout

/-! ### The two tables -/

end Decode

open Decode

namespace Module

end Module

/-! ### A tree in streams of its own -/

/-- All side streams but that of flags, and the values by tag. -/
def groveConfiguration : Configuration where
  conditionalInlining := true
  packedInliningFlags := true
  packedIndexStream := true
  typeTagStream := true
  valueStreamPerType := true

/-- A tree with an inline child, and a header that has the number of tags wrong. -/
def groveContainer : Bytes :=
  Sections.toBytes
    { tags := ["Tree", "string", "array"]
      tagCount := some 9
      objectCount := 1
      typeTags := some (WriteStep.bytesAll {} (List.replicate 3 (.index (some 0))))
      packedIndices := some (WriteStep.bytesAll {} [.index (some 1)])
      values := [(1, WriteStep.bytesAll {} [.string (some "oak"), .string (some "ash")]),
        (2, WriteStep.bytesAll {} [.varUInt32 1, .varUInt32 0]), (0, [])]
      objects := WriteStep.bytesAll {} [.uint32 1]
      root := WriteStep.bytesAll {} [.index (some 0), .byte 7] }

/-- The module of the container. -/
def groveModule : Module where
  configuration := groveConfiguration
  header := ⟨9, 1⟩
  tags := ["Tree", "string", "array"]
  objects := [⟨"Tree", [⟨"label", .string "oak"⟩, ⟨"children", .array
    [.inline ⟨"Tree", [⟨"label", .string "ash"⟩, ⟨"children", .array []⟩]⟩]⟩]⟩]
  root := .ref 0
  streams := [⟨"tags", 28, 31, 31⟩, ⟨"typeTags", 79, 12, 12⟩, ⟨"packedIndices", 116, 4, 4⟩,
    ⟨"values:string", 149, 14, 14⟩, ⟨"values:array", 191, 8, 8⟩, ⟨"values:Tree", 226, 0, 0⟩,
    ⟨"objects", 245, 4, 4⟩, ⟨"root", 265, 5, 4⟩]

/-- What is told of the container. -/
def groveEvents : List Event :=
  [.stream "tags" 28 31, .stream "typeTags" 79 12, .stream "packedIndices" 116 4,
    .stream "values:string" 149 14, .stream "values:array" 191 8, .stream "values:Tree" 226 0,
    .stream "objects" 245 4, .tag "typeTags" "Tree", .field "Tree" "label" "values:string" true,
    .field "Tree" "children" "values:array" true, .tag "typeTags" "Tree",
    .inline "Tree" "values:array", .field "Tree" "label" "values:string" true,
    .field "Tree" "children" "values:array" false, .slot 0 "Tree", .stream "root" 265 5,
    .tag "typeTags" "Tree"]

set_option maxRecDepth 20000 in
/-- `groveContainer` is accepted, value streams and all, although its header has another number of
tags. -/
theorem decode_groveContainer : Module.decode groveContainer groveConfiguration treeSchema {} =
    ⟨.ok groveModule, groveEvents⟩ := by
  cbv

end BinaryAst
