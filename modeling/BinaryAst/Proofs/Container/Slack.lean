import BinaryAst.Proofs.Container.Assembly
/-!
# BinaryAst.Proofs.Container.Slack

The bytes of a container that play no part.

Decoding looks at no byte that it does not take. So the announced number of tags, what is
left over in a stream and whatever is behind the root may be anything: the container stays
accepted, with the same contents and the same events.

The proof goes over the parts of a layout, front to back (`Part.exists_of_agree`). Bytes that
agree with a part outside its slack are a part again, which differs in what is left over, and
a layout does not look at that (`Layout.Describes.of_blank`).
-/

namespace BinaryAst

/-- A position that the stream has, but that was not read. -/
def StreamUse.Leaves (s : StreamUse) (position : Nat) : Prop :=
  s.offset + s.consumed ≤ position ∧ position < s.offset + s.length

instance (s : StreamUse) (position : Nat) : Decidable (s.Leaves position) :=
  inferInstanceAs (Decidable (_ ∧ _))

/-- Lists that agree in front of a segment and behind it differ in the segment. -/
theorem exists_segment_of_agree {α : Type} {front segment after other : List α}
    (hlen : other.length = (front ++ (segment ++ after)).length)
    (h : ∀ i, i < other.length → i < front.length ∨ front.length + segment.length ≤ i →
      other[i]? = (front ++ (segment ++ after))[i]?) :
    ∃ replaced, replaced.length = segment.length ∧ other = front ++ (replaced ++ after) := by
  simp only [List.length_append] at hlen
  have hreplaced : ((other.drop front.length).take segment.length).length = segment.length := by
    simp only [List.length_take, List.length_drop]
    omega
  refine ⟨(other.drop front.length).take segment.length, hreplaced, List.ext_getElem? fun i => ?_⟩
  -- in front of the segment, in it, behind it, and behind the end
  by_cases hfront : i < front.length
  · rw [h i (by omega) (.inl hfront), List.getElem?_append_left hfront,
      List.getElem?_append_left hfront]
  by_cases hsegment : i < front.length + segment.length
  · rw [List.getElem?_append_right (by omega), List.getElem?_append_left (by omega),
      List.getElem?_take_of_lt (by omega), List.getElem?_drop]
    congr 1
    omega
  by_cases hafter : i < other.length
  · rw [h i hafter (.inr (by omega)), List.getElem?_append_right (by omega),
      List.getElem?_append_right (by omega), List.getElem?_append_right (by omega),
      List.getElem?_append_right (by omega), hreplaced]
  · rw [List.getElem?_eq_none (by omega), List.getElem?_eq_none (by
      simp only [List.length_append, hreplaced]
      omega)]

/-- The frame with nothing but zero bytes in its payload. -/
def Frame.blank (f : Frame) : Frame := { f with payload := List.replicate f.payload.length 0 }

theorem Frame.Valid.of_blank {format : WireFormat} {f g : Frame} (h : f.blank = g.blank)
    (hf : f.Valid format) : g.Valid format := by
  obtain ⟨name, before, payload, after, description⟩ := f
  obtain ⟨name', before', payload', after', description'⟩ := g
  simp only [blank, Frame.mk.injEq] at h
  obtain ⟨rfl, rfl, hpayload, rfl, rfl⟩ := h
  have hlen : payload.length = payload'.length := by
    simpa using congrArg List.length hpayload
  exact ⟨hf.name, hlen ▸ hf.before, hlen ▸ hf.after⟩

namespace Decode

variable {format : WireFormat}

/-- The section with a blank payload. -/
def Section.blank (s : Section) : Section := { s with frame := s.frame.blank }

namespace Part

/-- The part with a blank payload. -/
def blank (p : Part) : Part := { p with toSection := p.toSection.blank }

@[simp] theorem length_bytes_blank (p : Part) : p.blank.bytes.length = p.bytes.length := by
  simp [bytes, blank, Section.blank, Frame.blank, Frame.bytes, Frame.lead]

theorem use_blank (p : Part) (offset : Nat) : p.blank.use offset = p.use offset := by
  simp [use, blank, Section.blank, Frame.blank, Frame.lead]

theorem opening_blank (p : Part) (offset : Nat) :
    p.blank.opening format offset = p.opening format offset := by
  simp [opening, opened, reader, blank, Section.blank, Frame.blank, Frame.lead, Reader.length_eq]

/-- Each stream of `eachFrom` lies behind the place where the parts start. -/
theorem le_offset_of_mem {parts : List Part} {offset : Nat} {s : StreamUse}
    (h : s ∈ eachFrom use offset parts) : offset ≤ s.offset := by
  induction parts generalizing offset with
  | nil => cases h
  | cons part parts ih =>
      rcases List.mem_cons.mp h with rfl | h
      · simp only [use]
        omega
      · have := ih h
        omega

/-- Bytes that agree with a part outside what it `Leaves` are a part, too, of the same `blank`. -/
theorem exists_part_of_agree {part : Part} (hvalid : part.Valid format) (offset : Nat)
    {other : Bytes} (hlen : other.length = part.bytes.length)
    (h : ∀ i, i < other.length → ¬(part.use offset).Leaves (offset + i) →
      other[i]? = part.bytes[i]?) :
    ∃ q : Part, q.blank = part.blank ∧ q.Valid format ∧ q.bytes = other := by
  obtain ⟨spare, hspare⟩ := hvalid.taken
  -- all of the part that is read in front of its slack
  let front := part.preface ++ part.frame.lead ++ part.taken
  have hbytes : part.bytes = front ++ (spare ++ part.frame.after) := by
    simp [front, bytes, Frame.bytes, ← hspare]
  have hpayload : part.frame.payload.length = part.taken.length + spare.length := by
    simp [← hspare]
  have hfront : front.length =
      part.preface.length + part.frame.lead.length + part.taken.length := by
    simp [front, Nat.add_assoc]
  rw [hbytes] at hlen h
  obtain ⟨other', hother', rfl⟩ := exists_segment_of_agree hlen fun i hi hout =>
    h i hi fun hleaves => by
      simp only [StreamUse.Leaves, use] at hleaves
      omega
  let q : Part :=
    { part with frame := { part.frame with payload := part.taken ++ other' } }
  have hblank : q.blank = part.blank := by
    have hlength : (part.taken ++ other').length = part.frame.payload.length := by
      rw [hpayload, List.length_append, hother']
    simp only [q, blank, Section.blank, Frame.blank, hlength]
  refine ⟨q, hblank, ⟨hvalid.frame.of_blank ?_, List.prefix_append _ _⟩, ?_⟩
  · exact (congrArg (·.frame) hblank).symm
  · simp [q, front, bytes, Frame.bytes, Frame.lead]

/-- Bytes that agree with parts outside what they `Leaves` start with parts, too, of the same
`blank`s. -/
theorem exists_of_agree {parts : List Part} (hvalid : ∀ part ∈ parts, part.Valid format)
    (offset : Nat) {other : Bytes} (hlen : (bytesOf parts).length ≤ other.length)
    (h : ∀ i, i < (bytesOf parts).length →
      (∀ s ∈ eachFrom use offset parts, ¬s.Leaves (offset + i)) →
        other[i]? = (bytesOf parts)[i]?) :
    ∃ others : List Part, others.map blank = parts.map blank ∧
      (∀ part ∈ others, part.Valid format) ∧ bytesOf others <+: other := by
  induction parts generalizing offset other with
  | nil => exact ⟨[], rfl, by simp, List.nil_prefix⟩
  | cons part parts ih =>
      rw [List.forall_mem_cons] at hvalid
      simp only [bytesOf_cons, List.length_append] at hlen h
      have hfirst : (other.take part.bytes.length).length = part.bytes.length := by
        rw [List.length_take]
        omega
      -- no later stream leaves anything within the first part
      have hfirstAgrees : ∀ i, i < (other.take part.bytes.length).length →
          ¬(part.use offset).Leaves (offset + i) →
            (other.take part.bytes.length)[i]? = part.bytes[i]? := by
        intro i hi hleaves
        have hagree := h i (by omega) fun s hs => by
          rcases List.mem_cons.mp hs with rfl | hs
          · exact hleaves
          · have := le_offset_of_mem hs
            unfold StreamUse.Leaves
            omega
        rw [List.getElem?_take_of_lt (by omega), hagree, List.getElem?_append_left (by omega)]
      obtain ⟨q, hq, hqvalid, hqbytes⟩ := exists_part_of_agree hvalid.1 offset hfirst hfirstAgrees
      have hroom : (bytesOf parts).length ≤ (other.drop part.bytes.length).length := by
        rw [List.length_drop]
        omega
      -- nor does the first stream leave anything behind the first part
      have hrestAgrees : ∀ i, i < (bytesOf parts).length →
          (∀ s ∈ eachFrom use (offset + part.bytes.length) parts,
            ¬s.Leaves (offset + part.bytes.length + i)) →
            (other.drop part.bytes.length)[i]? = (bytesOf parts)[i]? := by
        intro i hi hleaves
        have hagree := h (part.bytes.length + i) (by omega) fun s hs => by
          rcases List.mem_cons.mp hs with rfl | hs
          · have hend : part.preface.length + part.frame.lead.length +
                part.frame.payload.length ≤ part.bytes.length := by
              simp only [bytes, List.length_append, Frame.length_bytes]
              omega
            simp only [StreamUse.Leaves, use]
            omega
          · rw [← Nat.add_assoc]
            exact hleaves s hs
        rw [List.getElem?_drop, hagree, List.getElem?_append_right (by omega)]
        congr 1
        omega
      obtain ⟨others, hothers, hothersvalid, rest, hrest⟩ :=
        ih hvalid.2 (offset + part.bytes.length) hroom hrestAgrees
      refine ⟨q :: others, by simp [hq, hothers], List.forall_mem_cons.mpr ⟨hqvalid, hothersvalid⟩,
        rest, ?_⟩
      rw [bytesOf_cons, hqbytes, List.append_assoc, hrest, List.take_append_drop]

theorem length_bytesOf_congr {parts others : List Part}
    (h : others.map blank = parts.map blank) :
    (bytesOf others).length = (bytesOf parts).length := by
  have hmap : ∀ parts : List Part, (bytesOf parts).length =
      ((parts.map blank).map (·.bytes.length)).sum := by
    intro parts
    simp [bytesOf, List.length_flatMap, Function.comp_def]
  rw [hmap, h, hmap]

end Part

/-! ### Layouts -/

/-- The streams with blank payloads. -/
def Shared.blank (l : Shared) : Shared := l.revise fun _ => Section.blank

theorem Shared.blank_eq (l : Shared) : l.blank =
    ⟨⟨l.side.inlining.map Section.blank, l.side.typeTags.map Section.blank,
      l.side.packedIndices.map Section.blank⟩,
        l.values.map fun entry => (entry.1, entry.2.blank)⟩ := by
  have hvalues : l.blank.values = l.values.map fun entry => (entry.1, entry.2.blank) := by
    refine List.ext_getElem? fun i => ?_
    simp only [blank, revise, List.getElem?_mapIdx, List.getElem?_map]
    rfl
  rw [← hvalues]
  rfl

theorem Shared.site_blank (l : Shared) (setting : Setting) (own : String) :
    l.blank.site setting own = l.site setting own :=
  l.site_revise (f := fun _ => Section.blank) (fun _ _ => rfl) setting own

theorem Shared.taken_blank (l : Shared) (lane : Lane) : l.blank.taken lane = l.taken lane := by
  rw [taken, blank, section?_revise, taken]
  cases l.section? lane <;> rfl

/-- The layouts differ in the bytes that are not read, and in the announced number of
tags. -/
structure Layout.SameButSlack (l l' : Layout) : Prop where
  tags : l'.tags.blank = l.tags.blank
  shared : l'.toShared.blank = l.toShared.blank
  objects : l'.objects.blank = l.objects.blank
  root : l'.root.blank = l.root.blank
  parts : l'.parts.map Part.blank = l.parts.map Part.blank
  objectCount : l'.header.objectCount = l.header.objectCount

theorem exists_optional_of_blank {s : Option Section} {others : List Part}
    (h : others.map Part.blank = (Section.optional s).map Part.blank) :
    ∃ s', others = Section.optional s' ∧ s'.map Section.blank = s.map Section.blank := by
  cases s with
  | none => exact ⟨none, List.map_eq_nil_iff.mp h, rfl⟩
  | some s =>
      obtain ⟨⟨s', preface⟩, rfl, hq⟩ := List.map_eq_singleton_iff.mp h
      obtain ⟨hs, rfl⟩ : s'.blank = s.blank ∧ preface = [] := by
        simpa [Part.blank, Section.part] using hq
      exact ⟨some s', rfl, congrArg some hs⟩

theorem exists_values_of_blank {values : List (String × Part)} {others : List Part}
    (h : others.map Part.blank = (values.map (·.2)).map Part.blank) :
    ∃ values' : List (String × Part), values'.map (·.2) = others ∧
      (values'.map fun entry => (entry.1, entry.2.blank)) =
        values.map fun entry => (entry.1, entry.2.blank) := by
  induction values generalizing others with
  | nil => exact ⟨[], (List.map_eq_nil_iff.mp h).symm, rfl⟩
  | cons entry values ih =>
      obtain ⟨other, others, rfl, hother, hothers⟩ := List.map_eq_cons_iff.mp h
      obtain ⟨values', rfl, hvalues⟩ := ih hothers
      exact ⟨(entry.1, other) :: values', rfl, by simp [hother, hvalues]⟩

theorem exists_shared_of_blank {l : Shared} {others : List Part}
    (h : others.map Part.blank = l.parts.map Part.blank) :
    ∃ l' : Shared, l'.parts = others ∧ l'.blank = l.blank := by
  simp only [Shared.parts, SideSections.parts, List.map_append] at h
  obtain ⟨side, values, rfl, h, h₄⟩ := List.map_eq_append_iff.mp h
  obtain ⟨front, packed, rfl, h, h₃⟩ := List.map_eq_append_iff.mp h
  obtain ⟨inlining, typeTags, rfl, h₁, h₂⟩ := List.map_eq_append_iff.mp h
  obtain ⟨inlining, rfl, hinlining⟩ := exists_optional_of_blank h₁
  obtain ⟨typeTags, rfl, htypeTags⟩ := exists_optional_of_blank h₂
  obtain ⟨packed, rfl, hpacked⟩ := exists_optional_of_blank h₃
  obtain ⟨values, rfl, hvalues⟩ := exists_values_of_blank h₄
  refine ⟨⟨⟨inlining, typeTags, packed⟩, values⟩, rfl, ?_⟩
  simp only [Shared.blank_eq, hinlining, htypeTags, hpacked, hvalues]

/-- Parts with the `blank`s of a layout make a layout that is `SameButSlack`. -/
theorem exists_layout_of_blank {l : Layout} {others : List Part}
    (h : others.map Part.blank = l.parts.map Part.blank) {header : Header}
    (hcount : header.objectCount = l.header.objectCount) :
    ∃ l' : Layout, l'.header = header ∧ l'.parts = others ∧ l.SameButSlack l' := by
  have hsingle : ∀ {s : Section} {parts : List Part},
      parts.map Part.blank = [s.part].map Part.blank →
        ∃ s', parts = [Section.part s'] ∧ s'.blank = s.blank := by
    intro s parts h
    obtain ⟨s' | s', hparts, hs⟩ := exists_optional_of_blank (s := some s) h
    · cases hs
    · exact ⟨s', hparts, Option.some.inj hs⟩
  have hparts := h
  simp only [Layout.parts, Layout.beforeRoot, List.map_append] at h
  obtain ⟨before, root, rfl, h, h₄⟩ := List.map_eq_append_iff.mp h
  obtain ⟨front, objects, rfl, h, h₃⟩ := List.map_eq_append_iff.mp h
  obtain ⟨tags, shared, rfl, h₁, h₂⟩ := List.map_eq_append_iff.mp h
  obtain ⟨tags, rfl, htags⟩ := hsingle h₁
  obtain ⟨shared, rfl, hshared⟩ := exists_shared_of_blank h₂
  obtain ⟨objects, rfl, hobjects⟩ := hsingle h₃
  obtain ⟨root, rfl, hroot⟩ := hsingle h₄
  exact ⟨{ shared with header, tags, objects, root }, rfl, rfl,
    ⟨htags, hshared, hobjects, hroot, hparts, hcount⟩⟩

/-- A layout that is `SameButSlack` `Describes` the same contents and events. -/
theorem Layout.Describes.of_sameButSlack {c : Configuration} {schema : Schema} {offset : Nat}
    {l l' : Layout} {m : Module} {events : List Event}
    (h : l.Describes c schema offset m events) (hsame : l.SameButSlack l')
    (hvalid : ∀ part ∈ l'.parts, part.Valid c.toWireFormat) :
    l'.Describes c schema offset { m with header := l'.header } events := by
  obtain ⟨objectsLog, rootLog, hdecodes, hevents⟩ := h.sections
  have hsite : ∀ setting own, l'.site setting own = l.site setting own := by
    intro setting own
    rw [← l'.site_blank, hsame.shared, l.site_blank]
  have htaken : ∀ lane, l'.taken lane = l.taken lane := by
    intro lane
    rw [← l'.taken_blank, hsame.shared, l.taken_blank]
  have hlabel : ∀ {s s' : Section}, s'.blank = s.blank →
      s'.taken = s.taken ∧ s'.frame.description = s.frame.description := fun h =>
    ⟨congrArg (·.taken) h, congrArg (·.frame.description) h⟩
  have hshared := hsame.shared
  simp only [Shared.blank_eq, Shared.mk.injEq, SideSections.mk.injEq] at hshared
  obtain ⟨⟨hinlining, htypeTags, hpacked⟩, hvalues⟩ := hshared
  have hparts := hsame.parts
  simp only [Layout.parts, List.map_append] at hparts
  obtain ⟨hbefore, hroot⟩ := List.append_inj' hparts rfl
  have hroot : l'.root.part.blank = l.root.part.blank := List.singleton_inj.mp hroot
  -- the fields of `Layout.Describes`, in their order
  refine ⟨h.configuration, rfl, ?_, hvalid, ?_, ⟨?_, ?_, ?_⟩, ?_, ?_,
    ⟨objectsLog, rootLog, ⟨?_, ?_, ?_, ?_, ?_⟩, ?_⟩, ?_⟩
  · rw [h.objectCount, h.header]
    exact hsame.objectCount.symm
  · rw [(hlabel hsame.tags).1]
    exact h.tags
  · rw [← h.side.inlining, ← Option.isSome_map, hinlining, Option.isSome_map]
  · rw [← h.side.typeTags, ← Option.isSome_map, htypeTags, Option.isSome_map]
  · rw [← h.side.packedIndices, ← Option.isSome_map, hpacked, Option.isSome_map]
  · rw [← List.length_map, hvalues, List.length_map]
    exact h.valueCount
  · intro entry hentry
    have hmem := List.mem_map_of_mem (f := fun entry => (entry.1, entry.2.blank)) hentry
    rw [hvalues] at hmem
    obtain ⟨old, hold, heq⟩ := List.mem_map.mp hmem
    obtain ⟨htag, hpart⟩ := Prod.mk.inj heq
    have hpreface : old.2.preface = entry.2.preface := congrArg (·.preface) hpart
    rw [← hpreface, ← htag]
    exact h.valueTags old hold
  · rw [hsite, (hlabel hsame.objects).2]
    exact hdecodes.objects
  · rw [hsite, (hlabel hsame.root).2]
    exact hdecodes.root
  · rw [(hlabel hsame.objects).1]
    exact hdecodes.objects_taken
  · rw [(hlabel hsame.root).1]
    exact hdecodes.root_taken
  · intro lane hlane
    rw [htaken]
    exact hdecodes.taken lane hlane
  · rw [hevents, Layout.openings, Layout.openings, Layout.rootOpening, Layout.rootOpening,
      Part.eachFrom_congr_of_map Part.length_bytes_blank Part.opening_blank hbefore,
      Part.length_bytesOf_congr hbefore, ← Part.opening_blank l'.root.part, hroot,
      Part.opening_blank]
  · rw [h.streams]
    exact Part.eachFrom_congr_of_map Part.length_bytes_blank Part.use_blank hsame.parts.symm offset

end Decode

namespace Module

open Decode

/-- A position whose byte plays no part: in the announced number of tags, or in what is left
over in a stream. -/
def IsSlack (m : Module) (position : Nat) : Prop :=
  (magic.length ≤ position ∧ position < magic.length + 4) ∨ ∃ s ∈ m.streams, s.Leaves position

instance (m : Module) (position : Nat) : Decidable (m.IsSlack position) :=
  inferInstanceAs (Decidable (_ ∨ _))

variable {bytes other : Bytes} {c : Configuration} {schema : Schema} {limits : Limits}
  {m : Module} {events : List Event}

/-- Bytes that agree with a header but for the number of tags are those of a header that `Fits`,
with the same `objectCount`. -/
theorem exists_header_of_agree {h : Header} (hfits : h.Fits) {first : Bytes}
    (hlen : first.length = Header.size)
    (hagree : ∀ i, i < Header.size → ¬(magic.length ≤ i ∧ i < magic.length + 4) →
      first[i]? = h.bytes[i]?) :
    ∃ h' : Header, h'.Fits ∧ h'.bytes = first ∧ h'.objectCount = h.objectCount := by
  have hbytes : h.bytes =
      magic ++ (Write.uint32 h.tagCount ++ Write.uint32 h.objectCount) := by
    simp [Header.bytes, Write.header]
  have hwidth : ∀ count, (Write.uint32 count).length = 4 := Bytes.length_ofNat 4
  rw [← Header.length_bytes h, hbytes] at hlen
  rw [hbytes] at hagree
  have hsize : first.length = Header.size := by
    rw [hlen]
    simp [hwidth, Header.size]
  obtain ⟨count, hcount, rfl⟩ := exists_segment_of_agree hlen fun i hi hout =>
    hagree i (hsize ▸ hi) (by rw [hwidth] at hout; omega)
  rw [hwidth] at hcount
  have hdigits := Bytes.ofNat_toNat count
  have hlt := Bytes.toNat_lt count
  rw [hcount] at hdigits hlt
  refine ⟨⟨Bytes.toNat count, h.objectCount⟩, ⟨by simpa using hlt, hfits.objectCount⟩, ?_, rfl⟩
  simp [Header.bytes, Write.header, Write.uint32, hdigits]

/-- Decoding goes by the bytes that it takes: other bytes that agree with an accepted container
below its `extent`, but for what `IsSlack`, are accepted by `decode` with the same contents and the
same events. -/
theorem decode_of_agree (h : decode bytes c schema limits = ⟨.ok m, events⟩)
    (hlen : m.extent ≤ other.length)
    (hagree : ∀ i, i < m.extent → ¬m.IsSlack i → other[i]? = bytes[i]?) :
    ∃ tagCount, decode other c schema limits =
      ⟨.ok { m with header := { m.header with tagCount } }, events⟩ := by
  obtain ⟨l, hfits, hdescribes, hp, hadmits⟩ := decode_eq_ok_iff.mp h
  have hsize : l.bytes.length = Header.size + (Part.bytesOf l.parts).length := by
    rw [Layout.bytes, List.length_append, Header.length_bytes]
  rw [hdescribes.extent_eq, hsize] at hlen hagree
  have hagree : ∀ i, i < Header.size + (Part.bytesOf l.parts).length → ¬m.IsSlack i →
      other[i]? = l.bytes[i]? := by
    obtain ⟨rest, rfl⟩ := hp
    intro i hi hslack
    rw [hagree i hi hslack, List.getElem?_append_left (by omega)]
  -- all streams are behind the header, so nothing in it is left over
  have hstreams : ∀ i, i < Header.size → ∀ s ∈ m.streams, ¬s.Leaves i := by
    intro i hi s hs hleaves
    rw [hdescribes.streams] at hs
    have := Part.le_offset_of_mem hs
    have := hleaves.1
    omega
  have hfirst : (other.take Header.size).length = Header.size := by
    rw [List.length_take]
    omega
  obtain ⟨header, hheader, hheaderBytes, hcount⟩ := exists_header_of_agree hfits hfirst
    fun i hi hout => by
      have hslack : ¬m.IsSlack i := by
        rintro (hslack | ⟨s, hs, hleaves⟩)
        · exact hout hslack
        · exact hstreams i hi s hs hleaves
      rw [List.getElem?_take_of_lt hi, hagree i (by omega) hslack, Layout.bytes,
        List.getElem?_append_left (by rwa [Header.length_bytes])]
  have hrest : (Part.bytesOf l.parts).length ≤ (other.drop Header.size).length := by
    rw [List.length_drop]
    omega
  obtain ⟨others, hblank, hvalid, hothers⟩ := Part.exists_of_agree hdescribes.parts Header.size
    hrest fun i hi hleaves => by
      have hslack : ¬m.IsSlack (Header.size + i) := by
        rintro (hslack | ⟨s, hs, hleft⟩)
        · have := hslack.2
          simp only [Header.size] at this
          omega
        · exact hleaves s (hdescribes.streams ▸ hs) hleft
      rw [List.getElem?_drop, hagree _ (by omega) hslack, Layout.bytes,
        List.getElem?_append_right (by rw [Header.length_bytes]; omega), Header.length_bytes]
      congr 1
      omega
  obtain ⟨l', rfl, rfl, hsame⟩ := exists_layout_of_blank hblank hcount
  refine ⟨l'.header.tagCount, decode_eq_ok_iff.mpr ⟨l', hheader, ?_, ?_, ?_⟩⟩
  · have hheaders : ({ m.header with tagCount := l'.header.tagCount } : Header) = l'.header := by
      rw [hdescribes.header]
      exact congrArg (Header.mk l'.header.tagCount) hcount.symm
    rw [hheaders]
    exact hdescribes.of_sameButSlack hsame hvalid
  · obtain ⟨rest, hrest⟩ := hothers
    refine ⟨rest, ?_⟩
    rw [Layout.bytes, List.append_assoc, hrest, hheaderBytes, List.take_append_drop]
  · exact ⟨hadmits.objectCount, hadmits.objects, hadmits.root, hadmits.streams⟩

/-- `loopContainer`, with another number of tags, another byte left over and a byte behind its end.
-/
theorem decode_of_agree_loopContainer :
    decode (loopContainer 1 0) {} loopSchema {} = ⟨.ok (loopModule 1), loopEvents⟩ ∧
      ∃ tagCount, decode (loopContainer 9 255 ++ [7]) {} loopSchema {} =
        ⟨.ok (loopModule tagCount), loopEvents⟩ := by
  have hlen : (loopModule 1).extent ≤ (loopContainer 9 255 ++ [7]).length := by decide
  have hagree : ∀ i, i < (loopModule 1).extent → ¬(loopModule 1).IsSlack i →
      (loopContainer 9 255 ++ [7])[i]? = (loopContainer 1 0)[i]? := by
    decide +kernel
  exact ⟨decode_loopContainer, decode_of_agree decode_loopContainer hlen hagree⟩

end Module

end BinaryAst
