import BinaryAst.Proofs.Container.Layout
import BinaryAst.Proofs.Decode.Decoders
/-!
# BinaryAst.Proofs.Container.Steps

Each step of reading a container parses its part of a layout.

The statements go through the steps as the text of `BinaryAst.Decode.Container` does,
up to the two sections. What a section takes from the streams is not known before it
is decoded, so the marks of a part play no role here.
-/

namespace BinaryAst.Decode

variable {format : WireFormat}

/-! ### Substreams -/

/-- `nextStream` parses a part with nothing before it. -/
theorem parses_part : Parses format Assemble.nextStream fun offset r bytes told =>
    ∃ s : Section, s.frame.Valid format ∧ bytes = s.part.bytes ∧
      r = s.part.reader format offset ∧ told = [opened r] := by
  refine parses_nextStream.congr fun offset r bytes told => ?_
  constructor
  · intro h
    rcases h with ⟨f, hf, rfl, rfl, rfl⟩
    exact ⟨⟨f, []⟩, hf, rfl, rfl, rfl⟩
  · intro h
    rcases h with ⟨s, hf, rfl, rfl, rfl⟩
    exact ⟨s.frame, hf, rfl, rfl, rfl⟩

/-- A substream that is there or not, as it should be. -/
structure IsOptional (format : WireFormat) (present : Bool) (s : Option Section) : Prop where
  isSome : s.isSome = present
  frame : ∀ part ∈ Section.optional s, part.frame.Valid format

theorem parses_nextStreamIf (present : Bool) : Parses format (Assemble.nextStreamIf present)
    fun offset r bytes told => ∃ s : Option Section, IsOptional format present s ∧
      bytes = Part.bytesOf (Section.optional s) ∧ r = s.map (·.part.reader format offset) ∧
        told = Part.eachFrom (Part.opening format) offset (Section.optional s) := by
  cases present with
  | false =>
      refine (Parses.pure none).congr fun offset r bytes told => ?_
      constructor
      · intro h
        rcases h with ⟨rfl, rfl, rfl⟩
        exact ⟨none, ⟨rfl, by simp [Section.optional]⟩, rfl, rfl, rfl⟩
      · intro h
        rcases h with ⟨s, ⟨hnone, -⟩, rfl, rfl, rfl⟩
        obtain rfl : s = none := by simpa using hnone
        exact ⟨rfl, rfl, rfl⟩
  | true =>
      refine (parses_part.map some).congr fun offset r bytes told => ?_
      constructor
      · intro h
        rcases h with ⟨_, ⟨s, hf, rfl, rfl, rfl⟩, rfl⟩
        exact ⟨some s, ⟨rfl, by simpa [Section.optional, Section.part] using hf⟩,
          by simp [Section.optional], rfl, rfl⟩
      · intro h
        rcases h with ⟨s, ⟨hsome, hf⟩, rfl, rfl, rfl⟩
        obtain ⟨s, rfl⟩ := Option.isSome_iff_exists.mp hsome
        exact ⟨_, ⟨s, by simpa [Section.optional, Section.part] using hf,
          by simp [Section.optional], rfl, rfl⟩, rfl⟩

/-! ### The tag table -/

/-- A name of a tag table. -/
def tagName (index : Nat) : Read String := do
  match ← Read.string with
  | some name => pure name
  | none => throw (.nullTagName index)

theorem tagNames_eq : Assemble.tagNames = (do collect (← Read.uint32) tagName) := rfl

theorem exact_tagNames : Read.Exact Assemble.tagNames := by
  have hcollect : ∀ left position, Read.Exact (collectFrom tagName left position []) := by
    intro left
    induction left with
    | zero => exact fun _ => .pure []
    | succ left ih =>
        intro position
        rw [collectFrom_succ]
        refine .bind (.bind Read.exact_string fun text => ?_) fun name =>
          (ih (position + 1)).bind fun names => .pure (name :: names)
        cases text with
        | some name => exact .pure name
        | none => exact .throw _
  rw [tagNames_eq]
  exact Read.exact_uint32.bind fun count => hcollect count 0

/-- `tagNames` parses the names of a tag table, and gives them with the reader after them. -/
theorem parses_tagNames (r : Reader) : Parses format
    (match Assemble.tagNames r with
      | .ok tags stream => pure (tags, stream)
      | .error e _ => throw e : Assemble (List String × Reader))
    fun _ v bytes told => ∃ taken, Read.Spells r.format Assemble.tagNames taken v.1 ∧
      taken <+: r.unread ∧ v.2 = r.skip taken.length ∧ bytes = [] ∧ told = [] := by
  cases h : Assemble.tagNames r with
  | ok tags stream =>
      refine (Parses.pure (tags, stream)).congr fun offset v bytes told => ?_
      obtain ⟨taken, hp, rfl, hspell, -⟩ := exact_tagNames r tags stream h
      constructor
      · intro h
        rcases h with ⟨rfl, rfl, rfl⟩
        exact ⟨taken, hspell, hp, rfl, rfl, rfl⟩
      · intro hgiven
        rcases hgiven with ⟨other, hother, hpo, hv, rfl, rfl⟩
        have hrun := hother r rfl hpo
        rw [h] at hrun
        injection hrun with htags hstream
        exact ⟨Prod.ext htags (hstream.trans hv.symm), rfl, rfl⟩
  | error e stream =>
      refine (Parses.throw e).congr fun offset v bytes told => ?_
      refine ⟨False.elim, ?_⟩
      intro hgiven
      rcases hgiven with ⟨taken, hspell, hp, -⟩
      have hrun := hspell r rfl hp
      rw [h] at hrun
      cases hrun

theorem parses_tagTable : Parses format Assemble.tagTable fun offset v bytes told =>
    ∃ s : Section, s.part.Valid format ∧ Read.Spells format Assemble.tagNames s.taken v.1 ∧
      bytes = s.part.bytes ∧ v.2 = s.part.done format offset ∧
        told = [s.part.opening format offset] := by
  refine (parses_nextStream.bind parses_tagNames).congr fun offset v bytes told => ?_
  constructor
  · intro h
    rcases h with ⟨_, _, _, _, _, ⟨f, hf, rfl, rfl, rfl⟩, ⟨taken, hspell, hp, hv, rfl, rfl⟩, rfl,
      rfl⟩
    exact ⟨⟨f, taken⟩, ⟨hf, hp⟩, hspell, by simp [Part.bytes, Section.part], hv, rfl⟩
  · intro h
    rcases h with ⟨s, ⟨hf, hp⟩, hspell, rfl, hv, rfl⟩
    exact ⟨_, _, _, [], [], ⟨s.frame, hf, rfl, rfl, rfl⟩, ⟨s.taken, hspell, hp, hv, rfl, rfl⟩,
      by simp [Part.bytes, Section.part], rfl⟩

/-! ### Side streams -/

theorem parses_sideStreams (c : Configuration) : Parses format (Assemble.sideStreams c)
    fun offset side bytes told => ∃ s : SideSections, s.Fits c ∧
      (∀ part ∈ s.parts, part.frame.Valid format) ∧ bytes = Part.bytesOf s.parts ∧
        side = s.readers format offset ∧
          told = Part.eachFrom (Part.opening format) offset s.parts := by
  refine ((parses_nextStreamIf c.separatesInliningFlags).bind fun inlining =>
    (parses_nextStreamIf c.typeTagStream).bind fun typeTags =>
      (parses_nextStreamIf c.separatesPackedIndices).bind fun packedIndices =>
        .pure (⟨inlining, typeTags, packedIndices⟩ : SideStreams)).congr
          fun offset side bytes told => ?_
  constructor
  · intro h
    rcases h with ⟨_, _, _, _, _, ⟨s₁, ⟨h₁, hv₁⟩, rfl, rfl, rfl⟩, ⟨_, _, _, _, _, ⟨s₂, ⟨h₂, hv₂⟩,
      rfl, rfl, rfl⟩, ⟨_, _, _, _, _, ⟨s₃, ⟨h₃, hv₃⟩, rfl, rfl, rfl⟩, ⟨rfl, rfl, rfl⟩, rfl, rfl⟩,
      rfl, rfl⟩, rfl, rfl⟩
    refine ⟨⟨s₁, s₂, s₃⟩, ⟨h₁, h₂, h₃⟩, ?_, ?_, ?_, ?_⟩
    · simp only [SideSections.parts, List.forall_mem_append]
      exact ⟨⟨hv₁, hv₂⟩, hv₃⟩
    · simp [SideSections.parts]
    · simp [SideSections.readers, Nat.add_assoc]
    · simp [SideSections.parts, Part.eachFrom_append, Nat.add_assoc]
  · intro h
    rcases h with ⟨⟨s₁, s₂, s₃⟩, ⟨h₁, h₂, h₃⟩, hv, rfl, rfl, rfl⟩
    simp only [SideSections.parts, List.forall_mem_append] at hv
    refine ⟨_, _, _, _, _, ⟨s₁, ⟨h₁, hv.1.1⟩, rfl, rfl, rfl⟩, ⟨_, _, _, _, _,
      ⟨s₂, ⟨h₂, hv.1.2⟩, rfl, rfl, rfl⟩, ⟨_, _, _, _, _, ⟨s₃, ⟨h₃, hv.2⟩, rfl, rfl, rfl⟩,
        ⟨?_, rfl, rfl⟩, rfl, rfl⟩, rfl, rfl⟩, ?_, ?_⟩
    · simp [SideSections.readers, Nat.add_assoc]
    · simp [SideSections.parts]
    · simp [SideSections.parts, Part.eachFrom_append, Nat.add_assoc]

/-! ### Value streams -/

/-- A value stream stands behind an index of its tag. -/
structure IsValueStream (format : WireFormat) (tags : List String) (entry : String × Part) :
    Prop where
  frame : entry.2.frame.Valid format
  index : ∃ index, Read.Spells format Read.index entry.2.preface (some index) ∧
    tags[index]? = some entry.1

theorem parses_valueStream (tags : List String) :
    Parses format (Assemble.valueStream tags.toArray) fun offset v bytes told =>
      ∃ entry : String × Part, IsValueStream format tags entry ∧ bytes = entry.2.bytes ∧
        v = (entry.1, entry.2.reader format offset) ∧
          told = [entry.2.opening format offset] := by
  refine ((Parses.read Read.exact_index).bind (q := fun index offset v bytes told =>
    ∃ i tag, index = some i ∧ tags[i]? = some tag ∧ ∃ f : Frame, f.Valid format ∧
      bytes = f.bytes ∧ v = (tag, f.reader format offset) ∧
        told = [opened (f.reader format offset)]) fun index => ?_).congr
          fun offset v bytes told => ?_
  -- Where the index names no tag, the step fails before any frame, and no passage has such an
  -- index.
  · cases h : tagAt tags.toArray index with
    | ok found =>
        obtain ⟨i, rfl, hi⟩ := tagAt_eq_ok_iff.mp h
        refine (parses_nextStream.map (found, ·)).congr fun offset v bytes told => ?_
        constructor
        · intro h
          rcases h with ⟨_, ⟨f, hf, rfl, rfl, rfl⟩, rfl⟩
          exact ⟨i, found, rfl, hi, f, hf, rfl, rfl, rfl⟩
        · intro h
          rcases h with ⟨j, tag, hj, htag, f, hf, rfl, rfl, rfl⟩
          obtain rfl := Option.some.inj hj
          obtain rfl : found = tag := Option.some.inj (hi.symm.trans htag)
          exact ⟨_, ⟨f, hf, rfl, rfl, rfl⟩, rfl⟩
    | error e =>
        refine (Parses.throw e).congr fun offset v bytes told => ?_
        refine ⟨False.elim, ?_⟩
        intro hgiven
        rcases hgiven with ⟨i, tag, rfl, htag, -⟩
        rw [tagAt_eq_ok_iff.mpr ⟨i, rfl, htag⟩] at h
        cases h
  · constructor
    · intro h
      rcases h with ⟨_, preface, _, _, _, ⟨hspell, rfl⟩, ⟨i, tag, rfl, htag, f, hf, rfl, rfl, rfl⟩,
        rfl, rfl⟩
      exact ⟨(tag, ⟨⟨f, []⟩, preface⟩), ⟨hf, i, hspell, htag⟩, rfl, rfl, rfl⟩
    · intro h
      rcases h with ⟨⟨tag, part⟩, ⟨hf, i, hspell, htag⟩, rfl, rfl, rfl⟩
      exact ⟨some i, part.preface, [], part.frame.bytes, _, ⟨hspell, rfl⟩,
        ⟨i, tag, rfl, htag, part.frame, hf, rfl, rfl, rfl⟩, rfl, rfl⟩

theorem repeated_valueStreams_iff {tags : List String} {offset : Nat}
    {values : List (String × Reader)} {bytes : Bytes} {told : List Event} :
    Parses.Repeated (fun offset v bytes told => ∃ entry : String × Part,
        IsValueStream format tags entry ∧ bytes = entry.2.bytes ∧
          v = (entry.1, entry.2.reader format offset) ∧
            told = [entry.2.opening format offset]) offset values bytes told ↔
      ∃ entries : List (String × Part), (∀ entry ∈ entries, IsValueStream format tags entry) ∧
        bytes = Part.bytesOf (entries.map (·.2)) ∧ values = valueReaders format offset entries ∧
          told = Part.eachFrom (Part.opening format) offset (entries.map (·.2)) := by
  constructor
  · intro h
    induction h with
    | nil => exact ⟨[], by simp, rfl, rfl, rfl⟩
    | cons hfirst _ ih =>
        obtain ⟨entry, hentry, rfl, rfl, rfl⟩ := hfirst
        obtain ⟨entries, hentries, rfl, rfl, rfl⟩ := ih
        exact ⟨entry :: entries, List.forall_mem_cons.mpr ⟨hentry, hentries⟩, rfl, rfl, rfl⟩
  · intro h
    rcases h with ⟨entries, hentries, rfl, rfl, rfl⟩
    induction entries generalizing offset with
    | nil => exact .nil
    | cons entry entries ih =>
        obtain ⟨hentry, hrest⟩ := List.forall_mem_cons.mp hentries
        exact .cons ⟨entry, hentry, rfl, rfl, rfl⟩ (ih hrest)

/-- `valueStreams` parses as many value streams (`IsValueStream`) as there are tags, or none. -/
theorem parses_valueStreams (c : Configuration) (tags : List String) :
    Parses format (Assemble.valueStreams c tags.toArray) fun offset values bytes told =>
      ∃ entries : List (String × Part),
        entries.length = (if c.valueStreamPerType then tags.length else 0) ∧
        (∀ entry ∈ entries, IsValueStream format tags entry) ∧
        bytes = Part.bytesOf (entries.map (·.2)) ∧
        values = (valueReaders format offset entries).toArray ∧
        told = Part.eachFrom (Part.opening format) offset (entries.map (·.2)) := by
  unfold Assemble.valueStreams
  split
  case isTrue =>
    refine ((Parses.collectFrom (parses_valueStream tags) tags.toArray.size 0).map
      List.toArray).congr fun offset values bytes told => ?_
    simp only [repeated_valueStreams_iff]
    constructor
    · intro h
      rcases h with ⟨_, ⟨hlen, entries, hentries, rfl, rfl, rfl⟩, rfl⟩
      rw [length_valueReaders] at hlen
      exact ⟨entries, by simpa using hlen, hentries, rfl, rfl, rfl⟩
    · intro h
      rcases h with ⟨entries, hlen, hentries, rfl, rfl, rfl⟩
      exact ⟨_, ⟨by simpa [length_valueReaders] using hlen, entries, hentries, rfl, rfl, rfl⟩, rfl⟩
  case isFalse =>
    -- With values in the stream of their object, there are no entries.
    refine (Parses.pure #[]).congr fun offset values bytes told => ?_
    constructor
    · intro h
      rcases h with ⟨rfl, rfl, rfl⟩
      exact ⟨[], rfl, by simp, rfl, rfl, rfl⟩
    · intro h
      rcases h with ⟨entries, hlen, -, rfl, rfl, rfl⟩
      obtain rfl := List.length_eq_zero_iff.mp hlen
      exact ⟨rfl, rfl, rfl⟩

/-- The streams that both sections share. -/
def sharedStreams (c : Configuration) (tags : List String) :
    Assemble (SideStreams × Array (String × Reader)) := do
  let side ← Assemble.sideStreams c
  let values ← Assemble.valueStreams c tags.toArray
  pure (side, values)

/-- The shared streams are those that the configuration and the tag table call for. -/
structure Shared.Stands (c : Configuration) (tags : List String) (l : Shared) : Prop where
  side : l.side.Fits c
  sideFrames : ∀ part ∈ l.side.parts, part.frame.Valid c.toWireFormat
  valueCount : l.values.length = if c.valueStreamPerType then tags.length else 0
  valueStreams : ∀ entry ∈ l.values, IsValueStream c.toWireFormat tags entry

/-- Shared streams that stand at an offset. -/
structure SharedAt (c : Configuration) (tags : List String) (spot : Shared × Nat) (offset : Nat)
    (v : SideStreams × Array (String × Reader)) (bytes : Bytes) (told : List Event) : Prop where
  offset_eq : spot.2 = offset
  stands : spot.1.Stands c tags
  bytes_eq : bytes = Part.bytesOf spot.1.parts
  value_eq : v = (spot.1.side.readers c.toWireFormat spot.2, spot.1.streams c.toWireFormat spot.2)
  told_eq : told = Part.eachFrom (Part.opening c.toWireFormat) spot.2 spot.1.parts

theorem parses_sharedStreams (c : Configuration) (tags : List String) :
    Parses c.toWireFormat (sharedStreams c tags) fun offset v bytes told =>
      ∃ spot, SharedAt c tags spot offset v bytes told := by
  refine ((parses_sideStreams c).bind fun side => (parses_valueStreams c tags).map (side, ·)).congr
    fun offset v bytes told => ?_
  constructor
  · intro h
    rcases h with ⟨_, _, _, _, _, ⟨s, hs, hframes, rfl, rfl, rfl⟩, ⟨_, ⟨entries, hcount, hentries,
      rfl, rfl, rfl⟩, rfl⟩, rfl, rfl⟩
    exact ⟨(⟨s, entries⟩, offset), rfl, ⟨hs, hframes, hcount, hentries⟩,
      by simp [Shared.parts], rfl, by simp [Shared.parts, Part.eachFrom_append]⟩
  · intro h
    rcases h with ⟨⟨l, _⟩, rfl, ⟨hs, hframes, hcount, hentries⟩, rfl, rfl, rfl⟩
    exact ⟨_, _, _, _, _, ⟨l.side, hs, hframes, rfl, rfl, rfl⟩, ⟨_, ⟨l.values, hcount, hentries,
      rfl, rfl, rfl⟩, rfl⟩, by simp [Shared.parts], by simp [Shared.parts, Part.eachFrom_append]⟩

/-! ### Sections -/

variable {n : Nat} {α : Type}

/-- The state without its events, which the container has already told. -/
def State.quiet (s : State n) : State n := { s with events := #[] }

/-- A section, with the streams as they are after it. -/
def readSection (step : Step n α) (own : Reader) (values : Vector Reader n)
    (side : SideStreams) : Assemble (α × State n) :=
  (fun v => (v.1, v.2.quiet)) <$> Assemble.decodeSection step own values side

/-- `readSection` takes nothing from the container itself: it succeeds where its streams cover a log
of the section (`Covers`), and tells what the log tells. -/
theorem parses_readSection {site : Site} {step : Step n α} {language : Language α}
    (hstep : Recognises site step language) {own : Reader} {values : Vector Reader n}
    {side : SideStreams} (hfits : (State.opening own values side).Fits site) :
    Parses format (readSection step own values side) fun _ v bytes told =>
      ∃ log, language v.1 log ∧ (State.opening own values side).Covers log ∧
        v.2 = ((State.opening own values side).after log).quiet ∧ bytes = [] ∧
          told = log.told := by
  refine Parses.of_nil (by rintro _ _ _ _ ⟨_, _, _, _, h, _⟩; exact h) fun s v t _ => ?_
  have hfits' : State.Fits site { own, values, side, events := s.events : State n } :=
    ⟨hfits.lane, hfits.inlining, hfits.typeTags, hfits.packedIndices⟩
  rw [readSection, map_eq_ok_iff]
  constructor
  · intro h
    rcases h with ⟨⟨w, after⟩, hrun, rfl⟩
    unfold Assemble.decodeSection at hrun
    split at hrun
    case h_1 value after' hvalue =>
      obtain ⟨⟨rfl, rfl⟩, rfl⟩ : (value = w ∧ after' = after) ∧
          { s with events := after'.events } = t := by simpa using hrun
      obtain ⟨log, hlog, hcovers, rfl⟩ := (hstep _ _ _ hfits').mp hvalue
      exact ⟨log.told, ⟨log, hlog, hcovers, rfl, rfl, rfl⟩, rfl⟩
    case h_2 => cases hrun
  · obtain ⟨w, after⟩ := v
    intro h
    rcases h with ⟨_, ⟨log, hlog, hcovers, rfl, -, rfl⟩, rfl⟩
    have hrun := (hstep { own, values, side, events := s.events } w _ hfits').mpr
      ⟨log, hlog, hcovers, rfl⟩
    refine ⟨(w, State.after { own, values, side, events := s.events } log), ?_, rfl⟩
    simp only [Assemble.decodeSection, hrun]
    rfl

end BinaryAst.Decode
