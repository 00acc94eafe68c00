import BinaryAst.Proofs.Container.Layout
import BinaryAst.Proofs.Decode.Recognition
/-!
# BinaryAst.Proofs.Container.Marks

What the two sections take from the streams they share.

The parts of a container are cut before anything is decoded, and only the logs of the
sections say how far each stream is read. So the marks are set last
(`Shared.mark`), and setting them changes nothing that was settled before: not the bytes,
not the readers, not what values are encoded relative to.
-/

namespace BinaryAst.Decode

/-! ### Setting marks -/

/-- The part with nothing marked. -/
def Part.unmark (p : Part) : Part := { p with taken := [] }

/-- Parts that agree but for their `Part.taken` have the same bytes. -/
theorem Part.bytesOf_congr {parts others : List Part}
    (h : parts.map unmark = others.map unmark) : bytesOf parts = bytesOf others := by
  have hmap : ∀ parts, bytesOf (parts.map unmark) = bytesOf parts := fun parts => by
    rw [bytesOf, List.flatMap_map]
    rfl
  rw [← hmap, h, hmap]

/-- Parts that agree but for their `Part.taken` have the same openings. -/
theorem Part.openings_congr {parts others : List Part}
    (h : parts.map unmark = others.map unmark) (format : WireFormat) (offset : Nat) :
    eachFrom (opening format) offset parts = eachFrom (opening format) offset others :=
  eachFrom_congr_of_map (g := unmark) (fun _ => rfl) (fun _ _ => rfl) h offset

namespace Shared

/-- The streams, each revised as its lane calls for. -/
def revise (f : Lane → Section → Section) (l : Shared) : Shared where
  side :=
    { inlining := l.side.inlining.map (f .inlining)
      typeTags := l.side.typeTags.map (f .typeTags)
      packedIndices := l.side.packedIndices.map (f .packedIndices) }
  values := l.values.mapIdx fun i entry =>
    (entry.1, { entry.2 with toSection := f (.values i) entry.2.toSection })

section revise

variable {f : Lane → Section → Section} (l : Shared)

theorem section?_revise (lane : Lane) :
    (l.revise f).section? lane = (l.section? lane).map (f lane) := by
  cases lane with
  | own | inlining | typeTags | packedIndices => rfl
  | values i => simp [section?, revise, Function.comp_def]

/-- What does not see what `revise` changes is the same for revised value streams. -/
theorem map_values_revise {α : Type} {g : String × Part → α}
    (h : ∀ i entry, g (entry.1, { entry.2 with toSection := f (.values i) entry.2.toSection }) =
      g entry) : (l.revise f).values.map g = l.values.map g := by
  refine List.ext_getElem? fun i => ?_
  simp only [revise, List.getElem?_map, List.getElem?_mapIdx, Option.map_map]
  congr 1
  funext entry
  exact h i entry

theorem describe_revise (h : ∀ lane s, (f lane s).frame.description = s.frame.description)
    (own : String) : (l.revise f).describe own = l.describe own := by
  funext lane
  cases lane with
  | own => rfl
  | values i | inlining | typeTags | packedIndices =>
      simp [describe, section?_revise, Option.map_map, Function.comp_def, h]

/-- A revision that keeps the descriptions keeps the `Shared.site`, that is what values are encoded
relative to. -/
theorem site_revise (h : ∀ lane s, (f lane s).frame.description = s.frame.description)
    (setting : Setting) (own : String) :
    (l.revise f).site setting own = l.site setting own := by
  have hroute : (l.revise f).route = l.route := by
    funext tag
    rw [route, route, l.map_values_revise fun _ _ => rfl]
  rw [site, site, hroute, l.describe_revise h]

end revise

/-- The streams, marked with what a log takes from them. -/
def mark (l : Shared) (log : Log) : Shared :=
  l.revise fun lane s => { s with taken := log.taken lane }

variable (l : Shared) (log : Log)

theorem unmark_parts_mark : (l.mark log).parts.map Part.unmark = l.parts.map Part.unmark := by
  have hvalues : (l.mark log).values.map (fun entry => entry.2.unmark) =
      l.values.map fun entry => entry.2.unmark := l.map_values_revise fun _ _ => rfl
  have hside : (l.mark log).side.parts.map Part.unmark = l.side.parts.map Part.unmark := by
    obtain ⟨⟨_ | _, _ | _, _ | _⟩, _⟩ := l <;> rfl
  simp only [parts, List.map_append, List.map_map, hside]
  exact congrArg _ hvalues

theorem site_mark (setting : Setting) (own : String) :
    (l.mark log).site setting own = l.site setting own :=
  l.site_revise (f := fun lane s => { s with taken := log.taken lane }) (fun _ _ => rfl) setting own

theorem taken_mark {lane : Lane} (h : (l.section? lane).isSome ∨ log.taken lane = []) :
    (l.mark log).taken lane = log.taken lane := by
  rw [taken, mark, section?_revise]
  cases hs : l.section? lane with
  | some s => rfl
  | none => simpa [hs] using h.symm

/-- `Shared.mark` changes nothing where the marks are those of the log already. -/
theorem mark_eq_self {l : Shared} {log : Log}
    (h : ∀ lane, lane ≠ .own → l.taken lane = log.taken lane) : l.mark log = l := by
  have hmark : ∀ lane s, lane ≠ .own → l.section? lane = some s →
      ({ s with taken := log.taken lane } : Section) = s := by
    intro lane s hlane hs
    rw [← h lane hlane, taken, hs]
    rfl
  have hside : ∀ lane (s : Option Section), lane ≠ .own → l.section? lane = s →
      s.map ({ · with taken := log.taken lane }) = s := by
    intro lane s hlane hs
    cases s with
    | none => rfl
    | some s => exact congrArg some (hmark lane s hlane hs)
  obtain ⟨⟨inlining, typeTags, packedIndices⟩, values⟩ := l
  have hvalues : values.mapIdx (fun i entry =>
      (entry.1, ({ entry.2 with taken := log.taken (.values i) } : Part))) = values := by
    refine List.ext_getElem? fun i => ?_
    rw [List.getElem?_mapIdx]
    cases hi : values[i]? with
    | none => rfl
    | some entry =>
        have := hmark (.values i) entry.2.toSection (by simp) (by simp [section?, hi])
        obtain ⟨tag, ⟨s, preface⟩⟩ := entry
        exact congrArg (fun s => some (tag, (⟨s, preface⟩ : Part))) this
  simp only [mark, revise, hvalues, hside .inlining inlining (by simp) rfl,
    hside .typeTags typeTags (by simp) rfl, hside .packedIndices packedIndices (by simp) rfl]

end Shared

/-! ### States -/

variable {n : Nat}

theorem State.lane?_opening {s : State n} {own : Reader} {lane : Lane} (hlane : lane ≠ .own) :
    (State.opening own s.values s.side).lane? lane = s.lane? lane := by
  cases lane with
  | own => exact absurd rfl hlane
  | _ => rfl

/-- Two sections one after the other are covered (`Covers`) when each has its own bytes in its own
stream, and the streams they share have those of both logs. -/
theorem State.covers_both_iff {s : State n} {own : Reader} {log more : Log} :
    s.Covers log ∧ (State.opening own (s.after log).values (s.after log).side).Covers more ↔
      log.taken .own <+: s.own.unread ∧ more.taken .own <+: own.unread ∧
        ∀ lane, lane ≠ .own → (log ++ more).taken lane <+: s.ahead lane := by
  have hahead : ∀ lane, lane ≠ .own →
      (State.opening own (s.after log).values (s.after log).side).ahead lane =
        (s.ahead lane).drop (log.taken lane).length := by
    intro lane hlane
    rw [← ahead_after, ahead, lane?_opening hlane, ahead]
  constructor
  · intro h
    rcases h with ⟨hlog, hmore⟩
    refine ⟨hlog .own, hmore .own, fun lane hlane => ?_⟩
    rw [Log.taken_append, prefix_append_iff]
    exact ⟨hlog lane, hahead lane hlane ▸ hmore lane⟩
  · intro h
    rcases h with ⟨hown, hnext, hshared⟩
    simp only [Log.taken_append, prefix_append_iff] at hshared
    constructor
    · intro lane
      by_cases hlane : lane = .own
      · exact hlane ▸ hown
      · exact (hshared lane hlane).1
    · intro lane
      by_cases hlane : lane = .own
      · exact hlane ▸ hnext
      · exact hahead lane hlane ▸ (hshared lane hlane).2

namespace Shared

variable {format : WireFormat} {offset : Nat}

/-- The bytes of the payload of a lane. -/
def payload (l : Shared) (lane : Lane) : Bytes :=
  ((l.section? lane).map (·.frame.payload)).getD []

theorem ahead_state (l : Shared) (own : Reader) {lane : Lane} (hlane : lane ≠ .own) :
    (l.state format offset own).ahead lane = l.payload lane := by
  rw [State.ahead, l.lane?_state format offset own hlane, payload]
  cases l.section? lane <;> rfl

theorem lookup_routesOf (values : Array (String × Reader)) (tag : String) :
    ((Assemble.routesOf values).lookup tag).map Fin.val =
      (values.toList.map (·.1)).zipIdx.reverse.lookup tag := by
  have hlookup : ∀ routes : List (String × Fin values.size),
      (routes.lookup tag).map Fin.val = (routes.map fun r => (r.1, r.2.val)).lookup tag := by
    intro routes
    induction routes with
    | nil => rfl
    | cons route routes ih =>
        obtain ⟨name, i⟩ := route
        simp only [List.map_cons, List.lookup_cons]
        cases tag == name with
        | true => rfl
        | false => exact ih
  have hroutes : (List.finRange values.size).map
      ((fun r => (r.1, r.2.val)) ∘ fun i : Fin values.size => (values[i].1, i)) =
        (values.toList.map (·.1)).zipIdx := by
    refine List.ext_getElem (by simp) fun i _ _ => ?_
    simp
  rw [hlookup, Assemble.routesOf, List.map_map, List.map_reverse, hroutes]

/-- The routes of a context go by the tags of the value streams, as `Shared.route` does. -/
theorem lookup_streams (l : Shared) (tag : String) :
    ((Assemble.routesOf (l.streams format offset)).lookup tag).map Fin.val = l.route tag := by
  rw [lookup_routesOf, route]
  simp [streams, map_fst_valueReaders]

/-- A state whose shared streams are those of `Shared`, however far they have been read, `Fits` its
section. -/
theorem fits_of {l : Shared} (setting : Setting) (hside : l.side.Fits setting.configuration)
    (start : Reader) {s : State (l.streams format offset).size} (hown : s.own.format = format)
    (hformat : setting.configuration.toWireFormat = format)
    (hshared : ∀ lane, lane ≠ .own → ∃ count, s.lane? lane =
      ((l.state format offset start).lane? lane).map (·.skip count)) :
    s.Fits (l.site setting s.own.description) := by
  have hsome : ∀ lane, lane ≠ .own → (s.lane? lane).isSome = (l.section? lane).isSome := by
    intro lane hlane
    obtain ⟨count, hcount⟩ := hshared lane hlane
    rw [hcount, l.lane?_state format offset start hlane, Option.isSome_map, Option.isSome_map]
  refine ⟨fun lane r hr => ?_, ?_, ?_, ?_⟩
  · by_cases hlane : lane = .own
    · subst hlane
      obtain rfl : s.own = r := Option.some.inj hr
      exact ⟨hown.trans hformat.symm, rfl⟩
    · obtain ⟨count, hcount⟩ := hshared lane hlane
      rw [hcount, l.lane?_state format offset start hlane, Option.map_map] at hr
      obtain ⟨sec, hsec, rfl⟩ := Option.map_eq_some_iff.mp hr
      refine ⟨hformat.symm, ?_⟩
      cases lane with
      | own => exact absurd rfl hlane
      | _ => simp [site, describe, hsec]
  · exact (hsome .inlining (by simp)).trans hside.inlining
  · exact (hsome .typeTags (by simp)).trans hside.typeTags
  · exact (hsome .packedIndices (by simp)).trans hside.packedIndices

/-- Behind `Shared.mark`, what is marked in a stream is what the log takes from it: nothing is taken
from a stream that is not there. -/
theorem taken_mark_of_isPrefix {l : Shared} {log : Log} {lane : Lane}
    (h : log.taken lane <+: l.payload lane) : (l.mark log).taken lane = log.taken lane := by
  refine l.taken_mark log ?_
  cases hs : l.section? lane with
  | some s => exact .inl rfl
  | none =>
      rw [payload, hs] at h
      exact .inr (List.prefix_nil.mp h)

/-- Streams with valid frames make `Part.Valid` parts once they are marked with bytes that their
payloads start with. -/
theorem valid_of_mem_mark {l : Shared} {log : Log}
    (hside : ∀ part ∈ l.side.parts, part.frame.Valid format)
    (hvalues : ∀ entry ∈ l.values, entry.2.frame.Valid format)
    (htaken : ∀ lane, lane ≠ .own → log.taken lane <+: l.payload lane) :
    ∀ part ∈ (l.mark log).parts, part.Valid format := by
  have hlane : ∀ lane s, lane ≠ .own → l.section? lane = some s →
      log.taken lane <+: s.frame.payload := by
    intro lane s hlane hs
    simpa [payload, hs] using htaken lane hlane
  intro part hpart
  rcases List.mem_append.mp hpart with hpart | hpart
  · obtain ⟨⟨inlining, typeTags, packedIndices⟩, values⟩ := l
    simp only [SideSections.parts, mark, revise, Section.optional, List.mem_append, List.mem_map,
      Option.mem_toList, Option.map_eq_some_iff] at hpart hside
    rcases hpart with (⟨_, ⟨s, hs, rfl⟩, rfl⟩ | ⟨_, ⟨s, hs, rfl⟩, rfl⟩) | ⟨_, ⟨s, hs, rfl⟩, rfl⟩
    · exact ⟨hside s.part (.inl (.inl ⟨s, hs, rfl⟩)), hlane .inlining s (by simp) hs⟩
    · exact ⟨hside s.part (.inl (.inr ⟨s, hs, rfl⟩)), hlane .typeTags s (by simp) hs⟩
    · exact ⟨hside s.part (.inr ⟨s, hs, rfl⟩), hlane .packedIndices s (by simp) hs⟩
  · obtain ⟨entry, hentry, rfl⟩ := List.mem_map.mp hpart
    obtain ⟨i, hi, rfl⟩ := List.mem_mapIdx.mp hentry
    have hsection : l.section? (.values i) = some l.values[i].2.toSection := by
      rw [section?, List.getElem?_eq_getElem hi]
      rfl
    exact ⟨hvalues l.values[i] (List.getElem_mem hi), hlane _ l.values[i].2.toSection (by simp)
      hsection⟩

/-- Each lane for which there is a `section?` is one of the parts. -/
theorem exists_part_of_section? {l : Shared} {lane : Lane} {s : Section}
    (h : l.section? lane = some s) : ∃ part ∈ l.parts, part.toSection = s := by
  have hoptional : ∀ other : Option Section, other = some s → s.part ∈ Section.optional other := by
    rintro _ rfl
    simp [Section.optional]
  cases lane with
  | own => cases h
  | values i =>
      obtain ⟨entry, hentry, rfl⟩ := Option.map_eq_some_iff.mp h
      exact ⟨entry.2, List.mem_append_right _ (List.mem_map_of_mem (List.mem_of_getElem? hentry)),
        rfl⟩
  | inlining =>
      exact ⟨s.part, List.mem_append_left _ (List.mem_append_left _ (List.mem_append_left _
        (hoptional _ h))), rfl⟩
  | typeTags =>
      exact ⟨s.part, List.mem_append_left _ (List.mem_append_left _ (List.mem_append_right _
        (hoptional _ h))), rfl⟩
  | packedIndices =>
      exact ⟨s.part, List.mem_append_left _ (List.mem_append_right _ (hoptional _ h)), rfl⟩

/-- A lane whose parts are `Valid` starts with the bytes that are marked in it as `taken`. -/
theorem taken_prefix_payload {l : Shared} (hl : ∀ part ∈ l.parts, part.Valid format) (lane : Lane) :
    l.taken lane <+: l.payload lane := by
  rw [taken, payload]
  cases hs : l.section? lane with
  | none => exact List.nil_prefix
  | some s =>
      obtain ⟨part, hpart, rfl⟩ := exists_part_of_section? hs
      exact (hl part hpart).taken

end Shared

end BinaryAst.Decode
