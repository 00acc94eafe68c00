import BinaryAst.Decode.Repeat
import BinaryAst.Proofs.Decode.Grammar
/-!
# BinaryAst.Proofs.Decode.Recognition

What it means for a step to decode a language.

A `Language` says which logs a value has. A step `Recognises` a language when it succeeds
exactly where the streams have a log of the language ahead, gives the value of the log, and
leaves the state that the log leads to. Recognition says both that nothing else is accepted and
that nothing of the language is refused, and it is closed under everything that steps are built
with, so each decoder has one statement and each statement follows the text of its decoder.
-/

namespace BinaryAst.Decode

variable {n : Nat} {α β : Type}

/-- The state has the streams that the configuration calls for, in its format, under
their names. -/
structure State.Fits (site : Site) (s : State n) : Prop where
  lane : ∀ lane r, s.lane? lane = some r →
    r.format = site.format ∧ r.description = site.describe lane
  inlining : s.side.inlining.isSome = site.configuration.separatesInliningFlags
  typeTags : s.side.typeTags.isSome = site.configuration.typeTagStream
  packedIndices : s.side.packedIndices.isSome = site.configuration.separatesPackedIndices

/-- `after` takes bytes from the streams and leaves their formats and names, so the state still
`Fits`. -/
theorem State.Fits.after {site : Site} {s : State n} (h : s.Fits site) (log : Log) :
    (s.after log).Fits site := by
  refine ⟨fun lane r hr => ?_, ?_, ?_, ?_⟩
  · rw [lane?_after] at hr
    obtain ⟨r', hr', rfl⟩ := Option.map_eq_some_iff.mp hr
    exact h.lane lane r' hr'
  · simpa [State.after] using h.inlining
  · simpa [State.after] using h.typeTags
  · simpa [State.after] using h.packedIndices

/-- Which logs a value has. -/
abbrev Language (α : Type) := α → Log → Prop

/-- The step succeeds exactly where the streams have a log of the language ahead, with the value of
the log and in the state after it. -/
def Recognises (site : Site) (step : Step n α) (language : Language α) : Prop :=
  ∀ s v t, s.Fits site →
    (step s = .ok v t ↔ ∃ log, language v log ∧ s.Covers log ∧ t = s.after log)

namespace Recognises

variable {site : Site}

theorem congr {step : Step n α} {language other : Language α}
    (h : Recognises site step language) (heq : ∀ v log, language v log ↔ other v log) :
    Recognises site step other := by
  intro s v t hs
  rw [h s v t hs]
  simp only [heq]

theorem pure (v : α) : Recognises site (Pure.pure v : Step n α) fun w log => v = w ∧ log = [] := by
  intro s w t _
  rw [pure_eq_ok_iff]
  constructor
  · intro h
    rcases h with ⟨rfl, rfl⟩
    exact ⟨[], ⟨rfl, rfl⟩, s.covers_nil, s.after_nil.symm⟩
  · intro h
    rcases h with ⟨log, ⟨rfl, rfl⟩, -, rfl⟩
    exact ⟨rfl, s.after_nil.symm⟩

theorem throw (e : DecodeError) : Recognises site (throw e : Step n α) fun _ _ => False := by
  intro s w t _
  simp [throw_ne_ok]

/-- `Recognises` is closed under `>>=`: the logs are those of the first step with those of the
second behind them. -/
theorem bind {x : Step n α} {f : α → Step n β} {p : Language α} {q : α → Language β}
    (hx : Recognises site x p) (hf : ∀ v, Recognises site (f v) (q v)) :
    Recognises site (x >>= f) fun w log => ∃ v l m, p v l ∧ q v w m ∧ log = l ++ m := by
  intro s w t hs
  rw [bind_eq_ok_iff]
  constructor
  · intro h
    rcases h with ⟨v, s', hv, hw⟩
    obtain ⟨l, hl, hcl, rfl⟩ := (hx s v s' hs).mp hv
    obtain ⟨m, hm, hcm, rfl⟩ := (hf v _ w t (hs.after l)).mp hw
    exact ⟨l ++ m, ⟨v, l, m, hl, hm, rfl⟩, State.covers_append_iff.mpr ⟨hcl, hcm⟩,
      (s.after_append l m).symm⟩
  · intro h
    rcases h with ⟨_, ⟨v, l, m, hl, hm, rfl⟩, hc, rfl⟩
    obtain ⟨hcl, hcm⟩ := State.covers_append_iff.mp hc
    exact ⟨v, s.after l, (hx s v _ hs).mpr ⟨l, hl, hcl, rfl⟩,
      (hf v _ w _ (hs.after l)).mpr ⟨m, hm, hcm, s.after_append l m⟩⟩

theorem map {x : Step n α} {language : Language α} (g : α → β)
    (hx : Recognises site x language) :
    Recognises site (g <$> x) fun w log => ∃ v, language v log ∧ g v = w := by
  intro s w t hs
  rw [map_eq_ok_iff]
  constructor
  · intro h
    rcases h with ⟨v, hv, rfl⟩
    obtain ⟨log, hl, hc, rfl⟩ := (hx s v t hs).mp hv
    exact ⟨log, ⟨v, hl, rfl⟩, hc, rfl⟩
  · intro h
    rcases h with ⟨log, ⟨v, hl, rfl⟩, hc, rfl⟩
    exact ⟨v, (hx s v _ hs).mpr ⟨log, hl, hc, rfl⟩, rfl⟩

/-- A step that goes one of two ways recognises the language of the way it goes. -/
theorem ite {p : Prop} [Decidable p] {x y : Step n α} {first second : Language α}
    (hx : p → Recognises site x first) (hy : ¬p → Recognises site y second) :
    Recognises site (if p then x else y) fun v log => if p then first v log else second v log := by
  split
  case isTrue h => exact hx h
  case isFalse h => exact hy h

/-! ### Reads -/

/-- A read of one stream recognises the bytes that spell what it reads, as a single take. The read
may look at the description of the stream, so `spelled` is a parameter. -/
theorem serve {s t : State n} {lane : Lane} {r : Reader} {putBack : Reader → State n}
    {read : Read α} {spelled : α → Bytes → Prop} {v : α}
    (hread : ∀ v r', read r = .ok v r' ↔
      ∃ bytes, spelled v bytes ∧ bytes <+: r.unread ∧ r' = r.skip bytes.length)
    (hr : s.lane? lane = some r)
    (hput : ∀ r' other, (putBack r').lane? other =
      if lane = other then some r' else s.lane? other)
    (hevents : ∀ r', (putBack r').events = s.events) :
    State.serve r putBack read = .ok v t ↔
      ∃ log, (∃ bytes, spelled v bytes ∧ log = [.take lane bytes]) ∧ s.Covers log ∧
        t = s.after log := by
  -- putting the reader back is what the log of the read does to the state
  have hafter : ∀ bytes : Bytes, putBack (r.skip bytes.length) = s.after [.take lane bytes] :=
    fun bytes => State.after_take hr (hput _) (hevents _)
  constructor
  · intro h
    unfold State.serve at h
    split at h
    case h_1 w r' hw =>
      obtain ⟨rfl, rfl⟩ : w = v ∧ putBack r' = t := by simpa using h
      obtain ⟨bytes, hsp, hp, rfl⟩ := (hread _ _).mp hw
      exact ⟨_, ⟨bytes, hsp, rfl⟩, (State.covers_take hr).mpr hp, hafter bytes⟩
    case h_2 => cases h
  · intro h
    rcases h with ⟨_, ⟨bytes, hsp, rfl⟩, hc, rfl⟩
    have hrun := (hread v _).mpr ⟨bytes, hsp, (State.covers_take hr).mp hc, rfl⟩
    simp only [State.serve, hrun, hafter]

/-- `fromSource` recognises what its read gives, taken from the lane of the source. -/
theorem fromSource_of {read : Read α} {spelled : α → Bytes → Prop} (source : Source n)
    (hread : ∀ r : Reader, r.format = site.format → r.description = site.describe source.lane →
      ∀ v r', read r = .ok v r' ↔
        ∃ bytes, spelled v bytes ∧ bytes <+: r.unread ∧ r' = r.skip bytes.length) :
    Recognises site (Step.fromSource source read) fun v log =>
      ∃ bytes, spelled v bytes ∧ log = [.take source.lane bytes] := by
  intro s v t hs
  have hr := s.lane?_source source
  obtain ⟨hformat, hdesc⟩ := hs.lane _ _ hr
  refine serve (hread _ hformat hdesc) hr (fun r' other => s.lane?_setReader source r' other) ?_
  intro r'
  cases source <;> rfl

/-- What an exact read does, as `serve` wants it. -/
theorem exact_iff {read : Read α} (hread : read.Exact) {format : WireFormat} {r : Reader}
    (hr : r.format = format) (v : α) (r' : Reader) :
    read r = .ok v r' ↔ ∃ bytes, read.Spells format bytes v ∧ bytes <+: r.unread ∧
      r' = r.skip bytes.length := by
  subst hr
  constructor
  · intro h
    obtain ⟨bytes, hp, hr', hs, -⟩ := hread r v r' h
    exact ⟨bytes, hs, hp, hr'⟩
  · intro h
    rcases h with ⟨bytes, hs, hp, rfl⟩
    exact hs r rfl hp

theorem fromSource {read : Read α} (hread : read.Exact) (source : Source n) :
    Recognises site (Step.fromSource source read) fun v log =>
      ∃ bytes, read.Spells site.format bytes v ∧ log = [.take source.lane bytes] :=
  fromSource_of source fun _ hr _ => exact_iff hread hr

/-- A read from the stream of type tags takes from there, or from the stream of the source where the
configuration has none: `Routing.typeTagLane` says which. -/
theorem fromTypeTags_of {read : Read α} {spelled : α → Bytes → Prop} (source : Source n)
    (hread : ∀ r : Reader, r.format = site.format →
      r.description = site.describe (site.typeTagLane source.lane) →
      ∀ v r', read r = .ok v r' ↔
        ∃ bytes, spelled v bytes ∧ bytes <+: r.unread ∧ r' = r.skip bytes.length) :
    Recognises site (Step.fromTypeTags source read) fun v log =>
      ∃ bytes, spelled v bytes ∧ log = [.take (site.typeTagLane source.lane) bytes] := by
  intro s v t hs
  unfold Step.fromTypeTags
  split
  case h_1 r hr =>
    have hlane : site.typeTagLane source.lane = .typeTags := by
      simp [Routing.typeTagLane, ← hs.typeTags, hr]
    obtain ⟨hformat, hdesc⟩ := hs.lane .typeTags r hr
    rw [hlane] at hread ⊢
    exact serve (hread r hformat hdesc) hr (fun r' other => by cases other <;> rfl) fun _ => rfl
  case h_2 hr =>
    have hlane : site.typeTagLane source.lane = source.lane := by
      simp [Routing.typeTagLane, ← hs.typeTags, hr]
    rw [hlane] at hread ⊢
    exact fromSource_of source hread s v t hs

/-- An exact read from the stream of inlining flags takes from `Routing.inliningLane`. -/
theorem fromInlining {read : Read α} (hread : read.Exact) (source : Source n) :
    Recognises site (Step.fromInlining source read) fun v log =>
      ∃ bytes, read.Spells site.format bytes v ∧
        log = [.take (site.inliningLane source.lane) bytes] := by
  intro s v t hs
  unfold Step.fromInlining
  split
  case h_1 r hr =>
    have hlane : site.inliningLane source.lane = .inlining := by
      simp [Routing.inliningLane, ← hs.inlining, hr]
    rw [hlane]
    exact serve (exact_iff hread (hs.lane .inlining r hr).1) hr
      (fun r' other => by cases other <;> rfl) fun _ => rfl
  case h_2 hr =>
    have hlane : site.inliningLane source.lane = source.lane := by
      simp [Routing.inliningLane, ← hs.inlining, hr]
    rw [hlane]
    exact fromSource hread source s v t hs

/-- An exact read from the stream of packed indices takes from `Routing.packedLane`. -/
theorem fromPackedIndices {read : Read α} (hread : read.Exact) (source : Source n) :
    Recognises site (Step.fromPackedIndices source read) fun v log =>
      ∃ bytes, read.Spells site.format bytes v ∧
        log = [.take (site.packedLane source.lane) bytes] := by
  intro s v t hs
  unfold Step.fromPackedIndices
  split
  case h_1 r hr =>
    have hlane : site.packedLane source.lane = .packedIndices := by
      simp [Routing.packedLane, ← hs.packedIndices, hr]
    rw [hlane]
    exact serve (exact_iff hread (hs.lane .packedIndices r hr).1) hr
      (fun r' other => by cases other <;> rfl) fun _ => rfl
  case h_2 hr =>
    have hlane : site.packedLane source.lane = source.lane := by
      simp [Routing.packedLane, ← hs.packedIndices, hr]
    rw [hlane]
    exact fromSource hread source s v t hs

/-! ### Events and descriptions -/

theorem tell (event : Event) :
    Recognises site (Step.tell event : Step n Unit) fun _ log => log = [.tell event] := by
  intro s v t _
  simp only [Step.tell, EStateM.Result.ok.injEq, true_and]
  constructor
  · rintro rfl
    exact ⟨_, rfl, fun lane => List.nil_prefix, (s.after_tell event).symm⟩
  · intro h
    rcases h with ⟨_, rfl, -, rfl⟩
    exact (s.after_tell event).symm

/-- The description of a stream is the one that the site has for it, and takes no bytes. -/
theorem description (source : Source n) :
    Recognises site (Step.description source) fun v log =>
      site.describe source.lane = v ∧ log = [] := by
  intro s v t hs
  have hdesc := (hs.lane _ _ (s.lane?_source source)).2
  simp only [Step.description, EStateM.Result.ok.injEq, hdesc]
  constructor
  · intro h
    rcases h with ⟨rfl, rfl⟩
    exact ⟨[], ⟨rfl, rfl⟩, s.covers_nil, s.after_nil.symm⟩
  · intro h
    rcases h with ⟨log, ⟨rfl, rfl⟩, -, rfl⟩
    exact ⟨rfl, s.after_nil.symm⟩

/-! ### Repetition -/

/-- The logs of several values, one after the other, by position. -/
inductive Repeated (language : Nat → Language α) : Nat → Language (List α)
  | nil {position} : Repeated language position [] []
  | cons {position value values log more} : language position value log →
      Repeated language (position + 1) values more →
      Repeated language position (value :: values) (log ++ more)

/-- `collectFrom` recognises its items in a row, as many as there are to be. -/
theorem collectFrom {step : Nat → Step n α} {language : Nat → Language α}
    (h : ∀ position, Recognises site (step position) (language position)) (left position : Nat) :
    Recognises site (Decode.collectFrom step left position []) fun values log =>
      values.length = left ∧ Repeated language position values log := by
  induction left generalizing position with
  | zero =>
      refine (pure []).congr fun values log => ?_
      constructor
      · intro h
        rcases h with ⟨rfl, rfl⟩
        exact ⟨rfl, .nil⟩
      · intro h
        rcases h with ⟨hlen, hrep⟩
        obtain rfl := List.length_eq_zero_iff.mp hlen
        cases hrep
        exact ⟨rfl, rfl⟩
  | succ left ih =>
      rw [collectFrom_succ]
      refine ((h position).bind fun value => (ih (position + 1)).bind fun values =>
        pure (value :: values)).congr fun values log => ?_
      constructor
      · intro h
        rcases h with ⟨value, l, _, hvalue, ⟨rest, m, _, ⟨hlen, hrep⟩, ⟨rfl, rfl⟩, rfl⟩, rfl⟩
        rw [List.append_nil]
        exact ⟨by simp [hlen], .cons hvalue hrep⟩
      · intro h
        rcases h with ⟨hlen, hrep⟩
        cases hrep with
        | nil => simp at hlen
        | cons hvalue hrep =>
            exact ⟨_, _, _, hvalue, ⟨_, _, [], ⟨by simpa using hlen, hrep⟩, ⟨rfl, rfl⟩,
              by rw [List.append_nil]⟩, rfl⟩

end Recognises

end BinaryAst.Decode
