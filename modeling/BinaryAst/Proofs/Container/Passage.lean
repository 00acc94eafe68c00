import BinaryAst.Decode.Container
import BinaryAst.Proofs.Wire.Frame
/-!
# BinaryAst.Proofs.Container.Passage

What a step of reading a container reads, and what it tells.

A `Passage` says, for a place in the container, which bytes a step takes there for which result,
and which events it tells on the way. A step `Parses` a passage when it succeeds exactly where
the container has bytes of the passage ahead, and when it runs out of bytes, and says so of the
container, wherever the container ends inside such bytes.

Both halves are closed under everything that steps are built with. So each step has one
statement, and it answers two questions at once: what is accepted, and what becomes of an
accepted container that is cut short.
-/

namespace BinaryAst.Decode

variable {α β : Type} {format : WireFormat}

/-- The assembly some bytes and some events on. -/
def Assembly.after (s : Assembly) (count : Nat) (told : List Event) : Assembly :=
  ⟨s.container.skip count, s.events ++ told.toArray⟩

@[simp] theorem Assembly.container_after (s : Assembly) (count : Nat) (told : List Event) :
    (s.after count told).container = s.container.skip count := rfl

@[simp] theorem Assembly.after_nil (s : Assembly) : s.after 0 [] = s := by
  simp [after]

/-- Positions and events of two steps add up, by `after`. -/
theorem Assembly.after_after (s : Assembly) (count more : Nat) (told later : List Event) :
    (s.after count told).after more later = s.after (count + more) (told ++ later) := by
  simp [after, Reader.skip_skip]

/-- Which bytes at which offset stand for which result, and which events are told. -/
abbrev Passage (α : Type) := Nat → α → Bytes → List Event → Prop

/-- The step accepts exactly the bytes of the passage, and runs out of bytes inside them: it reports
a shortage of the container, with some first part of the events told. -/
structure Parses (format : WireFormat) (step : Assemble α) (passage : Passage α) : Prop where
  ok_iff : ∀ s v t, s.container.format = format →
    (step s = .ok v t ↔ ∃ bytes told, passage s.container.offset v bytes told ∧
      bytes <+: s.container.unread ∧ t = s.after bytes.length told)
  starves : ∀ s v bytes told, s.container.format = format →
    passage s.container.offset v bytes told → s.container.unread <+: bytes →
    s.container.unread.length < bytes.length →
    ∃ need count heard, heard <+: told ∧ count ≤ s.container.unread.length ∧
      step s = .error ((s.container.skip count).truncated need) (s.after count heard)

namespace Parses

/-! ### How steps are put together -/

theorem congr {step : Assemble α} {passage other : Passage α} (h : Parses format step passage)
    (heq : ∀ offset v bytes told, passage offset v bytes told ↔ other offset v bytes told) :
    Parses format step other := by
  obtain rfl : passage = other := by
    funext offset v bytes told
    exact propext (heq offset v bytes told)
  exact h

/-- What reads no bytes cannot be cut short. -/
theorem of_nil {step : Assemble α} {passage : Passage α}
    (hnil : ∀ offset v bytes told, passage offset v bytes told → bytes = [])
    (hok : ∀ s v t, s.container.format = format →
      (step s = .ok v t ↔ ∃ told, passage s.container.offset v [] told ∧ t = s.after 0 told)) :
    Parses format step passage := by
  refine ⟨fun s v t hs => ?_, fun s v bytes told _ h _ hlt => ?_⟩
  · rw [hok s v t hs]
    constructor
    · intro h
      rcases h with ⟨told, h, rfl⟩
      exact ⟨[], told, h, List.nil_prefix, rfl⟩
    · intro h
      rcases h with ⟨bytes, told, h, -, rfl⟩
      obtain rfl := hnil _ _ _ _ h
      exact ⟨told, h, rfl⟩
  · obtain rfl := hnil _ _ _ _ h
    exact absurd hlt (Nat.not_lt_zero _)

theorem pure (v : α) : Parses format (Pure.pure v : Assemble α) fun _ w bytes told =>
    v = w ∧ bytes = [] ∧ told = [] := by
  refine of_nil (fun _ _ _ _ h => h.2.1) fun s w t _ => ?_
  rw [pure_eq_ok_iff]
  constructor
  · intro h
    rcases h with ⟨rfl, rfl⟩
    exact ⟨[], ⟨rfl, rfl, rfl⟩, s.after_nil.symm⟩
  · intro h
    rcases h with ⟨_, ⟨rfl, -, rfl⟩, rfl⟩
    exact ⟨rfl, s.after_nil.symm⟩

/-- A step that only fails accepts nothing: it `Parses` no passage. -/
theorem throw (e : DecodeError) : Parses format (throw e : Assemble α) fun _ _ _ _ => False :=
  of_nil (fun _ _ _ _ h => h.elim) fun s v t _ => by simp [throw_ne_ok]

/-- `Parses` is closed under `>>=`: the container ends in what the first step reads, or in what the
second reads behind a first that is there in full. The second step may rely on what the first can
give. -/
theorem bind_of {x : Assemble α} {f : α → Assemble β} {p : Passage α} {q : α → Passage β}
    (hx : Parses format x p)
    (hf : ∀ v offset bytes told, p offset v bytes told → Parses format (f v) (q v)) :
    Parses format (x >>= f) fun offset w bytes told =>
      ∃ v front heard back later, p offset v front heard ∧
        q v (offset + front.length) w back later ∧ bytes = front ++ back ∧
          told = heard ++ later := by
  refine ⟨fun s w t hs => ?_, ?_⟩
  · rw [bind_eq_ok_iff]
    constructor
    · intro h
      rcases h with ⟨v, s', hv, hw⟩
      obtain ⟨front, heard, hfirst, ⟨rest, hrest⟩, rfl⟩ := (hx.ok_iff s v s' hs).mp hv
      obtain ⟨back, later, hsecond, ⟨tail, htail⟩, rfl⟩ :=
        ((hf v _ _ _ hfirst).ok_iff (s.after front.length heard) w t hs).mp hw
      rw [Assembly.container_after, Reader.offset_skip] at hsecond
      rw [Assembly.container_after, Reader.unread_skip, ← hrest, List.drop_left] at htail
      refine ⟨front ++ back, heard ++ later, ⟨v, _, _, _, _, hfirst, hsecond, rfl, rfl⟩,
        ⟨tail, ?_⟩, ?_⟩
      · rw [List.append_assoc, htail, hrest]
      · rw [Assembly.after_after, List.length_append]
    · intro h
      rcases h with ⟨_, _, ⟨v, front, heard, back, later, hfirst, hsecond, rfl, rfl⟩, ⟨rest, hrest⟩,
        rfl⟩
      rw [List.append_assoc] at hrest
      refine ⟨v, s.after front.length heard, (hx.ok_iff s v _ hs).mpr
        ⟨front, heard, hfirst, ⟨_, hrest⟩, rfl⟩,
          ((hf v _ _ _ hfirst).ok_iff (s.after front.length heard) w _ hs).mpr
          ⟨back, later, ?_, ⟨rest, ?_⟩, ?_⟩⟩
      · rwa [Assembly.container_after, Reader.offset_skip]
      · rw [Assembly.container_after, Reader.unread_skip, ← hrest, List.drop_left]
      · rw [Assembly.after_after, List.length_append]
  · rintro s w _ _ hs ⟨v, front, heard, back, later, hfirst, hsecond, rfl, rfl⟩ hp hlt
    -- the bytes run out in the first step, or else in the second
    by_cases hshort : s.container.unread.length < front.length
    · have hpre : s.container.unread <+: front :=
        List.prefix_of_prefix_length_le hp (List.prefix_append front back) (by omega)
      obtain ⟨need, count, partly, hheard, hle, he⟩ := hx.starves s v _ _ hs hfirst hpre hshort
      exact ⟨need, count, partly, hheard.trans (List.prefix_append heard later), hle,
        bind_of_error he⟩
    · have hfront : front <+: s.container.unread :=
        List.prefix_of_prefix_length_le (List.prefix_append front back) hp (by omega)
      have hrun := (hx.ok_iff s v _ hs).mpr ⟨front, heard, hfirst, hfront, rfl⟩
      obtain ⟨rest, hrest⟩ := hfront
      have hun : (s.after front.length heard).container.unread = rest := by
        rw [Assembly.container_after, Reader.unread_skip, ← hrest, List.drop_left]
      rw [← hrest] at hp hlt
      obtain ⟨need, count, partly, hheard, hle, he⟩ := (hf v _ _ _ hfirst).starves
        (s.after front.length heard) w back later hs
        (by rwa [Assembly.container_after, Reader.offset_skip])
        (by rwa [hun, ← List.prefix_append_right_inj front])
        (by rw [hun]
            rw [List.length_append, List.length_append] at hlt
            omega)
      refine ⟨need, front.length + count, heard ++ partly, ?_, ?_, ?_⟩
      · exact (List.prefix_append_right_inj heard).mpr hheard
      · rw [hun] at hle
        rw [← hrest, List.length_append]
        omega
      · rw [bind_of_ok hrun, he, Assembly.after_after, Assembly.container_after,
          Reader.skip_skip]

/-- `bind_of` for a second step that relies on nothing. -/
theorem bind {x : Assemble α} {f : α → Assemble β} {p : Passage α} {q : α → Passage β}
    (hx : Parses format x p) (hf : ∀ v, Parses format (f v) (q v)) :
    Parses format (x >>= f) fun offset w bytes told =>
      ∃ v front heard back later, p offset v front heard ∧
        q v (offset + front.length) w back later ∧ bytes = front ++ back ∧
          told = heard ++ later :=
  hx.bind_of fun v _ _ _ _ => hf v

theorem map {x : Assemble α} {passage : Passage α} (g : α → β) (hx : Parses format x passage) :
    Parses format (g <$> x) fun offset w bytes told =>
      ∃ v, passage offset v bytes told ∧ g v = w := by
  rw [map_eq_pure_bind]
  refine (hx.bind fun v => pure (g v)).congr fun offset w bytes told => ?_
  constructor
  · intro h
    rcases h with ⟨v, front, heard, _, _, h, ⟨rfl, rfl, rfl⟩, rfl, rfl⟩
    rw [List.append_nil, List.append_nil]
    exact ⟨v, h, rfl⟩
  · intro h
    rcases h with ⟨v, h, rfl⟩
    exact ⟨v, bytes, told, [], [], h, ⟨rfl, rfl, rfl⟩, by simp, by simp⟩

theorem ite {p : Prop} [Decidable p] {x y : Assemble α} {first second : Passage α}
    (hx : p → Parses format x first) (hy : ¬p → Parses format y second) :
    Parses format (if p then x else y) fun offset v bytes told =>
      if p then first offset v bytes told else second offset v bytes told := by
  split
  case isTrue h => exact hx h
  case isFalse h => exact hy h

/-- A step `Parses` one passage only, so of two descriptions of it either may be used. -/
theorem unique {x : Assemble α} {p other : Passage α} (hp : Parses format x p)
    (hother : Parses format x other) {offset : Nat} {v : α} {bytes : Bytes} {told : List Event}
    (h : p offset v bytes told) : other offset v bytes told := by
  -- an assembly with just these bytes ahead
  let s : Assembly := ⟨⟨⟨offset, 0, bytes⟩, format, ""⟩, #[]⟩
  have hrun : x s = .ok v (s.after bytes.length told) :=
    (hp.ok_iff s v _ rfl).mpr ⟨bytes, told, h, List.prefix_rfl, rfl⟩
  obtain ⟨found, heard, hfound, hpre, hafter⟩ := (hother.ok_iff s v _ rfl).mp hrun
  have hlen : bytes.length = found.length := by
    simpa [Assembly.after, Reader.skip, s] using
      congrArg (fun s : Assembly => s.container.cursor.pos) hafter
  have htold : told = heard := by
    simpa [Assembly.after, s] using congrArg Assembly.events hafter
  rwa [hpre.eq_of_length hlen.symm, ← htold] at hfound

/-- Behind a step whose passage comes in several kinds, the second step may have a passage
for each kind. -/
theorem bind_exists {ι : Type} {x : Assemble α} {f : α → Assemble β} {p : ι → Passage α}
    {q : ι → Passage β}
    (hx : Parses format x fun offset v bytes told => ∃ i, p i offset v bytes told)
    (hf : ∀ i v offset bytes told, p i offset v bytes told → Parses format (f v) (q i)) :
    Parses format (x >>= f) fun offset w bytes told =>
      ∃ i v front heard back later, p i offset v front heard ∧
        q i (offset + front.length) w back later ∧ bytes = front ++ back ∧
          told = heard ++ later := by
  -- the result does not show its kind, so the kind is carried along with what it promises
  refine (hx.bind_of (q := fun v offset w bytes told => ∃ i, Parses format (f v) (q i) ∧
    q i offset w bytes told) fun v offset bytes told h => ?_).congr fun offset w bytes told => ?_
  · obtain ⟨i, hi⟩ := h
    have hstep := hf i v offset bytes told hi
    refine hstep.congr fun offset w bytes told => ?_
    constructor
    · exact fun h => ⟨i, hstep, h⟩
    · intro h
      rcases h with ⟨j, hj, h⟩
      exact hj.unique hstep h
  · constructor
    · intro h
      rcases h with ⟨v, front, heard, back, later, ⟨i, hi⟩, ⟨j, hj, h⟩, hbytes, htold⟩
      exact ⟨i, v, front, heard, back, later, hi, hj.unique (hf i v _ _ _ hi) h, hbytes, htold⟩
    · intro h
      rcases h with ⟨i, v, front, heard, back, later, hi, h, hbytes, htold⟩
      exact ⟨v, front, heard, back, later, ⟨i, hi⟩, ⟨i, hf i v _ _ _ hi, h⟩, hbytes, htold⟩

/-- Several passages of one kind, one after the other. -/
inductive Repeated (passage : Passage α) : Passage (List α)
  | nil {offset} : Repeated passage offset [] [] []
  | cons {offset value values bytes told more later} : passage offset value bytes told →
      Repeated passage (offset + bytes.length) values more later →
      Repeated passage offset (value :: values) (bytes ++ more) (told ++ later)

/-- `collectFrom` parses the passage again and again, as often as it is to. -/
theorem collectFrom {step : Assemble α} {passage : Passage α} (h : Parses format step passage)
    (left position : Nat) :
    Parses format (Decode.collectFrom (fun _ => step) left position [])
      fun offset values bytes told =>
        values.length = left ∧ Repeated passage offset values bytes told := by
  induction left generalizing position with
  | zero =>
      refine (pure []).congr fun offset values bytes told => ?_
      constructor
      · intro h
        rcases h with ⟨rfl, rfl, rfl⟩
        exact ⟨rfl, .nil⟩
      · intro h
        rcases h with ⟨hlen, hrep⟩
        obtain rfl := List.length_eq_zero_iff.mp hlen
        cases hrep
        exact ⟨rfl, rfl, rfl⟩
  | succ left ih =>
      rw [collectFrom_succ]
      refine (h.bind fun value => (ih (position + 1)).map (value :: ·)).congr
        fun offset values bytes told => ?_
      constructor
      · intro h
        rcases h with ⟨value, front, heard, back, later, hvalue, ⟨rest, ⟨hlen, hrep⟩, rfl⟩, rfl,
          rfl⟩
        exact ⟨by simp [hlen], .cons hvalue hrep⟩
      · intro h
        rcases h with ⟨hlen, hrep⟩
        cases hrep with
        | nil => simp at hlen
        | cons hvalue hrep =>
            exact ⟨_, _, _, _, _, hvalue, ⟨_, ⟨by simpa using hlen, hrep⟩, rfl⟩, rfl, rfl⟩

/-! ### Reads of the container itself -/

/-- A read of the container `Parses` the bytes that it goes by, even if its result depends on where
it stands. -/
theorem read_of {read : Read α} {q : Nat → α → Bytes → Prop}
    (hok : ∀ r v r', r.format = format → (read r = .ok v r' ↔
      ∃ bytes, q r.offset v bytes ∧ bytes <+: r.unread ∧ r' = r.skip bytes.length))
    (hstarves : ∀ offset v bytes, q offset v bytes → read.Starves format bytes) :
    Parses format (Assemble.read read) fun offset v bytes told =>
      q offset v bytes ∧ told = [] := by
  refine ⟨fun s v t hs => ?_, ?_⟩
  · unfold Assemble.read
    constructor
    · intro h
      split at h
      case h_1 w r hw =>
        obtain ⟨rfl, rfl⟩ : w = v ∧ { s with container := r } = t := by simpa using h
        obtain ⟨bytes, hspell, hp, rfl⟩ := (hok _ _ _ hs).mp hw
        exact ⟨bytes, [], ⟨hspell, rfl⟩, hp, by simp [Assembly.after]⟩
      case h_2 => cases h
    · intro h
      rcases h with ⟨bytes, _, ⟨hspell, rfl⟩, hp, rfl⟩
      have hrun := (hok s.container v _ hs).mpr ⟨bytes, hspell, hp, rfl⟩
      simp [hrun, Assembly.after]
  · rintro s v bytes _ hs ⟨hspell, rfl⟩ hp hlt
    obtain ⟨need, count, hle, he⟩ := hstarves _ _ _ hspell s.container hs hp hlt
    exact ⟨need, count, [], List.nil_prefix, hle, by simp [Assemble.read, he, Assembly.after]⟩

/-- A read of the container that is `Exact` parses what spells its value, wherever that stands. -/
theorem read {read : Read α} (hread : read.Exact) :
    Parses format (Assemble.read read) fun _ v bytes told =>
      read.Spells format bytes v ∧ told = [] := by
  refine read_of (q := fun _ v bytes => read.Spells format bytes v) (fun r v r' hr => ?_)
    fun _ _ _ h => hread.starves h
  subst hr
  constructor
  · intro h
    obtain ⟨bytes, hp, hr', hs, -⟩ := hread r v r' h
    exact ⟨bytes, hs, hp, hr'⟩
  · intro h
    rcases h with ⟨bytes, hs, hp, rfl⟩
    exact hs r rfl hp

end Parses

/-! ### Substreams -/

/-- The event of opening a stream. -/
def opened (r : Reader) : Event := .stream r.description r.base r.length

/-- `Read.substream` parses the bytes of a frame that is `Valid`. Its reader depends on where these
stand. -/
theorem parses_substream : Parses format (Assemble.read Read.substream)
    fun offset r bytes told => (∃ f : Frame, f.Valid format ∧ bytes = f.bytes ∧
      r = f.reader format offset) ∧ told = [] := by
  refine Parses.read_of (fun r inner r' hr => ?_) ?_
  · subst hr
    rw [Read.substream_eq_ok_iff]
    constructor
    · intro h
      rcases h with ⟨f, hf, hp, rfl, rfl⟩
      exact ⟨_, ⟨f, hf, rfl, rfl⟩, hp, rfl⟩
    · intro h
      rcases h with ⟨_, ⟨f, hf, rfl, rfl⟩, hp, rfl⟩
      exact ⟨f, hf, hp, rfl, rfl⟩
  · rintro offset r _ ⟨f, hf, rfl, -⟩
    exact Read.starves_substream hf

/-- Telling an event takes no bytes. -/
theorem parses_told (event : Event) : Parses format
    (modify fun s => { s with events := s.events.push event } : Assemble Unit)
    fun _ _ bytes told => bytes = [] ∧ told = [event] := by
  refine Parses.of_nil (fun _ _ _ _ h => h.1) fun s v t _ => ?_
  have hmodify : (modify fun s => { s with events := s.events.push event } : Assemble Unit) s =
      .ok () (s.after 0 [event]) := by
    rw [Assembly.after, Reader.skip_zero]
    show EStateM.Result.ok () _ = _
    simp
  rw [hmodify]
  simp only [EStateM.Result.ok.injEq, true_and]
  constructor
  · rintro rfl
    exact ⟨_, rfl, rfl⟩
  · intro h
    rcases h with ⟨_, rfl, rfl⟩
    rfl

/-- `nextStream` parses a frame that is `Valid`, and tells its place. -/
theorem parses_nextStream : Parses format Assemble.nextStream fun offset r bytes told =>
    ∃ f : Frame, f.Valid format ∧ bytes = f.bytes ∧ r = f.reader format offset ∧
      told = [opened r] := by
  refine (parses_substream.bind fun r => (parses_told (opened r)).bind fun _ => .pure r).congr
    fun offset r bytes told => ?_
  constructor
  · intro h
    rcases h with ⟨_, _, _, _, _, ⟨⟨f, hf, rfl, rfl⟩, rfl⟩, ⟨_, _, _, _, _, ⟨rfl, rfl⟩,
      ⟨rfl, rfl, rfl⟩, rfl, rfl⟩, rfl, rfl⟩
    exact ⟨f, hf, by simp, rfl, rfl⟩
  · intro h
    rcases h with ⟨f, hf, rfl, rfl, rfl⟩
    exact ⟨_, f.bytes, [], [], _, ⟨⟨f, hf, rfl, rfl⟩, rfl⟩,
      ⟨(), [], _, [], [], ⟨rfl, rfl⟩, ⟨rfl, rfl, rfl⟩, rfl, rfl⟩, by simp, rfl⟩

end BinaryAst.Decode
