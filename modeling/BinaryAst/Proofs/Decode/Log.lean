import BinaryAst.Decode.Streams
import BinaryAst.Proofs.Wire.Spelling
/-!
# BinaryAst.Proofs.Decode.Log

What decoding a section does, as a list.

A `Log` lists in order which bytes were taken from which stream, and which events were
told. The streams go on independently of each other, so all that a log changes in a
state is how far each of them has been read (`State.after`), and all that it needs is
that each of them has the bytes ahead that are taken from it, one after the other
(`State.Covers`). Both are stated stream by stream, and both follow a log that is cut
in two.
-/

namespace BinaryAst.Decode

/-- A stream of a container, while a section is decoded. -/
inductive Lane
  /-- The section's own stream. -/
  | own
  /-- A stream of the values of one tag. -/
  | values (i : Nat)
  /-- The stream of inlining flags. -/
  | inlining
  /-- The stream of type tags. -/
  | typeTags
  /-- The stream of packed indices. -/
  | packedIndices
  deriving DecidableEq, Repr

/-- One thing that decoding a section does. -/
inductive Act
  /-- Takes bytes from a stream. -/
  | take (lane : Lane) (bytes : Bytes)
  /-- Tells an event. -/
  | tell (event : Event)

/-- What decoding a section does, in order. -/
abbrev Log := List Act

namespace Log

/-- The bytes that a log takes from a stream, one take after the other. -/
def taken (lane : Lane) : Log → Bytes
  | [] => []
  | .take from_ bytes :: log => if from_ = lane then bytes ++ taken lane log else taken lane log
  | .tell _ :: log => taken lane log

/-- The events that are told. -/
def told : Log → List Event
  | [] => []
  | .take _ _ :: log => told log
  | .tell event :: log => event :: told log

@[simp] theorem taken_nil (lane : Lane) : taken lane [] = [] := rfl

@[simp] theorem told_nil : told [] = [] := rfl

@[simp] theorem taken_append (lane : Lane) (log more : Log) :
    taken lane (log ++ more) = taken lane log ++ taken lane more := by
  induction log with
  | nil => rfl
  | cons act log ih =>
      cases act with
      | take from_ bytes =>
          by_cases h : from_ = lane
          · simp [taken, h, ih]
          · simp [taken, h, ih]
      | tell event => simp [taken, ih]

@[simp] theorem told_append (log more : Log) : told (log ++ more) = told log ++ told more := by
  induction log with
  | nil => rfl
  | cons act log ih =>
      cases act with
      | take from_ bytes => simp [told, ih]
      | tell event => simp [told, ih]

theorem taken_take (lane from_ : Lane) (bytes : Bytes) :
    taken lane [.take from_ bytes] = if from_ = lane then bytes else [] := by
  simp [taken]

@[simp] theorem taken_tell (lane : Lane) (event : Event) : taken lane [.tell event] = [] := rfl

@[simp] theorem told_take (lane : Lane) (bytes : Bytes) : told [.take lane bytes] = [] := rfl

@[simp] theorem told_tell (event : Event) : told [.tell event] = [event] := rfl

end Log

/-- The stream that a source stands for. -/
def Source.lane {n : Nat} : Source n → Lane
  | .own => .own
  | .values i => .values i

/-- A source is known by its `lane`. -/
theorem Source.lane_injective {n : Nat} {a b : Source n} (h : a.lane = b.lane) : a = b := by
  cases a with
  | own =>
      cases b with
      | own => rfl
      | values j => cases h
  | values i =>
      cases b with
      | own => cases h
      | values j => rw [Fin.ext (Lane.values.inj h)]

namespace State

variable {n : Nat}

/-- The reader of a stream, where the container has it. -/
def lane? (s : State n) : Lane → Option Reader
  | .own => some s.own
  | .values i => s.values[i]?
  | .inlining => s.side.inlining
  | .typeTags => s.side.typeTags
  | .packedIndices => s.side.packedIndices

/-- The bytes ahead in a stream; none in a stream that the container lacks. -/
def ahead (s : State n) (lane : Lane) : Bytes :=
  match s.lane? lane with
  | some r => r.unread
  | none => []

/-- A state is its streams, by `lane?`, and its events. -/
theorem ext_lane {s t : State n} (h : ∀ lane, s.lane? lane = t.lane? lane)
    (hevents : s.events = t.events) : s = t := by
  obtain ⟨own, values, ⟨inlining, typeTags, packedIndices⟩, events⟩ := s
  obtain ⟨own', values', ⟨inlining', typeTags', packedIndices'⟩, events'⟩ := t
  obtain rfl : own = own' := Option.some.inj (h .own)
  obtain rfl : values = values' := by
    ext i hi
    simpa [lane?, hi] using h (.values i)
  obtain rfl : inlining = inlining' := h .inlining
  obtain rfl : typeTags = typeTags' := h .typeTags
  obtain rfl : packedIndices = packedIndices' := h .packedIndices
  obtain rfl : events = events' := hevents
  rfl

/-- The state after a log: every stream as many bytes on as were taken from it. -/
def after (s : State n) (log : Log) : State n where
  own := s.own.skip (log.taken .own).length
  values := s.values.mapIdx fun i r => r.skip (log.taken (.values i)).length
  side :=
    { inlining := s.side.inlining.map (·.skip (log.taken .inlining).length)
      typeTags := s.side.typeTags.map (·.skip (log.taken .typeTags).length)
      packedIndices := s.side.packedIndices.map (·.skip (log.taken .packedIndices).length) }
  events := s.events ++ log.told.toArray

/-- Every stream has the bytes ahead that the log takes from it. A stream that the container lacks
has none. -/
def Covers (s : State n) (log : Log) : Prop :=
  ∀ lane, log.taken lane <+: s.ahead lane

/-- `after` leaves each stream where it was but for the bytes taken from it, and no stream comes or
goes. -/
@[simp] theorem lane?_after (s : State n) (log : Log) (lane : Lane) :
    (s.after log).lane? lane = (s.lane? lane).map (·.skip (log.taken lane).length) := by
  cases lane with
  | values i => simp [lane?, after]
  | own | inlining | typeTags | packedIndices => rfl

@[simp] theorem events_after (s : State n) (log : Log) :
    (s.after log).events = s.events ++ log.told.toArray := rfl

/-- Behind a log, what is `ahead` in a stream is what was ahead without the bytes that the log
takes. -/
@[simp] theorem ahead_after (s : State n) (log : Log) (lane : Lane) :
    (s.after log).ahead lane = (s.ahead lane).drop (log.taken lane).length := by
  simp only [ahead, lane?_after]
  cases s.lane? lane with
  | none => simp
  | some r => simp

@[simp] theorem after_nil (s : State n) : s.after [] = s :=
  ext_lane (fun lane => by simp) (by simp)

/-- `after` follows a log that is cut in two in two steps. -/
theorem after_append (s : State n) (log more : Log) :
    s.after (log ++ more) = (s.after log).after more := by
  refine ext_lane (fun lane => ?_) (by simp)
  simp only [lane?_after, Log.taken_append, List.length_append, Option.map_map]
  congr 1
  funext r
  exact (Reader.skip_skip r _ _).symm

theorem covers_nil (s : State n) : s.Covers [] := fun _ => List.nil_prefix

/-- Two pieces are ahead one after the other if the second is ahead behind the first. -/
theorem prefix_append_iff {first second bytes : Bytes} :
    first ++ second <+: bytes ↔ first <+: bytes ∧ second <+: bytes.drop first.length := by
  constructor
  · intro h
    rcases h with ⟨rest, rfl⟩
    refine ⟨⟨second ++ rest, by rw [List.append_assoc]⟩, ⟨rest, ?_⟩⟩
    rw [List.append_assoc, List.drop_left]
  · intro h
    rcases h with ⟨⟨rest, rfl⟩, h⟩
    rw [List.drop_left] at h
    exact (List.prefix_append_right_inj first).mpr h

/-- A log that is cut in two is covered (`Covers`) if its first part is, and its second part is
covered behind it. -/
theorem covers_append_iff {s : State n} {log more : Log} :
    s.Covers (log ++ more) ↔ s.Covers log ∧ (s.after log).Covers more := by
  simp only [Covers, Log.taken_append, ahead_after, prefix_append_iff]
  exact forall_and

/-- Every source has a reader. -/
theorem lane?_source (s : State n) (source : Source n) :
    s.lane? source.lane = some (s.reader source) := by
  cases source with
  | own => rfl
  | values i => simp [lane?, Source.lane, reader]

/-- `setReader` changes the stream of the source and no other one. -/
theorem lane?_setReader (s : State n) (source : Source n) (r : Reader) (lane : Lane) :
    (s.setReader source r).lane? lane = if source.lane = lane then some r else s.lane? lane := by
  cases source with
  | own => cases lane <;> simp [setReader, lane?, Source.lane]
  | values i =>
      cases lane with
      | values j =>
          by_cases h : (i : Nat) = j
          · subst h
            simp [setReader, lane?, Source.lane]
          · simp [setReader, lane?, Source.lane, h]
      | own | inlining | typeTags | packedIndices => simp [setReader, lane?, Source.lane]

/-- What takes bytes from one stream and leaves the others is `after` of one `take`. -/
theorem after_take {s t : State n} {lane : Lane} {r : Reader} {bytes : Bytes}
    (hr : s.lane? lane = some r)
    (ht : ∀ other, t.lane? other =
      if lane = other then some (r.skip bytes.length) else s.lane? other)
    (hevents : t.events = s.events) : t = s.after [.take lane bytes] := by
  refine ext_lane (fun other => ?_) (by simp [hevents])
  rw [ht, lane?_after, Log.taken_take]
  split
  case isTrue h =>
    subst h
    rw [hr]
    rfl
  case isFalse => simp

/-- A single `take` is covered if its bytes are unread in the stream. -/
theorem covers_take {s : State n} {lane : Lane} {r : Reader} {bytes : Bytes}
    (hr : s.lane? lane = some r) : s.Covers [.take lane bytes] ↔ bytes <+: r.unread := by
  constructor
  · intro h
    simpa [ahead, hr, Log.taken_take] using h lane
  · intro h other
    rw [Log.taken_take]
    split
    case isTrue heq =>
      subst heq
      simpa [ahead, hr] using h
    case isFalse => exact List.nil_prefix

/-- A single `tell` changes the events and no stream. -/
theorem after_tell (s : State n) (event : Event) :
    s.after [.tell event] = { s with events := s.events.push event } :=
  ext_lane (fun lane => by
    rw [lane?_after]
    cases lane <;> simp [lane?]) (by simp)

end State

end BinaryAst.Decode
