import BinaryAst.Proofs.Decode.Faults
/-!
# BinaryAst.Proofs.Decode.Telling

Which steps tell of fields, and which do not.

`ToldAt At front all` says that what is told behind `front` tells of a field only where `At`
allows for it. A step is `Quiet` when it tells of no field, puts no failure down to one and
leaves the streams under their names; that is every step of a decoder but the fields of an
object, and it is closed under everything that steps are built with.
-/

namespace BinaryAst

/-- The field that is about to be read. -/
def Event.field? : Event → Option (String × String)
  | .field shape name _ _ => some (shape, name)
  | .stream _ _ _ | .tag _ _ | .inline _ _ | .slot _ _ => none

/-- Events that go on from `front`, in which a field is told only where `At` allows for it, with the
events in front of it as its first argument. -/
inductive ToldAt (At : List Event → Event → Prop) (front : List Event) : List Event → Prop
  | refl : ToldAt At front front
  | quiet {all event} : ToldAt At front all → event.field? = none →
      ToldAt At front (all ++ [event])
  | field {all event} : ToldAt At front all → At all event → ToldAt At front (all ++ [event])

namespace ToldAt

variable {At : List Event → Event → Prop} {front mid all : List Event}

/-- `ToldAt` composes: what goes on from `mid` goes on from `front`. -/
theorem trans (h : ToldAt At front mid) (hmore : ToldAt At mid all) : ToldAt At front all := by
  induction hmore with
  | refl => exact h
  | quiet _ hevent ih => exact .quiet ih hevent
  | field _ hevent ih => exact .field ih hevent

theorem mono {other : List Event → Event → Prop} (h : ToldAt At front all)
    (hmono : ∀ events event, At events event → other events event) : ToldAt other front all := by
  induction h with
  | refl => exact .refl
  | quiet _ hevent ih => exact .quiet ih hevent
  | field _ hevent ih => exact .field ih (hmono _ _ hevent)

/-- Nothing that was told is taken back: `ToldAt` only adds to the events in front. -/
theorem isPrefix (h : ToldAt At front all) : front <+: all := by
  induction h with
  | refl => exact List.prefix_rfl
  | quiet _ _ ih => exact ih.trans (List.prefix_append _ _)
  | field _ _ ih => exact ih.trans (List.prefix_append _ _)

/-- From the empty list on, every field that is told stands where `At` allows for it. -/
theorem at_of_field (h : ToldAt At [] all) {event : Event} {rest : List Event}
    (hall : all = mid ++ event :: rest) (hfield : event.field?.isSome) : At mid event := by
  induction h generalizing rest with
  | refl => simp at hall
  | quiet _ hevent ih =>
      rcases eq_or_mem_of_append_singleton hall with ⟨-, rfl⟩ | ⟨more, hmore⟩
      · rw [hevent] at hfield
        cases hfield
      · exact ih hmore
  | field _ hevent ih =>
      rcases eq_or_mem_of_append_singleton hall with ⟨rfl, rfl⟩ | ⟨more, hmore⟩
      · exact hevent
      · exact ih hmore

end ToldAt

namespace Decode

variable {n : Nat} {α β : Type}

/-- No field is told anywhere. -/
abbrev nowhere : List Event → Event → Prop := fun _ _ => False

/-- The state once an event was told. -/
def State.tell (s : State n) (event : Event) : State n := { s with events := s.events.push event }

theorem State.events_tell (s : State n) (event : Event) :
    (s.tell event).events.toList = s.events.toList ++ [event] := Array.toList_push

/-- The streams keep their names from `s` to `t`, and in between fields are told only where `At`
allows for them. -/
structure State.Onward (At : List Event → Event → Prop) (s t : State n) : Prop where
  told : ToldAt At s.events.toList t.events.toList
  names : ∀ lane, (t.lane? lane).map (·.description) = (s.lane? lane).map (·.description)

namespace State.Onward

variable {At : List Event → Event → Prop} {s t u : State n}

theorem refl (s : State n) : Onward At s s := ⟨.refl, fun _ => rfl⟩

theorem trans (h : Onward At s t) (hmore : Onward At t u) : Onward At s u :=
  ⟨h.told.trans hmore.told, fun lane => (hmore.names lane).trans (h.names lane)⟩

theorem mono {other : List Event → Event → Prop} (h : Onward At s t)
    (hmono : ∀ events event, At events event → other events event) : Onward other s t :=
  ⟨h.told.mono hmono, h.names⟩

/-- A state that was reached without telling of a field is reached under any `At`. -/
theorem of_nowhere (h : Onward nowhere s t) : Onward At s t := h.mono fun _ _ => False.elim

/-- A source has the same description before and after, where a state leads `Onward`. -/
theorem description_eq (h : Onward At s t) (source : Source n) :
    (t.reader source).description = (s.reader source).description := by
  simpa [lane?_source] using h.names source.lane

end State.Onward

/-- The step tells of no field and keeps the names of the streams. A failure of it tells of none
either, and it is put down to none. -/
def Quiet (x : Step n α) : Prop := ∀ start : State n,
  Triple (start.Onward nowhere) x (fun _ => start.Onward nowhere)
    fun e t => ToldAt nowhere start.events.toList t.events.toList ∧ e.path = []

namespace Quiet

theorem pure (v : α) : Quiet (Pure.pure v : Step n α) := fun _ => .pure fun _ h => h

/-- A `throw` is `Quiet` if its error is put down to no field. -/
theorem throw {e : DecodeError} (h : e.path = []) : Quiet (throw e : Step n α) :=
  fun _ => .throw fun _ hs => ⟨hs.told, h⟩

/-- `Quiet` goes through a sequence of steps. -/
theorem bind {x : Step n α} {f : α → Step n β} (hx : Quiet x) (hf : ∀ v, Quiet (f v)) :
    Quiet (x >>= f) := fun start => (hx start).bind fun v => hf v start

theorem map {x : Step n α} (g : α → β) (hx : Quiet x) : Quiet (g <$> x) :=
  fun start => .map (hx start)

theorem ite {p : Prop} [Decidable p] {x y : Step n α} (hx : Quiet x) (hy : Quiet y) :
    Quiet (if p then x else y) := fun start => .ite (fun _ => hx start) fun _ => hy start

/-- A `Quiet` step that succeeds leads `Onward`, under any `At`. -/
theorem onward {x : Step n α} {v : α} {At : List Event → Event → Prop} {s t : State n}
    (h : Quiet x) (hrun : x s = .ok v t) : s.Onward At t :=
  .of_nowhere ((h s).ok (.refl s) hrun)

/-! ### Reads, descriptions and events -/

section

variable {read : Read α} (hread : read.Faults DecodeError.OfPrimitive)
include hread

/-- A step that `Serves` a read keeps the name of its stream, and leaves the others as they are.
What a primitive fails for is put down to no field. -/
theorem of_serves {step : Step n α} (h : Serves read step) : Quiet step := by
  intro start s hs
  obtain ⟨lane, r, putBack, hr, hstep, hput⟩ := h s
  rw [hstep]
  unfold State.serve
  split
  case h_1 v r' hrun =>
    obtain ⟨hevents, hothers⟩ := hput r'
    refine hs.trans ⟨hevents ▸ .refl, fun other => ?_⟩
    rw [hothers]
    split
    case isTrue h =>
      subst h
      rw [hr]
      exact congrArg some ((hread r.description).ok rfl hrun)
    case isFalse => rfl
  case h_2 e r' hrun =>
    exact ⟨(hput r').1 ▸ hs.told, ((hread r.description).error rfl hrun).path_eq_nil⟩

theorem fromSource (source : Source n) : Quiet (Step.fromSource source read) :=
  of_serves hread (.fromSource source)

theorem fromInlining (source : Source n) : Quiet (Step.fromInlining source read) :=
  of_serves hread (.fromInlining source)

theorem fromTypeTags (source : Source n) : Quiet (Step.fromTypeTags source read) :=
  of_serves hread (.fromTypeTags source)

theorem fromPackedIndices (source : Source n) : Quiet (Step.fromPackedIndices source read) :=
  of_serves hread (.fromPackedIndices source)

end

theorem description (source : Source n) : Quiet (Step.description source) := fun _ _ hs => hs

end Quiet

/-- Telling an event changes no stream. The event is one that is no field, or a field where `At`
allows for it. -/
theorem State.onward_tell {At : List Event → Event → Prop} (s : State n) {event : Event}
    (h : event.field? = none ∨ At s.events.toList event) : s.Onward At (s.tell event) := by
  refine ⟨?_, fun lane => by cases lane <;> rfl⟩
  rw [s.events_tell]
  rcases h with h | h
  · exact .quiet .refl h
  · exact .field .refl h

theorem Quiet.tell {event : Event} (h : event.field? = none) :
    Quiet (Step.tell event : Step n Unit) := fun _ s hs => hs.trans (s.onward_tell (.inl h))

/-! ### Tags, references and shapes -/

section

variable (ctx : Context n)

/-- `lookUpTag` tells nothing; an index that has none is put down to no field. -/
theorem quiet_lookUpTag (index : Option Nat) : Quiet (lookUpTag ctx index : Step n String) := by
  unfold lookUpTag tagAt
  cases index.bind (ctx.tags[·]?) with
  | none => exact .throw rfl
  | some tag => exact .pure tag

/-- `typeTag` tells of the tag, which is no field. -/
theorem quiet_typeTag (source : Source n) : Quiet (typeTag ctx source) :=
  (Quiet.fromTypeTags (Read.faults_index.bind fun _ => .get_bind fun _ => .pure _) source).bind
    fun _ => (quiet_lookUpTag ctx _).bind fun _ => (Quiet.tell rfl).bind fun _ => .pure _

theorem quiet_plainReference (source : Source n) : Quiet (plainReference source) :=
  .map _ (.fromSource Read.faults_index source)

theorem quiet_packedReference (source : Source n) : Quiet (packedReference ctx source) := by
  refine (Quiet.fromPackedIndices Read.faults_index source).bind fun packed => ?_
  cases packed with
  | none => exact .pure _
  | some packed => exact .ite (.map _ (quiet_lookUpTag ctx _)) (.pure _)

theorem quiet_flaggedReference (source : Source n) : Quiet (flaggedReference ctx source) :=
  (Quiet.fromInlining Read.faults_byte source).bind fun _ =>
    .ite (.pure _) (.ite (quiet_plainReference source) (.map _ (quiet_typeTag ctx source)))

/-- `reference` tells of no field, however it is encoded: the one that announces an inline object
does not read its fields yet. -/
theorem quiet_reference (source : Source n) (viaAny : Bool) :
    Quiet (reference ctx source viaAny) := by
  refine .ite (quiet_plainReference source) ?_
  cases ctx.configuration.referenceEncoding with
  | plain => exact quiet_plainReference source
  | flagged => exact quiet_flaggedReference ctx source
  | packed => exact quiet_packedReference ctx source

theorem quiet_slotValue (index : Nat) : Quiet (slotValue ctx index : Step n Value) :=
  .ite (.pure _) (.throw rfl)

theorem quiet_lookUpShape (name : String) : Quiet (lookUpShape ctx name : Step n Shape) := by
  unfold lookUpShape
  cases ctx.schema.shape? name with
  | none => exact .throw rfl
  | some shape => exact .pure shape

/-- `inlineSource` looks up the stream of an inline object, and that is all. -/
theorem quiet_inlineSource (source : Source n) (name : String) :
    Quiet (inlineSource ctx source name) := by
  refine .ite ?_ (.pure source)
  unfold valueSource
  cases ctx.routes.lookup name with
  | none => exact .throw rfl
  | some i => exact .pure (Source.values i)

theorem quiet_symbolValue (source : Source n) : Quiet (symbolValue ctx source) :=
  .ite (.map _ (.fromSource Read.faults_index source))
    (.map _ (.fromSource Read.faults_string source))

end

/-- Turning down a root that is null tells nothing. -/
theorem quiet_checkRoot (v : Value) :
    Quiet (if v.isNull then throw .nullRoot else pure v : Step n Value) :=
  .ite (.throw rfl) (.pure v)

end Decode

end BinaryAst
