import BinaryAst.Proofs.Decode.Lineage
/-!
# BinaryAst.Proofs.Decode.Retention

What has been told stays told.

No step takes back an event, whether it succeeds or fails. So what a decoder tells from where it
stands is told by the section that it stands in (`Reaches.told`), which goes by the same rules as
its failures do. Of a field that is due, that is its event, as soon as there is a source to read
it from (`Standing.told_field`).
-/

namespace BinaryAst.Decode

variable {n : Nat} {α β : Type}

/-- By the end of the run, with or without a value, these events have been told. -/
def ToldBy (events : List Event) : EStateM.Result DecodeError (State n) α → Prop :=
  Meets (fun _ t => events <+: t.events.toList) fun _ t => events <+: t.events.toList

/-- The step takes nothing back. -/
def Retains (x : Step n α) : Prop := ∀ s : State n, ToldBy s.events.toList (x s)

theorem Retains.pure (v : α) : Retains (Pure.pure v : Step n α) := fun _ => List.prefix_rfl

namespace ToldBy

variable {events : List Event} {s t : State n}

theorem of_isPrefix {fewer : List Event} {r : EStateM.Result DecodeError (State n) α}
    (h : ToldBy events r) (hfewer : fewer <+: events) : ToldBy fewer r := by
  cases r with
  | ok => exact hfewer.trans h
  | error => exact hfewer.trans h

theorem of_unfolds {At : List Event → Event → Prop} {fails : DecodeError → List Event → Prop}
    {r : EStateM.Result DecodeError (State n) α} (h : Unfolds At fails s r) :
    ToldBy s.events.toList r := by
  cases r with
  | ok => exact (State.Onward.told h).isPrefix
  | error => exact h.1.isPrefix

theorem bind {x : Step n α} {f : α → Step n β} (hx : ToldBy events (x s))
    (hf : ∀ v, Retains (f v)) : ToldBy events ((x >>= f) s) :=
  Meets.bind hx fun v t _ ht => (hf v t).of_isPrefix ht

theorem map {x : Step n α} {g : α → β} (hx : ToldBy events (x s)) :
    ToldBy events ((g <$> x) s) := by
  rw [map_eq_pure_bind]
  exact hx.bind fun v => .pure (g v)

theorem inField {shape field : String} {x : Step n α} (hx : ToldBy events (x s)) :
    ToldBy events (Decode.inField shape field x s) := by
  unfold Decode.inField
  revert hx
  cases x s with
  | ok => exact id
  | error => exact id

end ToldBy

theorem Retains.bind {x : Step n α} {f : α → Step n β} (hx : Retains x)
    (hf : ∀ v, Retains (f v)) : Retains (x >>= f) := fun s => (hx s).bind hf

theorem Retains.of_quiet {x : Step n α} (h : Quiet x) : Retains x := by
  intro s
  have hquiet : Unfolds nowhere (fun _ _ => True) s (x s) := .of_quiet h fun _ _ _ _ => trivial
  exact .of_unfolds hquiet

/-- What one of several steps tells is told by `collect` of them all. -/
theorem ToldBy.collect {step : Nat → Step n α} (hstep : ∀ position, Retains (step position))
    {s t : State n} {events : List Event} {position count : Nat} {values : List α}
    (hvalues : Decode.collect position step s = .ok values t)
    (h : ToldBy events (step position t)) (hlt : position < count) :
    ToldBy events (Decode.collect count step s) := by
  induction count with
  | zero => omega
  | succ count ih =>
      rw [collect_concat]
      by_cases hlast : position = count
      · subst hlast
        rw [bind_of_ok hvalues]
        exact h.bind fun _ => .pure _
      · exact (ih (by omega)).bind fun _ => (hstep count).bind fun _ => .pure _

/-! ### Decoders -/

/-- The decoder tells these events from where it stands, behind those before. -/
def Standing.Told (ctx : Context n) (standing : Standing n) (s : State n) (events : List Event) :
    Prop :=
  match standing with
  | .value levels source tag => ToldBy events (Decode.value ctx levels source tag s)
  | .tagged levels source tag viaAny =>
    ToldBy events (taggedValue ctx (innerAt ctx levels) source tag viaAny s)
  | .fields levels host left => ToldBy events (fieldsLeft ctx levels host left s)

section

variable {ctx : Context n} {s t : State n}

/-- Any state may be taken for one that a section is entered with, so `Reaches` starts anywhere. -/
theorem reaches_anywhere (standing : Standing n) (s : State n) :
    Reaches ctx (fun _ _ => True) [] standing s := .enter trivial

theorem retains_value (levels : Nat) (source : Source n) (tag : String) :
    Retains (value ctx levels source tag) := fun s =>
  .of_unfolds (reaches_anywhere (.value levels source tag) s).tracked_value

theorem retains_fieldsLeft (levels : Nat) (host : Host n) (left : List FieldDecl) :
    Retains (fieldsLeft ctx levels host left) := fun s =>
  .of_unfolds (reaches_anywhere (.fields levels host left) s).tracked_fieldsLeft

theorem ToldBy.namedField {levels : Nat} {host : Host n} {field : FieldDecl} {source : Source n}
    {events : List Event} (hsource : fieldSource ctx host.active (host.pinned ctx)
      (ctx.schema.fieldTag field) s = .ok source s)
    (h : ToldBy events (value ctx levels source (ctx.schema.fieldTag field)
      (s.tell (host.fieldEvent field source s)))) :
    ToldBy events (Decode.namedField ctx (value ctx levels) host.active (host.pinned ctx)
      host.shape field s) := by
  refine .inField (.bind ?_ fun _ => .pure _)
  rwa [fieldValue_of_ok hsource]

/-- What a decoder tells where it stands (`Standing.Told`) is told by the section that `Reaches` it.
-/
theorem Reaches.told {enters : Standing n → State n → Prop} {path : List (String × String)}
    {standing : Standing n} {events : List Event} (h : Reaches ctx enters path standing s)
    (htold : standing.Told ctx s events) :
    ∃ first start, enters first start ∧ first.Told ctx start events := by
  induction h with
  | enter henters => exact ⟨_, _, henters, htold⟩
  | declared _ hkind ih =>
      refine ih ?_
      rw [Standing.Told, value_eq, valueWithin_of_declared hkind]
      exact htold
  | any _ hkind htag ih =>
      refine ih ?_
      rw [Standing.Told, value_eq, valueWithin_of_any hkind, bind_of_ok htag]
      exact htold
  | item _ hkind hcount hmax hlt htag hitems ih =>
      refine ih ?_
      rw [Standing.Told, taggedValue_of_array hkind, array_of_ok hcount hmax (by omega) htag]
      exact .map (.collect (fun _ => retains_value _ _ _) hitems htold hlt)
  | inline _ hkind hknown hreference hshape hactive ih =>
      refine ih ?_
      rw [Standing.Told, taggedValue_of_object hkind, objectValue_of_ok hknown hreference]
      refine .map ?_
      rw [inlineObject_of_ok hshape hactive]
      exact .map htold
  | field _ hsource ih =>
      refine ih ?_
      rw [Standing.Told, fieldsLeft_cons]
      -- What comes behind the field only adds to what was told.
      exact (ToldBy.namedField hsource htold).bind fun _ s => .map (retains_fieldsLeft _ _ _ s)
  | nextField _ hvalue ih =>
      refine ih ?_
      rw [Standing.Told, fieldsLeft_cons, bind_of_ok (namedField_of_ok hvalue)]
      exact .map htold

/-- A field that has a `fieldSource` is told. -/
theorem Standing.told_field {levels : Nat} {host : Host n} {field : FieldDecl}
    {left : List FieldDecl} {source : Source n} (hsource : fieldSource ctx host.active
      (host.pinned ctx) (ctx.schema.fieldTag field) s = .ok source s) :
    (Standing.fields levels host (field :: left)).Told ctx s
      (s.events.toList ++ [host.fieldEvent field source s]) := by
  have hvalue : ToldBy (s.tell (host.fieldEvent field source s)).events.toList
      (Decode.value ctx levels source (ctx.schema.fieldTag field)
        (s.tell (host.fieldEvent field source s))) := retains_value levels source _ _
  rw [State.events_tell] at hvalue
  rw [Standing.Told, fieldsLeft_cons]
  exact (ToldBy.namedField hsource hvalue).bind fun _ s => .map (retains_fieldsLeft _ _ _ s)

end

end BinaryAst.Decode
