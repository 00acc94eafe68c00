import BinaryAst.Proofs.Decode.Standing
/-!
# BinaryAst.Proofs.Decode.Course

What happens from where a decoder stands.

Wherever a run comes to stand, what is told from there on tells of a field only when that field
is due (`FieldTold`); and if it fails from there, then either it stood where the fields of the
error are just those around, or there was no stream to read a field from (`Breaks`). The proof
follows the text of the decoders: each part hands on to the next where it leaves off, and the
recursion is on the levels that are left.
-/

namespace BinaryAst.Decode

variable {n : Nat} {α β : Type}

/-- The event of a field that is due when so much has been told. -/
inductive FieldTold (ctx : Context n) (enters : Standing n → State n → Prop) :
    List Event → Event → Prop
  | intro {path levels host field left s source} :
      Reaches ctx enters path (.fields levels host (field :: left)) s →
        fieldSource ctx host.active (host.pinned ctx) (ctx.schema.fieldTag field) s =
            .ok source s →
          FieldTold ctx enters s.events.toList (host.fieldEvent field source s)

/-- An error with these fields and this cause ends a run that told these events. -/
inductive Breaks (ctx : Context n) (enters : Standing n → State n → Prop) :
    List (String × String) → DecodeError → List Event → Prop
  /-- The run has stood with these fields around. -/
  | within {path standing s cause events} : Reaches ctx enters path standing s →
      s.events.toList <+: events → Breaks ctx enters path cause events
  /-- The last field was due, but there is no stream of its values. -/
  | missing {path levels host field left s} :
      Reaches ctx enters path (.fields levels host (field :: left)) s →
        Breaks ctx enters (path ++ [(host.shape.name, field.name)])
          (.missingValueStream (ctx.schema.fieldTag field)) s.events.toList

variable {ctx : Context n} {enters : Standing n → State n → Prop} {path : List (String × String)}
  {s t : State n}

/-- What follows a state: fields are told where `At` allows for it, and a failure is one of
those that may end the events told by then. -/
def Unfolds (At : List Event → Event → Prop) (fails : DecodeError → List Event → Prop)
    (s : State n) : EStateM.Result DecodeError (State n) α → Prop :=
  Meets (fun _ t => s.Onward At t) fun e t =>
    ToldAt At s.events.toList t.events.toList ∧ fails e t.events.toList

namespace Unfolds

variable {At : List Event → Event → Prop} {fails : DecodeError → List Event → Prop}

/-- What `Unfolds` says of the events told and of the failure may be weakened. -/
theorem mono {other : List Event → Event → Prop} {breaks : DecodeError → List Event → Prop}
    {r : EStateM.Result DecodeError (State n) α} (h : Unfolds At fails s r)
    (htold : ∀ events event, At events event → other events event)
    (hfails : ∀ e events, fails e events → breaks e events) : Unfolds other breaks s r := by
  cases r with
  | ok v t => exact State.Onward.mono h htold
  | error e t => exact ⟨h.1.mono htold, hfails e _ h.2⟩

/-- What `Unfolds` from a state unfolds from any state that leads `Onward` to it. -/
theorem of_onward {r : EStateM.Result DecodeError (State n) α} (hs : s.Onward At t)
    (h : Unfolds At fails t r) : Unfolds At fails s r := by
  cases r with
  | ok v u => exact hs.trans h
  | error e u => exact ⟨hs.told.trans h.1, h.2⟩

theorem pure (v : α) : Unfolds At fails s ((Pure.pure v : Step n α) s) := State.Onward.refl s

/-- `Unfolds` is closed under `>>=`. The second step may rely on the run up to it, which is how a
later standing is reached. -/
theorem bind {x : Step n α} {f : α → Step n β} (hx : Unfolds At fails s (x s))
    (hf : ∀ v t, x s = .ok v t → s.Onward At t → Unfolds At fails t (f v t)) :
    Unfolds At fails s ((x >>= f) s) :=
  Meets.bind hx fun v t hrun hmore => of_onward hmore (hf v t hrun hmore)

theorem map {x : Step n α} {g : α → β} (hx : Unfolds At fails s (x s)) :
    Unfolds At fails s ((g <$> x) s) := by
  rw [map_eq_pure_bind]
  exact hx.bind fun v _ _ _ => .pure (g v)

/-- `collect` unfolds if each step does, from where those before it leave off. -/
theorem collect {step : Nat → Step n α} {count : Nat}
    (h : ∀ position < count, ∀ values t, Decode.collect position step s = .ok values t →
      s.Onward At t → Unfolds At fails t (step position t)) :
    Unfolds At fails s (Decode.collect count step s) := by
  induction count with
  | zero => exact .pure []
  | succ count ih =>
      rw [collect_concat]
      refine (ih fun position hlt => h position (Nat.lt_succ_of_lt hlt)).bind
        fun values t hrun hmore => ?_
      exact (h count (Nat.lt_succ_self count) values t hrun hmore).bind fun _ _ _ _ => .pure _

/-- A `Quiet` step tells of no field, so any `At` will do; its errors have no path. -/
theorem of_quiet {x : Step n α} (hx : Quiet x)
    (hfails : ∀ e events, e.path = [] → s.events.toList <+: events → fails e events) :
    Unfolds At fails s (x s) := by
  have hquiet := hx s s (.refl s)
  cases hrun : x s with
  | ok v t =>
      rw [hrun] at hquiet
      exact State.Onward.of_nowhere hquiet
  | error e t =>
      rw [hrun] at hquiet
      exact ⟨hquiet.1.mono fun _ _ => False.elim, hfails e _ hquiet.2 hquiet.1.isPrefix⟩

/-- Where a step succeeds, the run has gone `Onward`. -/
theorem onward {r : EStateM.Result DecodeError (State n) α} {v : α}
    (h : Unfolds At fails s r) (hrun : r = .ok v t) : s.Onward At t := by
  rw [hrun] at h
  exact h

end Unfolds

/-- What follows a state with these fields around: fields are told when they are due, and a
failure is put down to those that it happens in. -/
abbrev Tracked (ctx : Context n) (enters : Standing n → State n → Prop)
    (path : List (String × String)) (s : State n)
    (r : EStateM.Result DecodeError (State n) α) : Prop :=
  Unfolds (FieldTold ctx enters)
    (fun e events => Breaks ctx enters (path ++ e.path) e.cause events) s r

/-- The run has stood with these fields around: at some `standing`, when less had been told. -/
def Passed (ctx : Context n) (enters : Standing n → State n → Prop)
    (path : List (String × String)) (s : State n) : Prop :=
  ∃ standing u, Reaches ctx enters path standing u ∧ u.events.toList <+: s.events.toList

/-- Where a decoder stands now (`Reaches`), it has `Passed`. -/
theorem Reaches.passed {standing : Standing n} (h : Reaches ctx enters path standing s) :
    Passed ctx enters path s := ⟨standing, s, h, List.prefix_rfl⟩

/-- What has been `Passed` stays so while more is told. -/
theorem Passed.onward (h : Passed ctx enters path s) (hmore : s.Onward (FieldTold ctx enters) t) :
    Passed ctx enters path t := by
  obtain ⟨standing, u, hreaches, hearlier⟩ := h
  exact ⟨standing, u, hreaches, hearlier.trans hmore.told.isPrefix⟩

namespace Tracked

/-- Where the run has stood with the fields of `path` around, a `Quiet` step may fail there. -/
theorem of_quiet {x : Step n α} (hx : Quiet x) (h : Passed ctx enters path s) :
    Tracked ctx enters path s (x s) := by
  refine Unfolds.of_quiet hx fun e events hpath hevents => ?_
  obtain ⟨standing, u, hreaches, hearlier⟩ := h
  rw [hpath, List.append_nil]
  exact .within hreaches (hearlier.trans hevents)

/-- A `Quiet` step in front of a tracked one. -/
theorem quiet_bind {x : Step n α} {f : α → Step n β} (hx : Quiet x)
    (h : Passed ctx enters path s)
    (hf : ∀ v t, x s = .ok v t → Passed ctx enters path t → Tracked ctx enters path t (f v t)) :
    Tracked ctx enters path s ((x >>= f) s) :=
  (of_quiet hx h).bind fun v t hrun hmore => hf v t hrun (h.onward hmore)

/-- `inField` puts a failure down to the field, so what is `Tracked` with the field on the path is
tracked without it. -/
theorem inField {shape field : String} {x : Step n α}
    (h : Tracked ctx enters (path ++ [(shape, field)]) s (x s)) :
    Tracked ctx enters path s (Decode.inField shape field x s) := by
  cases hrun : x s with
  | ok v t =>
      rw [hrun] at h
      simp only [Decode.inField, hrun]
      exact h
  | error e t =>
      rw [hrun] at h
      simp only [Decode.inField, hrun]
      have hbreaks : Breaks ctx enters (path ++ [(shape, field)] ++ e.path) e.cause
          t.events.toList := h.2
      rw [List.append_assoc] at hbreaks
      exact ⟨h.1, hbreaks⟩

end Tracked

/-! ### Values -/

/-- One level further in, whatever stands there is tracked. -/
def InwardTracked (ctx : Context n) (enters : Standing n → State n → Prop) (levels : Nat) : Prop :=
  ∀ inner, levels = inner + 1 → ∀ path source tag s,
    Reaches ctx enters path (.value inner source tag) s →
      Tracked ctx enters path s (value ctx inner source tag s)

/-- `array` is tracked: each item stands one level further in, behind the items before it. -/
theorem tracked_array {levels : Nat} (hinner : InwardTracked ctx enters levels)
    {source : Source n} {tag : String} {viaAny : Bool}
    (h : Reaches ctx enters path (.tagged levels source tag viaAny) s)
    (hkind : Tag.kind tag = .array) :
    Tracked ctx enters path s (array ctx (innerAt ctx levels) source s) := by
  refine .quiet_bind (.fromSource Read.faults_varUInt32 source) h.passed fun count t hcount ht => ?_
  split
  case isTrue => exact .of_quiet (.throw rfl) ht
  case isFalse hmax =>
    split
    case isTrue => exact .of_quiet (.pure _) ht
    case isFalse hzero =>
      refine .quiet_bind (quiet_typeTag ctx source) ht fun itemTag u htag hu => ?_
      cases levels with
      | zero => exact .of_quiet (.throw rfl) hu
      | succ inner =>
          refine .map (.collect fun position hlt items v hitems _ => ?_)
          exact hinner inner rfl path source itemTag v
            (.item h hkind hcount (Nat.le_of_not_lt hmax) hlt htag hitems)

/-- `fieldSource` finds a stream, or there is none for the tag. It changes nothing either way. -/
theorem fieldSource_cases (ctx : Context n) (active : Source n) (pinned : Bool) (tag : String)
    (s : State n) : (∃ source, fieldSource ctx active pinned tag s = .ok source s) ∨
      fieldSource ctx active pinned tag s = .error (.missingValueStream tag) s := by
  unfold fieldSource
  split
  case isTrue => exact .inl ⟨active, rfl⟩
  case isFalse =>
    split
    case isTrue =>
      rw [valueSource_eq]
      split
      case h_1 i _ => exact .inl ⟨.values i, rfl⟩
      case h_2 => exact .inr rfl
    case isFalse => exact .inl ⟨active, rfl⟩

/-- `fieldValue` is tracked: the field is told, being due, and then its value is decoded one level
further in; or its stream is missing, which is the second way to break. -/
theorem tracked_fieldValue {levels : Nat} (hinner : InwardTracked ctx enters (levels + 1))
    {host : Host n} {field : FieldDecl} {left : List FieldDecl}
    (h : Reaches ctx enters path (.fields levels host (field :: left)) s) :
    Tracked ctx enters (path ++ [(host.shape.name, field.name)]) s
      (fieldValue ctx (value ctx levels) host.active (host.pinned ctx) host.shape field s) := by
  rcases fieldSource_cases ctx host.active (host.pinned ctx) (ctx.schema.fieldTag field) s with
    ⟨source, hsource⟩ | hmissing
  · rw [fieldValue_of_ok hsource]
    exact .of_onward (s.onward_tell (.inr (.intro h hsource)))
      (hinner levels rfl _ _ _ _ (.field h hsource))
  · rw [fieldValue, bind_of_error hmissing]
    refine ⟨.refl, ?_⟩
    change Breaks ctx enters (path ++ [(host.shape.name, field.name)] ++ []) _ _
    rw [List.append_nil]
    exact .missing h

/-- `fieldsLeft` is tracked, by induction on the fields that are left. An error in one of them is
put down to it. -/
theorem tracked_fieldsLeft {levels : Nat} (hinner : InwardTracked ctx enters (levels + 1))
    {host : Host n} {left : List FieldDecl}
    (h : Reaches ctx enters path (.fields levels host left) s) :
    Tracked ctx enters path s (fieldsLeft ctx levels host left s) := by
  induction left generalizing s with
  | nil => exact .pure []
  | cons field left ih =>
      have hvalue := tracked_fieldValue hinner h
      rw [fieldsLeft_cons]
      refine .bind (Tracked.inField (hvalue.bind fun _ _ _ _ => .pure _)) fun value t hrun _ =>
        .map (ih ?_)
      obtain ⟨v, hv⟩ := fieldValue_of_namedField hrun
      exact .nextField h hv

/-- `inlineObject` is tracked, from behind the reference to it. Its stream and its shape are looked
up, and from its first field on it is reached. -/
theorem tracked_inlineObject {levels : Nat} (hinner : InwardTracked ctx enters levels)
    {source : Source n} {tag : String} {viaAny : Bool} {name : String}
    (h : Reaches ctx enters path (.tagged levels source tag viaAny) s)
    (hkind : Tag.kind tag = .object)
    (hknown : tag = Tag.object ∨ ctx.schema.contains tag = true)
    (hreference : reference ctx source viaAny s = .ok (.inline name) t)
    (ht : Passed ctx enters path t) :
    Tracked ctx enters path t (inlineObject ctx (innerAt ctx levels) source name t) := by
  rw [inlineObject_eq]
  refine .quiet_bind (quiet_lookUpShape ctx name) ht fun shape u hfound hu => ?_
  obtain ⟨hshape, rfl⟩ := lookUpShape_eq_ok_iff.mp hfound
  refine .quiet_bind (quiet_inlineSource ctx source name) hu fun active u hactive hu => ?_
  obtain rfl := state_of_inlineSource hactive
  refine .quiet_bind (.description active) hu fun stream u hstream hu => ?_
  cases hstream
  refine .quiet_bind (.tell rfl) hu fun _ u htell hu => ?_
  cases htell
  cases levels with
  | zero => exact .of_quiet (.throw rfl) hu
  | succ inner =>
      change Tracked ctx enters path _ (fields ctx (value ctx inner) active
        ctx.configuration.separatesInlineObjects shape _)
      rw [fields_eq]
      exact .map (tracked_fieldsLeft hinner
        (.inline h hkind hknown hreference hshape hactive))

/-- `objectValue` is tracked, by what its reference is. Only an inline object has fields. -/
theorem tracked_objectValue {levels : Nat} (hinner : InwardTracked ctx enters levels)
    {source : Source n} {tag : String} {viaAny : Bool}
    (h : Reaches ctx enters path (.tagged levels source tag viaAny) s)
    (hkind : Tag.kind tag = .object) :
    Tracked ctx enters path s (objectValue ctx (innerAt ctx levels) source tag viaAny s) := by
  rw [objectValue_eq]
  split
  case isTrue => exact .of_quiet (.throw rfl) h.passed
  case isFalse hunknown =>
    have hknown : tag = Tag.object ∨ ctx.schema.contains tag = true := by
      simpa [or_iff_not_imp_left] using hunknown
    refine .quiet_bind (quiet_reference ctx source viaAny) h.passed fun found t hfound ht => ?_
    cases found with
    | null => exact .pure _
    | slot index => exact .of_quiet (quiet_slotValue ctx index) ht
    | inline name => exact .map (tracked_inlineObject hinner h hkind hknown hfound ht)

/-- By the kind of the tag: arrays and objects lead on, and anything else is `Quiet`. -/
theorem tracked_taggedValue {levels : Nat} (hinner : InwardTracked ctx enters levels)
    {source : Source n} {tag : String} {viaAny : Bool}
    (h : Reaches ctx enters path (.tagged levels source tag viaAny) s) :
    Tracked ctx enters path s (taggedValue ctx (innerAt ctx levels) source tag viaAny s) := by
  cases hkind : Tag.kind tag with
  | array =>
      rw [taggedValue_of_array hkind]
      exact tracked_array hinner h hkind
  | object =>
      rw [taggedValue_of_object hkind]
      exact tracked_objectValue hinner h hkind
  | any | symbol | string | boolean | integer | double =>
      refine .of_quiet ?_ h.passed
      rw [taggedValue, hkind]
      first
        | exact .throw rfl
        | exact quiet_symbolValue ctx source
        | exact .map _ (.fromSource Read.faults_string source)
        | exact .map _ (.fromSource Read.faults_byte source)
        | exact .map _ (.fromSource Read.faults_int32 source)
        | exact .map _ (.fromSource Read.faults_binary64 source)

/-- `valueWithin` is tracked: a value that brings its tag stands behind that tag, and any other one
stands there at once. -/
theorem tracked_valueWithin {levels : Nat} (hinner : InwardTracked ctx enters levels)
    {source : Source n} {tag : String}
    (h : Reaches ctx enters path (.value levels source tag) s) :
    Tracked ctx enters path s (valueWithin ctx (innerAt ctx levels) source tag s) := by
  by_cases hkind : Tag.kind tag = .any
  · rw [valueWithin_of_any hkind]
    exact .quiet_bind (quiet_typeTag ctx source) h.passed fun own t htag _ =>
      tracked_taggedValue hinner (.any h hkind htag)
  · rw [valueWithin_of_declared hkind]
    exact tracked_taggedValue hinner (.declared h hkind)

/-- `InwardTracked` holds however many levels are left: a value is tracked from wherever a run comes
to decode it. -/
theorem inwardTracked (levels : Nat) : InwardTracked ctx enters levels := by
  induction levels with
  | zero => exact fun inner h => absurd h (Nat.succ_ne_zero inner).symm
  | succ levels ih =>
      intro inner hlevels path source tag s h
      obtain rfl := Nat.succ.inj hlevels
      rw [value_eq]
      exact tracked_valueWithin ih h

/-- From any standing at a value, decoding the value is `Tracked`. -/
theorem Reaches.tracked_value {levels : Nat} {source : Source n} {tag : String}
    (h : Reaches ctx enters path (.value levels source tag) s) :
    Tracked ctx enters path s (value ctx levels source tag s) :=
  inwardTracked (levels + 1) levels rfl path source tag s h

/-- From any standing among the fields of an object, decoding those that are left is `Tracked`. -/
theorem Reaches.tracked_fieldsLeft {levels : Nat} {host : Host n} {left : List FieldDecl}
    (h : Reaches ctx enters path (.fields levels host left) s) :
    Tracked ctx enters path s (fieldsLeft ctx levels host left s) :=
  Decode.tracked_fieldsLeft (inwardTracked (levels + 1)) h

/-- From any standing in front of a field, decoding its value is `Tracked` with the field around. -/
theorem Reaches.tracked_fieldValue {levels : Nat} {host : Host n} {field : FieldDecl}
    {left : List FieldDecl} (h : Reaches ctx enters path (.fields levels host (field :: left)) s) :
    Tracked ctx enters (path ++ [(host.shape.name, field.name)]) s
      (fieldValue ctx (value ctx levels) host.active (host.pinned ctx) host.shape field s) :=
  Decode.tracked_fieldValue (inwardTracked (levels + 1)) h

end BinaryAst.Decode
