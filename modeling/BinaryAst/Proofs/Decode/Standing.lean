import BinaryAst.Proofs.Decode.Telling
/-!
# BinaryAst.Proofs.Decode.Standing

Where a decoder stands while a section is decoded.

A decoder calls itself, so what it is about to do is not part of its state. A `Standing` says
what it is: to decode a value, a value whose own tag is known, or the fields that are left of an
object, its `Host`. `Reaches ctx enters path standing s` says that a run which enters a section
as `enters` allows comes to stand there in state `s`, with the fields of `path` around it, the
outermost first. It goes by the runs of the decoders themselves: each rule leads over what they
do in between.

Nothing is tried twice and no failure is caught, so if a decoder fails where it stands, the
section fails, and for the same error put down to the fields around (`Reaches.fails`).
-/

namespace BinaryAst

namespace DecodeError

/-! ### Errors put down to fields -/

/-- The error, put down to some fields, the outermost first. -/
def within (path : List (String × String)) (e : DecodeError) : DecodeError :=
  path.foldr (fun place e => .field place.1 place.2 e) e

theorem within_concat (path : List (String × String)) (shape field : String) (e : DecodeError) :
    e.within (path ++ [(shape, field)]) = (DecodeError.field shape field e).within path := by
  simp [within]

theorem within_path_cause (e : DecodeError) : e.cause.within e.path = e := by
  induction e with
  | field shape field source ih => exact congrArg _ ih
  | _ => rfl

theorem cause_ne_field (e : DecodeError) (shape field : String) (source : DecodeError) :
    e.cause ≠ .field shape field source := by
  induction e with
  | field _ _ _ ih => exact ih
  | _ => exact nofun

end DecodeError

namespace Decode

variable {n : Nat} {α : Type}

/-! ### Standings -/

/-- An object whose fields are being decoded. -/
structure Host (n : Nat) where
  shape : Shape
  /-- Where the reference to it stood; an object of the table has none. -/
  reference : Option (Source n)
  /-- The source that it is decoded from. -/
  active : Source n
  /-- What had been told when the first of its fields was due. -/
  before : List Event

namespace Host

/-- The fields keep to the source of the object. -/
def pinned (ctx : Context n) (host : Host n) : Bool :=
  host.reference.isSome && ctx.configuration.separatesInlineObjects

/-- What is told of a field that is read from a source. -/
def fieldEvent (host : Host n) (field : FieldDecl) (source : Source n) (s : State n) : Event :=
  .field host.shape.name field.name (s.reader source).description (source != host.active)

end Host

/-- What a decoder is about to do, with how many more levels may nest in it. -/
inductive Standing (n : Nat)
  | value (levels : Nat) (source : Source n) (tag : String)
  /-- A value behind its type tag (`viaAny`), or whose declared tag is its own. -/
  | tagged (levels : Nat) (source : Source n) (tag : String) (viaAny : Bool)
  /-- The fields that are left of an object, with values of so many levels. -/
  | fields (levels : Nat) (host : Host n) (left : List FieldDecl)

/-- One field, with failures put down to it. -/
def namedField (ctx : Context n) (inner : Source n → String → Step n Value) (active : Source n)
    (pinned : Bool) (shape : Shape) (field : FieldDecl) : Step n (Field Value) :=
  inField shape.name field.name do
    return ⟨field.name, ← fieldValue ctx inner active pinned shape field⟩

/-- The fields that are left of an object. -/
def fieldsLeft (ctx : Context n) (levels : Nat) (host : Host n) (left : List FieldDecl) :
    Step n (List (Field Value)) :=
  left.mapM (namedField ctx (value ctx levels) host.active (host.pinned ctx) host.shape)

/-- The decoder fails where it stands. -/
def Standing.Fails (ctx : Context n) (standing : Standing n) (s : State n) (e : DecodeError)
    (t : State n) : Prop :=
  match standing with
  | .value levels source tag => Decode.value ctx levels source tag s = .error e t
  | .tagged levels source tag viaAny =>
    taggedValue ctx (innerAt ctx levels) source tag viaAny s = .error e t
  | .fields levels host left => fieldsLeft ctx levels host left s = .error e t

/-- A run that enters a section as `enters` allows comes to stand here. -/
inductive Reaches (ctx : Context n) (enters : Standing n → State n → Prop) :
    List (String × String) → Standing n → State n → Prop
  | enter {standing s} : enters standing s → Reaches ctx enters [] standing s
  | declared {path levels source tag s} :
      Reaches ctx enters path (.value levels source tag) s → Tag.kind tag ≠ .any →
        Reaches ctx enters path (.tagged levels source tag false) s
  | any {path levels source slot tag s t} :
      Reaches ctx enters path (.value levels source slot) s → Tag.kind slot = .any →
        typeTag ctx source s = .ok tag t →
          Reaches ctx enters path (.tagged levels source tag true) t
  /-- The next item of an array. -/
  | item {path levels source tag viaAny s count t itemTag u position items v} :
      Reaches ctx enters path (.tagged (levels + 1) source tag viaAny) s →
        Tag.kind tag = .array → Step.fromSource source Read.varUInt32 s = .ok count t →
          count ≤ ctx.limits.maxArrayLength → position < count →
            typeTag ctx source t = .ok itemTag u →
              collect position (fun _ => value ctx levels source itemTag) u = .ok items v →
                Reaches ctx enters path (.value levels source itemTag) v
  /-- The object in place of a reference, which has been told. -/
  | inline {path levels source tag viaAny s name t shape active} :
      Reaches ctx enters path (.tagged (levels + 1) source tag viaAny) s →
        Tag.kind tag = .object → tag = Tag.object ∨ ctx.schema.contains tag = true →
          reference ctx source viaAny s = .ok (.inline name) t →
            ctx.schema.shape? name = some shape → inlineSource ctx source name t = .ok active t →
              Reaches ctx enters path
                (.fields levels ⟨shape, some source, active, t.events.toList ++
                  [.inline name (t.reader active).description]⟩ shape.fields)
                (t.tell (.inline name (t.reader active).description))
  /-- The value of a field, which has been told. -/
  | field {path levels host field left s source} :
      Reaches ctx enters path (.fields levels host (field :: left)) s →
        fieldSource ctx host.active (host.pinned ctx) (ctx.schema.fieldTag field) s =
            .ok source s →
          Reaches ctx enters (path ++ [(host.shape.name, field.name)])
            (.value levels source (ctx.schema.fieldTag field))
            (s.tell (host.fieldEvent field source s))
  | nextField {path levels host field left s value t} :
      Reaches ctx enters path (.fields levels host (field :: left)) s →
        fieldValue ctx (Decode.value ctx levels) host.active (host.pinned ctx) host.shape field s =
            .ok value t →
          Reaches ctx enters path (.fields levels host left) t

/-! ### Runs, taken up in the middle -/

section

variable {ctx : Context n} {s t u : State n} {e : DecodeError}

theorem valueSource_eq (ctx : Context n) (tag : String) (s : State n) : valueSource ctx tag s =
    match ctx.routes.lookup tag with
    | some i => .ok (.values i) s
    | none => .error (.missingValueStream tag) s := by
  unfold valueSource
  cases ctx.routes.lookup tag <;> rfl

theorem state_of_inlineSource {source active : Source n} {name : String}
    (h : inlineSource ctx source name s = .ok active t) : s = t := by
  unfold inlineSource at h
  split at h
  case isTrue =>
    rw [valueSource_eq] at h
    split at h
    · cases h
      rfl
    · cases h
  case isFalse => exact (pure_eq_ok_iff.mp h).2

/-- `array`, once its length and the tag of its items were read, is the `collect` of its items one
level further in. -/
theorem array_of_ok {levels : Nat} {source : Source n} {count : Nat} {tag : String}
    (hcount : Step.fromSource source Read.varUInt32 s = .ok count t)
    (hmax : count ≤ ctx.limits.maxArrayLength) (hpos : count ≠ 0)
    (htag : typeTag ctx source t = .ok tag u) :
    array ctx (innerAt ctx (levels + 1)) source s =
      (Value.array <$> collect count fun _ => value ctx levels source tag) u := by
  rw [array, bind_of_ok hcount, if_neg (by omega), if_neg hpos, bind_of_ok htag]
  rfl

/-- `objectValue`, once the reference was read, is `referredValue` of what was found. -/
theorem objectValue_of_ok {inner : Inner n} {source : Source n} {tag : String} {viaAny : Bool}
    {found : Reference} (hknown : tag = Tag.object ∨ ctx.schema.contains tag = true)
    (hreference : reference ctx source viaAny s = .ok found t) :
    objectValue ctx inner source tag viaAny s = referredValue ctx inner source found t := by
  rw [objectValue_of_known hknown, bind_of_ok hreference]

theorem fields_eq (inner : Source n → String → Step n Value) (active : Source n) (pinned : Bool)
    (shape : Shape) : fields ctx inner active pinned shape =
      (fun fields => (⟨shape.name, fields⟩ : ObjectValue)) <$>
        shape.fields.mapM (namedField ctx inner active pinned shape) :=
  (map_eq_pure_bind _ _).symm

/-- `inlineObject`, once its source is known, tells its event and is left with all of its fields
(`fieldsLeft`). -/
theorem inlineObject_of_ok {levels : Nat} {source : Source n} {name : String} {shape : Shape}
    {active : Source n} {before : List Event} (hshape : ctx.schema.shape? name = some shape)
    (hactive : inlineSource ctx source name s = .ok active s) :
    inlineObject ctx (innerAt ctx (levels + 1)) source name s =
      ((fun fields => (⟨shape.name, fields⟩ : ObjectValue)) <$>
        fieldsLeft ctx levels ⟨shape, some source, active, before⟩ shape.fields)
          (s.tell (.inline name (s.reader active).description)) := by
  rw [inlineObject_eq, bind_of_ok (lookUpShape_eq_ok_iff.mpr ⟨hshape, rfl⟩), bind_of_ok hactive]
  change fields ctx (value ctx levels) active ctx.configuration.separatesInlineObjects shape _ = _
  rw [fields_eq]
  rfl

/-- `tableObject`, once its shape is known, is left with all of its fields (`fieldsLeft`), and has
no reference. -/
theorem tableObject_of_ok {levels : Nat} {tag : String} {shape : Shape}
    (htag : typeTag ctx .own s = .ok tag t) (hshape : ctx.schema.shape? tag = some shape) :
    tableObject ctx (innerAt ctx (levels + 1)) .own s =
      ((fun fields => (⟨shape.name, fields⟩ : ObjectValue)) <$>
        fieldsLeft ctx levels ⟨shape, none, .own, t.events.toList⟩ shape.fields) t := by
  rw [tableObject, bind_of_ok htag, bind_of_ok (lookUpShape_eq_ok_iff.mpr ⟨hshape, rfl⟩)]
  change fields ctx (value ctx levels) .own false shape t = _
  rw [fields_eq]
  rfl

/-- `fieldValue`, once its source is known, tells the `fieldEvent` and decodes the value from there.
-/
theorem fieldValue_of_ok {inner : Source n → String → Step n Value} {host : Host n}
    {pinned : Bool} {field : FieldDecl} {source : Source n}
    (hsource : fieldSource ctx host.active pinned (ctx.schema.fieldTag field) s =
      .ok source s) : fieldValue ctx inner host.active pinned host.shape field s =
        inner source (ctx.schema.fieldTag field) (s.tell (host.fieldEvent field source s)) := by
  rw [fieldValue, bind_of_ok hsource]
  rfl

theorem fieldsLeft_cons (levels : Nat) (host : Host n) (field : FieldDecl)
    (left : List FieldDecl) : fieldsLeft ctx levels host (field :: left) =
      namedField ctx (value ctx levels) host.active (host.pinned ctx) host.shape field >>=
        fun value => (value :: ·) <$> fieldsLeft ctx levels host left := by
  rw [fieldsLeft, List.mapM_cons]
  exact congrArg _ (funext fun value => (map_eq_pure_bind _ _).symm)

theorem map_of_error {β : Type} {x : Step n α} {g : α → β} (h : x s = .error e t) :
    (g <$> x) s = .error e t := by
  rw [map_eq_pure_bind]
  exact bind_of_error h

theorem namedField_of_ok {inner : Source n → String → Step n Value} {active : Source n}
    {pinned : Bool} {shape : Shape} {field : FieldDecl} {value : Value}
    (h : fieldValue ctx inner active pinned shape field s = .ok value t) :
    namedField ctx inner active pinned shape field s = .ok ⟨field.name, value⟩ t := by
  rw [namedField, inField, bind_of_ok h]
  rfl

theorem fieldValue_of_namedField {inner : Source n → String → Step n Value} {active : Source n}
    {pinned : Bool} {shape : Shape} {field : FieldDecl} {value : Field Value}
    (h : namedField ctx inner active pinned shape field s = .ok value t) :
    ∃ v, fieldValue ctx inner active pinned shape field s = .ok v t := by
  cases hvalue : fieldValue ctx inner active pinned shape field s with
  | ok v u =>
      rw [namedField_of_ok hvalue] at h
      cases h
      exact ⟨v, rfl⟩
  | error e u =>
      rw [namedField, inField, bind_of_error hvalue] at h
      cases h

theorem namedField_of_error {inner : Source n → String → Step n Value} {active : Source n}
    {pinned : Bool} {shape : Shape} {field : FieldDecl}
    (h : fieldValue ctx inner active pinned shape field s = .error e t) :
    namedField ctx inner active pinned shape field s =
      .error (.field shape.name field.name e) t := by
  rw [namedField, inField, bind_of_error h]

end

/-! ### Repeated steps -/

/-- The last of the results of `collectFrom` is the one of the last position. -/
theorem collectFrom_concat {m : Type → Type} [Monad m] [LawfulMonad m] (step : Nat → m α)
    (left position : Nat) :
    collectFrom step (left + 1) position [] = (do
      let values ← collectFrom step left position []
      return values ++ [← step (position + left)]) := by
  induction left generalizing position with
  | zero => simp [collectFrom]
  | succ left ih =>
      have hlast : position + (left + 1) = position + 1 + left := by omega
      rw [collectFrom_succ step (left + 1) position, collectFrom_succ step left position]
      simp only [ih, hlast, bind_assoc, pure_bind, List.cons_append]

theorem collect_concat {m : Type → Type} [Monad m] [LawfulMonad m] (step : Nat → m α)
    (count : Nat) : collect (count + 1) step = (do
      let values ← collect count step
      return values ++ [← step count]) := by
  have h := collectFrom_concat step count 0
  rwa [Nat.zero_add] at h

section

variable {σ ε : Type} {step : Nat → EStateM ε σ α} {s t u : σ}

/-- A failure of one of the steps ends `collect`. -/
theorem collect_of_error {position count : Nat} {values : List α} {e : ε}
    (hvalues : collect position step s = .ok values t) (he : step position t = .error e u)
    (hlt : position < count) : collect count step s = .error e u := by
  induction count with
  | zero => omega
  | succ count ih =>
      rw [collect_concat]
      by_cases hlast : position = count
      · subst hlast
        rw [bind_of_ok hvalues]
        exact bind_of_error he
      · exact bind_of_error (ih (by omega))

end

/-! ### Failures -/

/-- If a decoder `Fails` where it stands, then so does the run that `Reaches` there, with the error
put down to the fields on the path. -/
theorem Reaches.fails {ctx : Context n} {enters : Standing n → State n → Prop}
    {path : List (String × String)} {standing : Standing n} {s t : State n} {e : DecodeError}
    (h : Reaches ctx enters path standing s) (hfails : standing.Fails ctx s e t) :
    ∃ first start, enters first start ∧ first.Fails ctx start (e.within path) t := by
  induction h generalizing e t with
  | enter henters => exact ⟨_, _, henters, hfails⟩
  | declared _ hkind ih =>
      refine ih ?_
      rw [Standing.Fails, value_eq, valueWithin_of_declared hkind]
      exact hfails
  | any _ hkind htag ih =>
      refine ih ?_
      rw [Standing.Fails, value_eq, valueWithin_of_any hkind, bind_of_ok htag]
      exact hfails
  | item _ hkind hcount hmax hlt htag hitems ih =>
      refine ih ?_
      rw [Standing.Fails, taggedValue_of_array hkind, array_of_ok hcount hmax (by omega) htag]
      exact map_of_error (collect_of_error hitems hfails hlt)
  | inline _ hkind hknown hreference hshape hactive ih =>
      refine ih ?_
      rw [Standing.Fails, taggedValue_of_object hkind, objectValue_of_ok hknown hreference]
      refine map_of_error ?_
      rw [inlineObject_of_ok hshape hactive]
      exact map_of_error hfails
  | field _ hsource ih =>
      rw [DecodeError.within_concat]
      refine ih ?_
      rw [Standing.Fails, fieldsLeft_cons]
      refine bind_of_error (namedField_of_error ?_)
      rw [fieldValue_of_ok hsource]
      exact hfails
  | nextField _ hvalue ih =>
      refine ih ?_
      rw [Standing.Fails, fieldsLeft_cons, bind_of_ok (namedField_of_ok hvalue)]
      exact map_of_error hfails

end Decode

end BinaryAst
