import BinaryAst.Proofs.Limits.Curbs
/-!
# BinaryAst.Proofs.Limits.Decoders

A decoder under tighter limits `Curbs` the same decoder under wider ones.

The level counter is followed through every recursion: behind an object and behind a non-empty
array both decoders have one level less left, so they stay as far apart as they were
(`Tighter`), and the tighter one is stopped for its depth only where the wider one still has a
level. Each recursion is behind a tag or a reference, which takes a byte. So a decoder that has
as many levels as there are bytes ahead is never stopped.
-/

namespace BinaryAst.Decode

variable {n : Nat} {stops : DecodeError → Prop}

/-- The context with other limits. -/
def Context.withLimits (ctx : Context n) (limits : Limits) : Context n := { ctx with limits }

/-- Two decoders of values: one with some levels left and limits of its own, and one that has
as many levels or more, and limits as wide or wider. Where the first has less of something it
can be stopped for it, but for its depth only where there are more bytes ahead than it has
levels. -/
structure Tighter (stops : DecodeError → Prop) (tight wide : Limits) (bound : Option Nat)
    (levels wideLevels : Nat) : Prop where
  levels_le : levels ≤ wideLevels
  depth_eq : levels = wideLevels → tight.maxDepth = wide.maxDepth
  depth_stops : levels < wideLevels → (∀ bytes, bound = some bytes → levels < bytes) →
    stops (.depthExceeded tight.maxDepth)
  length_le : tight.maxArrayLength ≤ wide.maxArrayLength
  length_stops : tight.maxArrayLength < wide.maxArrayLength → ∀ count,
    stops (.arrayTooLarge count tight.maxArrayLength)

/-- `Tighter` goes on one level further in, and at least one byte further on. -/
theorem Tighter.inward {tight wide : Limits} {bound : Option Nat} {levels wideLevels : Nat}
    (h : Tighter stops tight wide bound (levels + 1) (wideLevels + 1)) :
    Tighter stops tight wide (bound.map (· - 1)) levels wideLevels := by
  refine ⟨Nat.le_of_succ_le_succ h.levels_le, fun heq => h.depth_eq (congrArg (· + 1) heq),
    fun hlt hbytes => h.depth_stops (Nat.succ_lt_succ hlt) ?_, h.length_le, h.length_stops⟩
  rintro bytes rfl
  have := hbytes (bytes - 1) rfl
  omega

section

variable (ctx : Context n) (describe : Lane → String) (wide : Limits)

/-- With some levels left, the decoder of values curbs every wider one. -/
def ValueCurbs (stops : DecodeError → Prop) (levels : Nat) : Prop :=
  ∀ bound wideLevels, Tighter stops ctx.limits wide bound levels wideLevels →
    ∀ source tag, Curbs stops (State.Keeps (ctx.site describe) bound)
      (value ctx levels source tag) (value (ctx.withLimits wide) wideLevels source tag)

variable {wide} {bound : Option Nat} {levels wideLevels : Nat}

/-- Behind a step that takes a byte, `descend` gets both decoders a level further in, or the depth
stops the tighter one. -/
theorem curbs_descend {α : Type}
    (h : Tighter stops ctx.limits wide bound levels wideLevels)
    (htaken : ∀ bytes, bound = some bytes → 1 ≤ bytes)
    {body wideBody : (Source n → String → Step n Value) → Step n α}
    (hbody : ∀ inner wideInner, levels = inner + 1 → wideLevels = wideInner + 1 →
      Tighter stops ctx.limits wide (bound.map (· - 1)) inner wideInner →
        Curbs stops (State.Keeps (ctx.site describe) (bound.map (· - 1)))
          (body (value ctx inner)) (wideBody (value (ctx.withLimits wide) wideInner))) :
    Curbs stops (State.Keeps (ctx.site describe) (bound.map (· - 1)))
      (descend ctx (innerAt ctx levels) >>= body)
      (descend (ctx.withLimits wide) (innerAt (ctx.withLimits wide) wideLevels) >>= wideBody) := by
  cases levels with
  | zero =>
      intro s _
      cases wideLevels with
      | zero =>
          -- both are stopped, and by the same limit
          have hdepth : ctx.limits.maxDepth = wide.maxDepth := h.depth_eq rfl
          exact .inl (congrArg (fun depth =>
            EStateM.Result.error (DecodeError.depthExceeded depth) s) hdepth)
      | succ wideInner => exact .inr ⟨_, s, rfl, h.depth_stops (Nat.succ_pos _) htaken⟩
  | succ inner =>
      obtain ⟨wideInner, rfl⟩ := Nat.exists_eq_succ_of_ne_zero
        (Nat.ne_of_gt (Nat.lt_of_lt_of_le (Nat.succ_pos inner) h.levels_le))
      exact hbody inner wideInner rfl rfl h.inward

/-! ### Arrays -/

theorem curbs_array (h : Tighter stops ctx.limits wide bound levels wideLevels)
    (hinner : ∀ inner, levels = inner + 1 → ValueCurbs ctx describe wide stops inner)
    (source : Source n) :
    Curbs stops (State.Keeps (ctx.site describe) bound) (array ctx (innerAt ctx levels) source)
      (array (ctx.withLimits wide) (innerAt (ctx.withLimits wide) wideLevels) source) := by
  refine (Curbs.refl _).bind_step (Recognises.fromSource Read.exact_varUInt32 source)
    fun count => ?_
  by_cases hlong : ctx.limits.maxArrayLength < count
  · rw [if_pos hlong]
    rcases Nat.lt_or_eq_of_le h.length_le with hlt | heq
    · exact .throw (h.length_stops hlt count)
    · have hsame : (ctx.withLimits wide).limits.maxArrayLength = ctx.limits.maxArrayLength :=
        heq.symm
      rw [hsame, if_pos hlong]
      exact .refl _
  · have hwide : ¬(ctx.withLimits wide).limits.maxArrayLength < count := fun hlt =>
      hlong (Nat.lt_of_le_of_lt h.length_le hlt)
    rw [if_neg hlong, if_neg hwide]
    split
    case isTrue => exact .refl _
    case isFalse =>
      refine (Curbs.refl _).bind_taking (recognises_typeTag ctx describe source)
        (fun _ _ htag => htag.size_pos) fun htaken tag => ?_
      refine curbs_descend ctx describe h htaken fun inner wideInner hlevels _ htight => ?_
      exact (Curbs.collectFrom (fun _ => hinner inner hlevels _ _ htight source tag)
        (fun _ => recognises_value (ctx.withLimits wide) describe wideInner source tag) _ _).map _

/-! ### Objects -/

theorem curbs_fields {inner wideInner : Nat}
    (hinner : ValueCurbs ctx describe wide stops inner)
    (h : Tighter stops ctx.limits wide bound inner wideInner) (active : Source n) (pinned : Bool)
    (shape : Shape) :
    Curbs stops (State.Keeps (ctx.site describe) bound)
      (fields ctx (value ctx inner) active pinned shape)
      (fields (ctx.withLimits wide) (value (ctx.withLimits wide) wideInner) active pinned
        shape) := by
  have hwide := recognises_value (ctx.withLimits wide) describe wideInner
  have hfield : ∀ field, Curbs stops (State.Keeps (ctx.site describe) bound)
      (fieldValue ctx (value ctx inner) active pinned shape field)
      (fieldValue (ctx.withLimits wide) (value (ctx.withLimits wide) wideInner) active pinned shape
        field) := fun field =>
    (Curbs.refl _).bind_step (recognises_fieldSource ctx describe active pinned _) fun source =>
      (Curbs.refl _).bind_step (Recognises.description source) fun stream =>
        (Curbs.refl _).bind_step (Recognises.tell _) fun _ => hinner _ _ h source _
  refine Curbs.bind_step (Curbs.mapM (fun field => Curbs.inField ?_ _ _) (fun field =>
    recognises_inField ((recognises_fieldValue (ctx.withLimits wide) describe hwide active pinned
      shape field).map _) _ _) shape.fields)
    (recognises_eachField (ctx.withLimits wide) describe hwide active pinned shape shape.fields)
    fun fields => .refl _
  exact (hfield field).map _

theorem curbs_inlineObject (h : Tighter stops ctx.limits wide bound levels wideLevels)
    (hinner : ∀ inner, levels = inner + 1 → ValueCurbs ctx describe wide stops inner)
    (htaken : ∀ bytes, bound = some bytes → 1 ≤ bytes) (source : Source n) (name : String) :
    Curbs stops (State.Keeps (ctx.site describe) (bound.map (· - 1)))
      (inlineObject ctx (innerAt ctx levels) source name)
      (inlineObject (ctx.withLimits wide) (innerAt (ctx.withLimits wide) wideLevels) source
        name) := by
  rw [inlineObject_eq, inlineObject_eq]
  refine (Curbs.refl _).bind_step (recognises_lookUpShape ctx describe name) fun shape =>
    (Curbs.refl _).bind_step (recognises_inlineSource ctx describe source name) fun active =>
      (Curbs.refl _).bind_step (Recognises.description active) fun stream =>
        (Curbs.refl _).bind_step (Recognises.tell _) fun _ => ?_
  exact curbs_descend ctx describe h htaken fun inner wideInner hlevels _ htight =>
    curbs_fields ctx describe (hinner inner hlevels) htight active _ shape

theorem curbs_objectValue (h : Tighter stops ctx.limits wide bound levels wideLevels)
    (hinner : ∀ inner, levels = inner + 1 → ValueCurbs ctx describe wide stops inner)
    (source : Source n) (tag : String) (viaAny : Bool) :
    Curbs stops (State.Keeps (ctx.site describe) bound)
      (objectValue ctx (innerAt ctx levels) source tag viaAny)
      (objectValue (ctx.withLimits wide) (innerAt (ctx.withLimits wide) wideLevels) source tag
        viaAny) := by
  rw [objectValue_eq, objectValue_eq, show (ctx.withLimits wide).schema = ctx.schema from rfl]
  split
  case isTrue => exact .refl _
  case isFalse =>
    refine (Curbs.refl _).bind_taking (recognises_reference ctx describe source viaAny)
      (fun _ _ href => href.size_pos) fun htaken reference => ?_
    cases reference with
    | null | slot => exact .refl _
    | inline name => exact (curbs_inlineObject ctx describe h hinner htaken source name).map _

/-! ### Values -/

theorem curbs_taggedValue (h : Tighter stops ctx.limits wide bound levels wideLevels)
    (hinner : ∀ inner, levels = inner + 1 → ValueCurbs ctx describe wide stops inner)
    (source : Source n) (tag : String) (viaAny : Bool) :
    Curbs stops (State.Keeps (ctx.site describe) bound)
      (taggedValue ctx (innerAt ctx levels) source tag viaAny)
      (taggedValue (ctx.withLimits wide) (innerAt (ctx.withLimits wide) wideLevels) source tag
        viaAny) := by
  unfold taggedValue
  cases Tag.kind tag with
  | array => exact curbs_array ctx describe h hinner source
  | object => exact curbs_objectValue ctx describe h hinner source tag viaAny
  | any | symbol | string | boolean | integer | double => exact .refl _

theorem curbs_valueWithin (h : Tighter stops ctx.limits wide bound levels wideLevels)
    (hinner : ∀ inner, levels = inner + 1 → ValueCurbs ctx describe wide stops inner)
    (source : Source n) (tag : String) :
    Curbs stops (State.Keeps (ctx.site describe) bound)
      (valueWithin ctx (innerAt ctx levels) source tag)
      (valueWithin (ctx.withLimits wide) (innerAt (ctx.withLimits wide) wideLevels) source
        tag) := by
  unfold valueWithin
  split
  case isTrue =>
    exact (Curbs.refl _).bind_step (recognises_typeTag ctx describe source) fun inner =>
      curbs_taggedValue ctx describe h hinner source inner true
  case isFalse => exact curbs_taggedValue ctx describe h hinner source tag false

theorem curbs_value (wide : Limits) (levels : Nat) : ValueCurbs ctx describe wide stops levels := by
  induction levels with
  | zero =>
      intro bound wideLevels h source tag
      rw [value_eq, value_eq]
      exact curbs_valueWithin ctx describe h (fun inner heq => by omega) source tag
  | succ levels ih =>
      intro bound wideLevels h source tag
      rw [value_eq, value_eq]
      refine curbs_valueWithin ctx describe h (fun inner heq => ?_) source tag
      obtain rfl : levels = inner := by omega
      exact ih

/-! ### Sections -/

theorem curbs_tableObject (h : Tighter stops ctx.limits wide bound levels wideLevels) :
    Curbs stops (State.Keeps (ctx.site describe) bound)
      (tableObject ctx (innerAt ctx levels) .own)
      (tableObject (ctx.withLimits wide) (innerAt (ctx.withLimits wide) wideLevels) .own) := by
  refine (Curbs.refl _).bind_taking (recognises_typeTag ctx describe .own)
    (fun _ _ htag => htag.size_pos) fun htaken tag =>
      (Curbs.refl _).bind_step (recognises_lookUpShape ctx describe tag) fun shape => ?_
  exact curbs_descend ctx describe h htaken fun inner wideInner _ _ htight =>
    curbs_fields ctx describe (curbs_value ctx describe wide inner) htight .own false shape

theorem curbs_objectTable
    (h : Tighter stops ctx.limits wide none ctx.limits.maxDepth wide.maxDepth) :
    Curbs stops (State.Keeps (ctx.site describe) none) (objectTable ctx)
      (objectTable (ctx.withLimits wide)) := by
  refine (Curbs.refl _).bind_step (Recognises.fromSource Read.exact_uint32 .own) fun count => ?_
  rw [show (ctx.withLimits wide).objectCount = ctx.objectCount from rfl]
  split
  case isTrue =>
    refine Curbs.collectFrom (fun slot => ?_)
      (fun slot => recognises_slot (ctx.withLimits wide) describe slot) count 0
    exact (curbs_tableObject ctx describe h).bind_step (recognises_tableObject
      (ctx.withLimits wide) describe _ fun inner _ =>
        recognises_value (ctx.withLimits wide) describe inner) fun object => .refl _
  case isFalse => exact .refl _

theorem curbs_root (h : Tighter stops ctx.limits wide none ctx.limits.maxDepth wide.maxDepth) :
    Curbs stops (State.Keeps (ctx.site describe) none) (root ctx) (root (ctx.withLimits wide)) :=
  (curbs_value ctx describe wide _ _ _ h .own Tag.any).bind_step
    (recognises_value (ctx.withLimits wide) describe _ .own Tag.any) fun _ => .refl _

/-! ### Levels and bytes -/

/-- Recursion ends with the bytes: with more levels than there are bytes `remaining` in all streams,
`value` decodes, or fails to, as with just as many. -/
theorem value_of_remaining_le {s : State n} (hs : s.Fits (ctx.site describe)) {levels : Nat}
    (hle : s.remaining ≤ levels) (source : Source n) (tag : String) :
    value ctx levels source tag s = value ctx s.remaining source tag s := by
  have htight : Tighter (fun _ => False) ctx.limits ctx.limits (some s.remaining) s.remaining
      levels :=
    ⟨hle, fun _ => rfl, fun _ hbytes => Nat.lt_irrefl _ (hbytes _ rfl), Nat.le_refl _,
      fun hlt => absurd hlt (Nat.lt_irrefl _)⟩
  have hkeeps : s.Keeps (ctx.site describe) (some s.remaining) := fun bytes hbytes =>
    ⟨hs, Nat.le_of_eq (Option.some.inj hbytes)⟩
  rcases curbs_value ctx describe ctx.limits s.remaining _ _ htight source tag s hkeeps
    with heq | ⟨_, _, _, hstop⟩
  · exact heq.symm
  · exact hstop.elim

end

end BinaryAst.Decode
