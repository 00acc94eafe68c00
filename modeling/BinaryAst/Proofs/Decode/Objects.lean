import BinaryAst.Proofs.Decode.References
import BinaryAst.Proofs.Nesting
/-!
# BinaryAst.Proofs.Decode.Objects

The decoders of arrays and of objects recognise their part of the grammar.

A decoder that has `levels` levels left recognises the values that nest no deeper, with
arrays no longer than allowed. What is one level further in is taken as given here
(`InnerRecognises`), so each lemma is about a single step.
-/

namespace BinaryAst.Decode

variable {n : Nat}

section

variable (ctx : Context n) (describe : Lane → String)

/-! ### Arrays -/

/-- What may be decoded with `levels` levels left: values that encode as the tag from the source,
and that nest no deeper, with arrays of at most `length` items. -/
def valueLanguage (site : Site) (levels length : Nat) (source : Lane) (tag : String) :
    Language Value := fun value log =>
  Encodes site source tag value log ∧ value.Within levels length

/-- Every decoder one level further in recognises what it may decode. -/
def InnerRecognises (site : Site) (levels length : Nat)
    (inner : Source n → String → Step n Value) : Prop :=
  ∀ source tag, Recognises site (inner source tag)
    (valueLanguage site levels length source.lane tag)

/-- The decoder one level further in, where `levels` leaves one, recognises what it may decode. -/
def InwardRecognises (levels : Nat) : Prop :=
  ∀ inner, levels = inner + 1 →
    InnerRecognises (ctx.site describe) inner ctx.limits.maxArrayLength (value ctx inner)

/-- `value` at any number of levels is `valueWithin` of the decoder that `innerAt` leaves for what
nests. -/
theorem value_eq (levels : Nat) : value ctx levels = valueWithin ctx (innerAt ctx levels) := by
  cases levels <;> rfl

/-- What is done behind `descend` is recognised with one level less. With no level left, nothing is.
-/
theorem recognises_descend (levels : Nat) {α : Type}
    {body : (Source n → String → Step n Value) → Step n α} {language : Nat → Language α}
    (h : ∀ inner, levels = inner + 1 →
      Recognises (ctx.site describe) (body (value ctx inner)) (language inner)) :
    Recognises (ctx.site describe) (descend ctx (innerAt ctx levels) >>= body) fun v log =>
      ∃ inner, levels = inner + 1 ∧ language inner v log := by
  cases levels with
  | zero =>
      -- with no level left the step fails, and no log is in the language either
      intro s v t _
      rw [bind_eq_ok_iff]
      simp [descend, innerAt, throw_ne_ok]
  | succ inner =>
      refine (h inner rfl).congr fun v log => ?_
      simp

/-- The language `Repeated` for values is that of the items of an array, each `Within` the same
bounds. -/
theorem repeated_values_iff {site : Site} {levels length position : Nat} {source : Lane}
    {tag : String} {items : List Value} {log : Log} :
    Recognises.Repeated (fun _ => valueLanguage site levels length source tag) position items log ↔
      EncodesItems site source tag items log ∧ Value.ItemsWithin levels length items := by
  constructor
  · intro h
    induction h with
    | nil => exact ⟨.nil, Value.itemsWithin_nil⟩
    | cons hitem _ ih => exact ⟨.cons hitem.1 ih.1, Value.itemsWithin_cons.mpr ⟨hitem.2, ih.2⟩⟩
  · induction items generalizing position log with
    | nil =>
        intro h
        rcases h with ⟨h, -⟩
        cases h
        exact .nil
    | cons item items ih =>
        intro h
        rcases h with ⟨h, hwithin⟩
        obtain ⟨hitem, hitems⟩ := Value.itemsWithin_cons.mp hwithin
        cases h with
        | cons hfirst hrest => exact .cons ⟨hfirst, hitem⟩ (ih ⟨hrest, hitems⟩)

/-- `array` recognises the arrays of `EncodesAs`. The tag of the items is there only if there are
any. -/
theorem recognises_array (levels : Nat)
    (hinner : InwardRecognises ctx describe levels) (source : Source n)
    (viaAny : Bool) {tag : String} (hkind : Tag.kind tag = .array) :
    Recognises (ctx.site describe) (array ctx (innerAt ctx levels) source) fun value log =>
      EncodesAs (ctx.site describe) viaAny source.lane tag value log ∧
        value.Within levels ctx.limits.maxArrayLength := by
  refine ((Recognises.fromSource Read.exact_varUInt32 source).bind fun count =>
    Recognises.ite (fun _ => Recognises.throw _) fun _ =>
      Recognises.ite (fun _ => Recognises.pure (Value.array [])) fun _ =>
        (recognises_typeTag ctx describe source).bind fun tag =>
          recognises_descend ctx describe levels fun inner hlevels =>
            (Recognises.collectFrom (fun _ => hinner inner hlevels source tag) count 0).map
              Value.array).congr fun value log => ?_
  constructor
  · intro hgiven
    rcases hgiven with ⟨count, _, more, ⟨bytes, hspell, rfl⟩, hmore, rfl⟩
    -- three outcomes: too long, empty, or a tag and items
    split at hmore
    case isTrue => cases hmore
    case isFalse hshort =>
      split at hmore
      case isTrue hzero =>
        obtain ⟨rfl, rfl⟩ := hmore
        subst hzero
        exact ⟨.emptyArray hkind hspell, Value.within_array_nil⟩
      case isFalse hzero =>
        obtain ⟨inner, tagLog, itemsLog, htag, ⟨level, rfl, items, ⟨rfl, hitems⟩, rfl⟩, rfl⟩ :=
          hmore
        obtain ⟨hencodes, hwithin⟩ := repeated_values_iff.mp hitems
        have hne : items ≠ [] := fun h => hzero (by simp [h])
        have harray : EncodesAs (ctx.site describe) viaAny source.lane tag (.array items)
            (.take source.lane bytes :: (tagLog ++ itemsLog)) :=
          .array hkind hne hspell htag hencodes
        exact ⟨harray, (Value.within_array_iff hne).mpr ⟨by omega, level, rfl, hwithin⟩⟩
  · intro h
    rcases h with ⟨hencodes, hwithin⟩
    cases hencodes with
    | scalar hscalar =>
        rw [hkind] at hscalar
        cases hscalar
    | emptyArray _ hspell =>
        refine ⟨0, _, [], ⟨_, hspell, rfl⟩, ?_, rfl⟩
        simp
    | array _ hne hspell htag hitems =>
        obtain ⟨hlen, level, rfl, hin⟩ := (Value.within_array_iff hne).mp hwithin
        refine ⟨_, _, _, ⟨_, hspell, rfl⟩, ?_, rfl⟩
        rw [if_neg (by omega), if_neg (by simpa using hne)]
        exact ⟨_, _, _, htag, ⟨level, rfl, _, ⟨rfl, repeated_values_iff.mpr ⟨hitems, hin⟩⟩, rfl⟩,
          rfl⟩
    | null href => simp [href.1] at hkind
    | ref href => simp [href.1] at hkind
    | inline href => simp [href.1] at hkind

/-! ### Objects -/

/-- Sources differ exactly where their streams do, so the grammar may compare streams. -/
theorem Source.bne_eq {a b : Source n} : (a != b) = (a.lane != b.lane) := by
  rw [Bool.eq_iff_iff, bne_iff_ne, bne_iff_ne]
  exact not_congr ⟨congrArg Source.lane, Source.lane_injective⟩

/-- `valueSource` recognises the value stream of a tag, which takes no bytes. -/
theorem recognises_valueSource (tag : String) :
    Recognises (ctx.site describe) (valueSource ctx tag) fun source log =>
      (ctx.site describe).valueLane tag = some source.lane ∧ log = [] := by
  have hroute : (ctx.site describe).valueLane tag =
      (ctx.routes.lookup tag).map fun i => Source.lane (.values i) := by
    simp [Routing.valueLane, Context.site, Source.lane, Option.map_map, Function.comp_def]
  rw [hroute]
  unfold valueSource
  cases ctx.routes.lookup tag with
  | none => exact (Recognises.throw _).congr fun source log => by simp
  | some i =>
      refine (Recognises.pure (Source.values i)).congr fun source log => ?_
      simp only [Option.map_some, Option.some.injEq]
      exact and_congr_left fun _ => ⟨congrArg Source.lane, Source.lane_injective⟩

/-- Where a decoder goes on from the source it is in, the grammar goes on from its `lane`. -/
theorem recognises_active (source : Source n) :
    Recognises (ctx.site describe) (pure source : Step n (Source n)) fun found log =>
      some source.lane = some found.lane ∧ log = [] := by
  refine (Recognises.pure source).congr fun found log => and_congr_left fun _ => ?_
  exact ⟨fun h => congrArg (some ·.lane) h, fun h => Source.lane_injective (Option.some.inj h)⟩

/-- `fieldSource` recognises `Routing.fieldLane`, on the very same conditions. -/
theorem recognises_fieldSource (active : Source n) (pinned : Bool) (tag : String) :
    Recognises (ctx.site describe) (fieldSource ctx active pinned tag) fun source log =>
      (ctx.site describe).fieldLane active.lane pinned tag = some source.lane ∧ log = [] := by
  unfold fieldSource Routing.fieldLane
  rw [show (ctx.site describe).configuration = ctx.configuration from rfl]
  split
  case isTrue => exact recognises_active ctx describe active
  case isFalse =>
    split
    case isTrue => exact recognises_valueSource ctx describe tag
    case isFalse => exact recognises_active ctx describe active

/-- The stream of a value is one that values can be read from: each value stream of the grammar is a
`Source` of the context. -/
theorem exists_source_of_valueLane {tag : String} {lane : Lane}
    (h : (ctx.site describe).valueLane tag = some lane) :
    ∃ source : Source n, source.lane = lane := by
  obtain ⟨i, hi, rfl⟩ := Option.map_eq_some_iff.mp h
  obtain ⟨j, -, rfl⟩ := Option.map_eq_some_iff.mp hi
  exact ⟨.values j, rfl⟩

/-- The `fieldLane` of a source is the lane of a source: values can be read from it. -/
theorem exists_source_of_fieldLane {active : Source n} {pinned : Bool} {tag : String} {lane : Lane}
    (h : (ctx.site describe).fieldLane active.lane pinned tag = some lane) :
    ∃ source : Source n, source.lane = lane := by
  unfold Routing.fieldLane at h
  split at h
  · exact ⟨active, Option.some.inj h⟩
  · split at h
    · exact exists_source_of_valueLane ctx describe h
    · exact ⟨active, Option.some.inj h⟩

/-- The `inlineLane` of a source is the lane of a source: values can be read from it. -/
theorem exists_source_of_inlineLane {source : Source n} {shape : String} {lane : Lane}
    (h : (ctx.site describe).inlineLane source.lane shape = some lane) :
    ∃ active : Source n, active.lane = lane := by
  unfold Routing.inlineLane at h
  split at h
  · exact exists_source_of_valueLane ctx describe h
  · exact ⟨source, Option.some.inj h⟩

/-- The logs of the value of one field. -/
inductive FieldLanguage (site : Site) (levels length : Nat) (active : Lane) (pinned : Bool)
    (shape : String) (decl : FieldDecl) : Language Value
  | intro {source value log} :
      site.fieldLane active pinned (site.schema.fieldTag decl) = some source →
      valueLanguage site levels length source (site.schema.fieldTag decl) value log →
      FieldLanguage site levels length active pinned shape decl value
        (.tell (site.fieldEvent shape decl.name active source) :: log)

/-- `fieldValue` recognises `FieldLanguage`: the event of the field, with the stream that it is read
from, then the log of its value. -/
theorem recognises_fieldValue {levels length : Nat} {inner : Source n → String → Step n Value}
    (hinner : InnerRecognises (ctx.site describe) levels length inner) (active : Source n)
    (pinned : Bool) (shape : Shape) (decl : FieldDecl) :
    Recognises (ctx.site describe) (fieldValue ctx inner active pinned shape decl)
      (FieldLanguage (ctx.site describe) levels length active.lane pinned shape.name decl) := by
  refine ((recognises_fieldSource ctx describe active pinned _).bind fun source =>
    (Recognises.description source).bind fun stream =>
      (Recognises.tell (.field shape.name decl.name stream (source != active))).bind fun _ =>
        hinner source (ctx.schema.fieldTag decl)).congr fun value log => ?_
  -- the decoder compares sources, the grammar compares lanes
  have hevent : ∀ source : Source n, (ctx.site describe).fieldEvent shape.name decl.name
      active.lane source.lane =
        .field shape.name decl.name ((ctx.site describe).describe source.lane)
        (source != active) := fun source => by rw [Site.fieldEvent, Source.bne_eq]
  constructor
  · intro h
    rcases h with ⟨source, _, _, ⟨hlane, rfl⟩, ⟨_, _, _, ⟨rfl, rfl⟩, ⟨_, _, _, rfl, hvalue, rfl⟩,
      rfl⟩, rfl⟩
    rw [← hevent]
    exact .intro hlane hvalue
  · intro h
    rcases h with ⟨hlane, hvalue⟩
    obtain ⟨source, rfl⟩ := exists_source_of_fieldLane ctx describe hlane
    rw [hevent]
    exact ⟨source, [], _, ⟨hlane, rfl⟩, ⟨_, [], _, ⟨rfl, rfl⟩, ⟨(), _, _, rfl, hvalue, rfl⟩, rfl⟩,
      rfl⟩

/-- `inField` changes what is failed with, and nothing that is recognised. -/
theorem recognises_inField {site : Site} {α : Type} {step : Step n α} {language : Language α}
    (h : Recognises site step language) (shape field : String) :
    Recognises site (inField shape field step) language := by
  intro s v t hs
  rw [← h s v t hs]
  unfold inField
  cases step s <;> simp

/-- The fields of an object, one after the other, in declared order: the `mapM` in `fields`
recognises `EncodesFields`. -/
theorem recognises_eachField {levels length : Nat} {inner : Source n → String → Step n Value}
    (hinner : InnerRecognises (ctx.site describe) levels length inner) (active : Source n)
    (pinned : Bool) (shape : Shape) (decls : List FieldDecl) :
    Recognises (ctx.site describe)
      (decls.mapM fun field => inField shape.name field.name do
        return (⟨field.name, ← fieldValue ctx inner active pinned shape field⟩ : Field Value))
      fun fields log =>
        EncodesFields (ctx.site describe) active.lane pinned shape.name decls fields log ∧
          Value.FieldsWithin levels length fields := by
  induction decls with
  | nil =>
      rw [List.mapM_nil]
      refine (Recognises.pure []).congr fun fields log => ?_
      constructor
      · intro h
        rcases h with ⟨rfl, rfl⟩
        exact ⟨.nil, Value.fieldsWithin_nil⟩
      · intro h
        rcases h with ⟨h, -⟩
        cases h
        exact ⟨rfl, rfl⟩
  | cons decl decls ih =>
      rw [List.mapM_cons]
      -- The field's log, then that of the fields behind it; what `return` gives takes nothing.
      refine ((recognises_inField ((recognises_fieldValue ctx describe hinner active pinned shape
        decl).bind fun value => Recognises.pure (⟨decl.name, value⟩ : Field Value)) _ _).bind
          fun field => ih.bind fun fields => Recognises.pure (field :: fields)).congr
            fun fields log => ?_
      constructor
      · intro h
        rcases h with ⟨_, _, _, ⟨value, _, _, hvalue, ⟨rfl, rfl⟩, rfl⟩,
          ⟨rest, more, _, ⟨hrest, hwithin⟩, ⟨rfl, rfl⟩, rfl⟩, rfl⟩
        obtain ⟨hlane, hencodes, hin⟩ := hvalue
        rw [List.append_nil, List.append_nil]
        exact ⟨.cons hlane hencodes hrest, Value.fieldsWithin_cons.mpr ⟨hin, hwithin⟩⟩
      · intro h
        rcases h with ⟨h, hwithin⟩
        cases h with
        | @cons _ _ _ source _ _ value _ log more hlane hencodes hrest =>
            obtain ⟨hin, hrestIn⟩ := Value.fieldsWithin_cons.mp hwithin
            exact ⟨_, _, _, ⟨value, _, [], .intro hlane ⟨hencodes, hin⟩, ⟨rfl, rfl⟩,
              (List.append_nil _).symm⟩, ⟨_, more, [], ⟨hrest, hrestIn⟩, ⟨rfl, rfl⟩,
                (List.append_nil _).symm⟩, rfl⟩

/-- `fields` recognises the objects of a shape whose fields are those of `EncodesFields`. -/
theorem recognises_fields {levels length : Nat} {inner : Source n → String → Step n Value}
    (hinner : InnerRecognises (ctx.site describe) levels length inner) (active : Source n)
    (pinned : Bool) (shape : Shape) :
    Recognises (ctx.site describe) (fields ctx inner active pinned shape) fun object log =>
      object.shape = shape.name ∧
        EncodesFields (ctx.site describe) active.lane pinned shape.name shape.fields object.fields
          log ∧ Value.FieldsWithin levels length object.fields := by
  refine ((recognises_eachField ctx describe hinner active pinned shape shape.fields).bind
    fun fields => Recognises.pure (⟨shape.name, fields⟩ : ObjectValue)).congr fun object log => ?_
  constructor
  · intro h
    rcases h with ⟨fields, log, _, h, ⟨rfl, rfl⟩, rfl⟩
    rw [List.append_nil]
    exact ⟨rfl, h⟩
  · intro h
    rcases h with ⟨hname, h⟩
    exact ⟨object.fields, log, [], h, ⟨by rw [← hname], rfl⟩, (List.append_nil _).symm⟩

/-- `lookUpShape` recognises the shape of the schema, and takes no bytes. -/
theorem recognises_lookUpShape (tag : String) :
    Recognises (ctx.site describe) (lookUpShape ctx tag : Step n Shape) fun shape log =>
      (ctx.site describe).schema.shape? tag = some shape ∧ log = [] := by
  unfold lookUpShape
  rw [show (ctx.site describe).schema = ctx.schema from rfl]
  cases ctx.schema.shape? tag with
  | none => exact (Recognises.throw _).congr fun shape log => by simp
  | some found => exact (Recognises.pure found).congr fun shape log => by simp

/-- The `fields` of an object take one level of those that are left, and are recognised as
`EncodesFields` has them. -/
theorem recognises_objectFields (levels : Nat)
    (hinner : InwardRecognises ctx describe levels) (active : Source n) (pinned : Bool)
    (shape : Shape) :
    Recognises (ctx.site describe)
      (descend ctx (innerAt ctx levels) >>= fun inner => fields ctx inner active pinned shape)
      fun object log => object.shape = shape.name ∧
        EncodesFields (ctx.site describe) active.lane pinned shape.name shape.fields object.fields
          log ∧ (Value.inline object).Within levels ctx.limits.maxArrayLength := by
  refine (recognises_descend ctx describe levels fun inner hlevels =>
    recognises_fields ctx describe (hinner inner hlevels) active pinned shape).congr
      fun object log => ?_
  rw [Value.within_inline_iff]
  constructor
  · intro h
    rcases h with ⟨inner, hlevels, hname, hfields, hwithin⟩
    exact ⟨hname, hfields, inner, hlevels, hwithin⟩
  · intro h
    rcases h with ⟨hname, hfields, inner, hlevels, hwithin⟩
    exact ⟨inner, hlevels, hname, hfields, hwithin⟩

/-- `tableObject` recognises `EncodesObject`: a type tag, then the fields of its shape, none of them
pinned to a stream. -/
theorem recognises_tableObject (levels : Nat)
    (hinner : InwardRecognises ctx describe levels) :
    Recognises (ctx.site describe) (tableObject ctx (innerAt ctx levels) .own) fun object log =>
      EncodesObject (ctx.site describe) object log ∧
        object.Within levels ctx.limits.maxArrayLength := by
  refine ((recognises_typeTag ctx describe .own).bind fun tag =>
    (recognises_lookUpShape ctx describe tag).bind fun shape =>
      recognises_objectFields ctx describe levels hinner .own false shape).congr
        fun object log => ?_
  constructor
  · intro h
    rcases h with ⟨tag, log, _, htag, ⟨shape, _, more, ⟨hshape, rfl⟩, ⟨hname, hfields, hwithin⟩,
      rfl⟩, rfl⟩
    obtain ⟨_, fields⟩ := object
    subst hname
    exact ⟨.intro htag hshape hfields, hwithin⟩
  · intro h
    rcases h with ⟨⟨htag, hshape, hfields⟩, hwithin⟩
    exact ⟨_, _, _, htag, ⟨_, [], _, ⟨hshape, rfl⟩, ⟨rfl, hfields, hwithin⟩, rfl⟩, rfl⟩

/-- The logs of an inline object, behind the reference. -/
inductive InlineLanguage (site : Site) (levels length : Nat) (source : Lane) (name : String) :
    Language ObjectValue
  | intro {shape active fields log} : site.schema.shape? name = some shape →
      site.inlineLane source name = some active →
      EncodesFields site active site.configuration.separatesInlineObjects shape.name
        shape.fields fields log →
      (Value.inline ⟨shape.name, fields⟩).Within levels length →
      InlineLanguage site levels length source name ⟨shape.name, fields⟩
        (.tell (site.inlineEvent active name) :: log)

/-- Where the fields of an inline object are read. -/
def inlineSource (source : Source n) (name : String) : Step n (Source n) :=
  if ctx.configuration.separatesInlineObjects then valueSource ctx name else pure source

/-- `inlineObject` with the choice of its stream as a step of its own, `inlineSource`. -/
theorem inlineObject_eq (inner : Inner n) (source : Source n) (name : String) :
    inlineObject ctx inner source name = (do
      let shape ← lookUpShape ctx name
      let active ← inlineSource ctx source name
      Step.tell (.inline name (← Step.description active))
      fields ctx (← descend ctx inner) active ctx.configuration.separatesInlineObjects shape) := by
  unfold inlineObject inlineSource
  cases ctx.configuration.separatesInlineObjects <;> rfl

/-- `inlineSource` recognises `Routing.inlineLane`. -/
theorem recognises_inlineSource (source : Source n) (name : String) :
    Recognises (ctx.site describe) (inlineSource ctx source name) fun active log =>
      (ctx.site describe).inlineLane source.lane name = some active.lane ∧ log = [] := by
  unfold inlineSource Routing.inlineLane
  rw [show (ctx.site describe).configuration = ctx.configuration from rfl]
  split
  case isTrue => exact recognises_valueSource ctx describe name
  case isFalse => exact recognises_active ctx describe source

/-- `inlineObject` recognises `InlineLanguage`, that is what stands behind a reference to an inline
object. -/
theorem recognises_inlineObject (levels : Nat)
    (hinner : InwardRecognises ctx describe levels) (source : Source n) (name : String) :
    Recognises (ctx.site describe) (inlineObject ctx (innerAt ctx levels) source name)
      (InlineLanguage (ctx.site describe) levels ctx.limits.maxArrayLength source.lane name) := by
  rw [inlineObject_eq]
  refine ((recognises_lookUpShape ctx describe name).bind fun shape =>
    (recognises_inlineSource ctx describe source name).bind fun active =>
      (Recognises.description active).bind fun stream =>
        (Recognises.tell (.inline name stream)).bind fun _ =>
          recognises_objectFields ctx describe levels hinner active
            ctx.configuration.separatesInlineObjects shape).congr fun object log => ?_
  constructor
  · intro h
    rcases h with ⟨shape, _, _, ⟨hshape, rfl⟩, ⟨active, _, _, ⟨hlane, rfl⟩, ⟨_, _, _, ⟨rfl, rfl⟩,
      ⟨_, _, _, rfl, ⟨hname, hfields, hwithin⟩, rfl⟩, rfl⟩, rfl⟩, rfl⟩
    obtain ⟨_, fields⟩ := object
    subst hname
    exact .intro hshape hlane hfields hwithin
  · intro h
    rcases h with ⟨hshape, hlane, hfields, hwithin⟩
    -- the grammar names any lane, and only those of sources can be read from
    obtain ⟨active, rfl⟩ := exists_source_of_inlineLane ctx describe hlane
    exact ⟨_, [], _, ⟨hshape, rfl⟩, ⟨active, [], _, ⟨hlane, rfl⟩, ⟨_, [], _, ⟨rfl, rfl⟩,
      ⟨(), _, _, rfl, ⟨rfl, hfields, hwithin⟩, rfl⟩, rfl⟩, rfl⟩, rfl⟩

/-- `slotValue` recognises the slots of the object table, filled or not. -/
theorem recognises_slotValue (index : Nat) :
    Recognises (ctx.site describe) (slotValue ctx index : Step n Value) fun value log =>
      index < (ctx.site describe).slots ∧ value = .ref index ∧ log = [] := by
  unfold slotValue
  rw [show (ctx.site describe).slots = ctx.objectCount from rfl]
  split
  case isTrue h =>
    refine (Recognises.pure (Value.ref index)).congr fun value log => ?_
    simp only [h, true_and, eq_comm]
  case isFalse h => exact (Recognises.throw _).congr fun value log => by simp [h]

/-- The logs of a value behind the reference to it. -/
inductive ReferredLanguage (site : Site) (levels length : Nat) (source : Lane) :
    Reference → Language Value
  | null : ReferredLanguage site levels length source .null .null []
  | inline {name object log} : InlineLanguage site levels length source name object log →
      ReferredLanguage site levels length source (.inline name) (.inline object) log
  | slot {index} : index < site.slots →
      ReferredLanguage site levels length source (.slot index) (.ref index) []

/-- Decodes the value behind a reference. -/
def referredValue (inner : Inner n) (source : Source n) : Reference → Step n Value
  | .null => pure .null
  | .inline shape => Value.inline <$> inlineObject ctx inner source shape
  | .slot index => slotValue ctx index

/-- `objectValue` cut in two: the `reference`, and the `referredValue` behind it. -/
theorem objectValue_eq (inner : Inner n) (source : Source n) (tag : String) (viaAny : Bool) :
    objectValue ctx inner source tag viaAny =
      if tag ≠ Tag.object ∧ !ctx.schema.contains tag then throw (.unknownShape tag)
      else reference ctx source viaAny >>= referredValue ctx inner source := rfl

/-- `referredValue` recognises `ReferredLanguage`, by the kind of the reference. -/
theorem recognises_referredValue (levels : Nat)
    (hinner : InwardRecognises ctx describe levels) (source : Source n) (reference : Reference) :
    Recognises (ctx.site describe) (referredValue ctx (innerAt ctx levels) source reference)
      (ReferredLanguage (ctx.site describe) levels ctx.limits.maxArrayLength source.lane
        reference) := by
  cases reference with
  | null =>
      refine (Recognises.pure Value.null).congr fun value log => ?_
      constructor
      · intro h
        obtain ⟨rfl, rfl⟩ := h
        exact .null
      · intro h
        cases h
        exact ⟨rfl, rfl⟩
  | inline name =>
      refine ((recognises_inlineObject ctx describe levels hinner source name).map
        Value.inline).congr fun value log => ?_
      constructor
      · intro h
        obtain ⟨object, hobject, rfl⟩ := h
        exact .inline hobject
      · intro h
        cases h with
        | inline hobject => exact ⟨_, hobject, rfl⟩
  | slot index =>
      refine (recognises_slotValue ctx describe index).congr fun value log => ?_
      constructor
      · intro h
        obtain ⟨hslot, rfl, rfl⟩ := h
        exact .slot hslot
      · intro h
        cases h with
        | slot hslot => exact ⟨hslot, rfl, rfl⟩

/-- A value of an object tag is a reference and what is behind it: `EncodesAs` has a rule for each
kind of reference, and `ReferredLanguage` puts them together. -/
theorem encodesAs_object_iff {site : Site} {viaAny : Bool} {source : Lane} {tag : String}
    {value : Value} {log : Log} {levels length : Nat} (hkind : Tag.kind tag = .object) :
    EncodesAs site viaAny source tag value log ∧ value.Within levels length ↔
      site.IsReferenceTag tag ∧ ∃ reference front back,
        site.EncodesReference source viaAny reference front ∧
          ReferredLanguage site levels length source reference value back ∧
            log = front ++ back := by
  constructor
  · intro h
    rcases h with ⟨hencodes, hwithin⟩
    cases hencodes with
    | scalar hscalar =>
        rw [hkind] at hscalar
        cases hscalar
    | emptyArray harray => simp [harray] at hkind
    | array harray => simp [harray] at hkind
    | null hknown hreference =>
        exact ⟨hknown, .null, _, [], hreference, .null, (List.append_nil _).symm⟩
    | ref hknown hreference hslot =>
        exact ⟨hknown, .slot _, _, [], hreference, .slot hslot, (List.append_nil _).symm⟩
    | inline hknown hreference hshape hlane hfields =>
        exact ⟨hknown, .inline _, _, _, hreference,
          .inline (.intro hshape hlane hfields hwithin), rfl⟩
  · intro h
    rcases h with ⟨hknown, reference, front, back, hreference, hvalue, rfl⟩
    cases hvalue with
    | null =>
        rw [List.append_nil]
        exact ⟨.null hknown hreference, by simp [Value.Within, Value.depth, Value.longest]⟩
    | inline hobject =>
        -- Only here does the value have parts, so only here are levels taken up.
        obtain ⟨hshape, hlane, hfields, hwithin⟩ := hobject
        exact ⟨.inline hknown hreference hshape hlane hfields, hwithin⟩
    | slot hslot =>
        rw [List.append_nil]
        exact ⟨.ref hknown hreference hslot, by simp [Value.Within, Value.depth, Value.longest]⟩

/-- `objectValue` recognises the values of `EncodesAs` of an object tag. -/
theorem recognises_objectValue (levels : Nat)
    (hinner : InwardRecognises ctx describe levels) (source : Source n) {tag : String}
    (viaAny : Bool) (hkind : Tag.kind tag = .object) :
    Recognises (ctx.site describe) (objectValue ctx (innerAt ctx levels) source tag viaAny)
      fun value log => EncodesAs (ctx.site describe) viaAny source.lane tag value log ∧
        value.Within levels ctx.limits.maxArrayLength := by
  have href : (ctx.site describe).IsReferenceTag tag ↔
      ¬(tag ≠ Tag.object ∧ !ctx.schema.contains tag) := by
    rw [Setting.IsReferenceTag, show (ctx.site describe).schema = ctx.schema from rfl]
    simp [hkind, or_iff_not_imp_left]
  rw [objectValue_eq]
  refine (Recognises.ite (fun _ => Recognises.throw (.unknownShape tag)) fun _ =>
    (recognises_reference ctx describe source viaAny).bind
      (recognises_referredValue ctx describe levels hinner source)).congr fun value log => ?_
  rw [encodesAs_object_iff hkind, href]
  split
  case isTrue hunknown => exact ⟨False.elim, fun h => h.1 hunknown⟩
  case isFalse hknown => exact ⟨fun h => ⟨hknown, h⟩, fun h => h.2⟩

end

/-! ### Decoders, once it is known what they are of -/

section

variable {ctx : Context n} {inner : Inner n} {source : Source n} {tag : String} {viaAny : Bool}

theorem lookUpShape_eq_ok_iff {s t : State n} {shape : Shape} :
    lookUpShape ctx tag s = .ok shape t ↔ ctx.schema.shape? tag = some shape ∧ s = t := by
  unfold lookUpShape
  cases ctx.schema.shape? tag with
  | none => simp [throw_ne_ok]
  | some found => simp [pure_eq_ok_iff]

/-- Behind the check that the tag is known, `objectValue` is a reference and what it refers to. -/
theorem objectValue_of_known (h : tag = Tag.object ∨ ctx.schema.contains tag = true) :
    objectValue ctx inner source tag viaAny =
      reference ctx source viaAny >>= referredValue ctx inner source := by
  rw [objectValue_eq, if_neg]
  rintro ⟨hobject, hcontains⟩
  obtain h | h := h
  · exact hobject h
  · simp [h] at hcontains

theorem taggedValue_of_array (hkind : Tag.kind tag = .array) :
    taggedValue ctx inner source tag viaAny = array ctx inner source := by
  rw [taggedValue, hkind]

theorem taggedValue_of_object (hkind : Tag.kind tag = .object) :
    taggedValue ctx inner source tag viaAny = objectValue ctx inner source tag viaAny := by
  rw [taggedValue, hkind]

theorem valueWithin_of_any (hkind : Tag.kind tag = .any) : valueWithin ctx inner source tag =
    typeTag ctx source >>= fun own => taggedValue ctx inner source own true := by
  rw [valueWithin, if_pos hkind]

theorem valueWithin_of_declared (hkind : Tag.kind tag ≠ .any) :
    valueWithin ctx inner source tag = taggedValue ctx inner source tag false := by
  rw [valueWithin, if_neg hkind]

end

end BinaryAst.Decode
