import BinaryAst.Proofs.Decode.Objects
import BinaryAst.Proofs.Normal.Format
/-!
# BinaryAst.Proofs.Normal.Sections

Sections decode alike under a configuration and under its normal form.

Each decoder under the normal form mirrors the same decoder under the configuration itself
(`Agrees`). Most switches are looked at through decisions that the normal form keeps. The two
that it may turn off on its own account, partitions and the exception from them, are looked at
behind a reference to an inline object only; and where there are no inline objects, a reference
is a plain index, which is never to one.
-/

namespace BinaryAst.Decode

variable {n : Nat} {α β : Type}

/-- The side streams, each of whose readers is in normal form. -/
def SideStreams.normalize (side : SideStreams) : SideStreams :=
  ⟨side.inlining.map Reader.normalize, side.typeTags.map Reader.normalize,
    side.packedIndices.map Reader.normalize⟩

/-- The state, each of whose readers is in normal form. What was told stays. -/
def State.normalize (s : State n) : State n :=
  ⟨s.own.normalize, s.values.map Reader.normalize, s.side.normalize, s.events⟩

/-- The context with its configuration in normal form. -/
def Context.normalize (ctx : Context n) : Context n :=
  { ctx with configuration := ctx.configuration.normalize }

/-- The second step does from `State.normalize` what the first does from the state itself: it ends
alike and in the normal form of the same state. -/
abbrev Agrees (x y : Step n α) : Prop := Mirrors State.normalize id x y

/-! ### Streams -/

/-- The reader of a source in the normal form is the normal form of its reader. -/
theorem reader_normalize (s : State n) (source : Source n) :
    s.normalize.reader source = (s.reader source).normalize := by
  cases source with
  | own => rfl
  | values i => simp [State.reader, State.normalize]

/-- `setReader` and `normalize` commute. -/
theorem setReader_normalize (s : State n) (source : Source n) (r : Reader) :
    s.normalize.setReader source r.normalize = (s.setReader source r).normalize := by
  cases source with
  | own => rfl
  | values i => simp [State.setReader, State.normalize]

/-- A read that is `Read.Blind` to the normal form is served alike, if its reader is put back alike.
-/
theorem serve_normalize {r : Reader} {putBack putBack' : Reader → State n} {read : Read α}
    (hread : read.Blind id read) (hput : ∀ r, putBack' r.normalize = (putBack r).normalize) :
    State.serve r.normalize putBack' read =
      carry State.normalize id (State.serve r putBack read) := by
  unfold State.serve
  rw [hread r]
  cases read r with
  | ok v r' => exact congrArg (EStateM.Result.ok v) (hput r')
  | error e r' => exact congrArg (EStateM.Result.error e) (hput r')

section

variable {read : Read α} (hread : read.Blind id read) (source : Source n)
include hread

/-- `fromSource` agrees for a read that is blind to the normal form. -/
theorem agrees_fromSource : Agrees (Step.fromSource source read) (Step.fromSource source read) := by
  intro s
  unfold Step.fromSource
  rw [reader_normalize]
  exact serve_normalize hread (setReader_normalize s source)

/-- `fromInlining` agrees for a read that is blind: the normal form has a stream of flags where the
state does. -/
theorem agrees_fromInlining :
    Agrees (Step.fromInlining source read) (Step.fromInlining source read) := by
  intro s
  unfold Step.fromInlining
  rw [show s.normalize.side.inlining = s.side.inlining.map Reader.normalize from rfl]
  cases s.side.inlining with
  | none => exact agrees_fromSource hread source s
  | some r => exact serve_normalize hread fun _ => rfl

theorem agrees_fromTypeTags :
    Agrees (Step.fromTypeTags source read) (Step.fromTypeTags source read) := by
  intro s
  unfold Step.fromTypeTags
  rw [show s.normalize.side.typeTags = s.side.typeTags.map Reader.normalize from rfl]
  cases s.side.typeTags with
  | none => exact agrees_fromSource hread source s
  | some r => exact serve_normalize hread fun _ => rfl

theorem agrees_fromPackedIndices :
    Agrees (Step.fromPackedIndices source read) (Step.fromPackedIndices source read) := by
  intro s
  unfold Step.fromPackedIndices
  rw [show s.normalize.side.packedIndices = s.side.packedIndices.map Reader.normalize from rfl]
  cases s.side.packedIndices with
  | none => exact agrees_fromSource hread source s
  | some r => exact serve_normalize hread fun _ => rfl

end

theorem agrees_description (source : Source n) :
    Agrees (Step.description source) (Step.description source) := fun s => by
  unfold Step.description
  rw [reader_normalize]
  rfl

theorem agrees_tell (event : Event) :
    Agrees (Step.tell event : Step n Unit) (Step.tell event) := fun _ => rfl

/-- `inField` wraps the same errors on both sides. -/
theorem agrees_inField {x y : Step n α} (h : Agrees x y) (shape field : String) :
    Agrees (inField shape field x) (inField shape field y) := by
  intro s
  unfold inField
  rw [h s]
  cases x s <;> rfl

theorem agrees_collectFrom {step other : Nat → Step n α}
    (h : ∀ position, Agrees (step position) (other position)) (left position : Nat) :
    Agrees (collectFrom step left position []) (collectFrom other left position []) :=
  (Mirrors.collectFrom h left position).congr List.map_id

theorem agrees_mapM {γ : Type} {step other : γ → Step n α} (h : ∀ c, Agrees (step c) (other c))
    (cs : List γ) : Agrees (cs.mapM step) (cs.mapM other) :=
  (Mirrors.mapM h cs).congr List.map_id

/-! ### Tags and references -/

variable (ctx : Context n)

/-- `lookUpTag` agrees: the tags are in the context, and its normal form has the same. -/
theorem agrees_lookUpTag (index : Option Nat) :
    Agrees (lookUpTag ctx index : Step n String) (lookUpTag ctx.normalize index) := by
  unfold lookUpTag
  rw [show ctx.normalize.tags = ctx.tags from rfl]
  cases tagAt ctx.tags index with
  | ok tag => exact .pure rfl
  | error e => exact .throw e

/-- `typeTag` agrees, and tells the same name of its stream on both sides. -/
theorem agrees_typeTag (source : Source n) :
    Agrees (typeTag ctx source) (typeTag ctx.normalize source) := by
  have hread : Read.Blind id
      (do return (← Read.index, (← get).description) : Read (Option Nat × String))
      (do return (← Read.index, (← get).description)) :=
    Read.blind_index.bind fun _ => .get_bind fun _ => .pure rfl
  exact (agrees_fromTypeTags hread source).bind fun found =>
    (agrees_lookUpTag ctx found.1).bind fun tag => (agrees_tell _).bind fun _ => .pure rfl

theorem agrees_plainReference (source : Source n) :
    Agrees (plainReference source) (plainReference source) :=
  (agrees_fromSource Read.blind_index source).map fun _ => rfl

/-- `packedReference` looks at no switch but the stream of packed indices, which the state has or
has not. -/
theorem agrees_packedReference (source : Source n) :
    Agrees (packedReference ctx source) (packedReference ctx.normalize source) := by
  refine (agrees_fromPackedIndices Read.blind_index source).bind fun packed => ?_
  cases packed with
  | none => exact .pure rfl
  | some packed =>
      exact .ite .rfl (fun _ => (agrees_lookUpTag ctx _).map fun _ => rfl) fun _ => .pure rfl

theorem agrees_flaggedReference (source : Source n) :
    Agrees (flaggedReference ctx source) (flaggedReference ctx.normalize source) :=
  (agrees_fromInlining Read.blind_byte source).bind fun _ => .ite .rfl (fun _ => .pure rfl) fun _ =>
    .ite .rfl (fun _ => agrees_plainReference source) fun _ =>
      (agrees_typeTag ctx source).map fun _ => rfl

/-- A reference is encoded by `referenceEncoding`, which the normal form keeps. -/
theorem agrees_reference (source : Source n) (viaAny : Bool) :
    Agrees (reference ctx source viaAny) (reference ctx.normalize source viaAny) := by
  refine .ite .rfl (fun _ => agrees_plainReference source) fun _ => ?_
  rw [show ctx.normalize.configuration.referenceEncoding = ctx.configuration.referenceEncoding
    from ctx.configuration.referenceEncoding_normalize]
  cases ctx.configuration.referenceEncoding with
  | plain => exact agrees_plainReference source
  | flagged => exact agrees_flaggedReference ctx source
  | packed => exact agrees_packedReference ctx source

/-- Without `conditionalInlining`, no `reference` is to an inline object. So what is read behind one
need not agree there, and in the normal form it does not. -/
theorem reference_ne_inline (h : ctx.configuration.conditionalInlining = false) {source : Source n}
    {viaAny : Bool} {s t : State n} {shape : String} :
    reference ctx source viaAny s ≠ .ok (.inline shape) t := by
  have hplain : reference ctx source viaAny = plainReference source := by
    simp [reference, Configuration.referenceEncoding, h]
  intro hrun
  rw [hplain] at hrun
  obtain ⟨index, -, hindex⟩ := map_eq_ok_iff.mp hrun
  cases index <;> cases hindex

/-! ### Values -/

/-- Two decoders of values agree, from any source and for any tag. -/
def DecodersAgree (decode other : Source n → String → Step n Value) : Prop :=
  ∀ source tag, Agrees (decode source tag) (other source tag)

/-- Where both decoders may `descend` one level further in, or neither may, what is done there with
decoders that agree does agree. -/
theorem agrees_descend {inner other : Inner n} (h : Option.Rel DecodersAgree inner other)
    {body body' : (Source n → String → Step n Value) → Step n α}
    (hbody : ∀ decode decode', DecodersAgree decode decode' →
      Agrees (body decode) (body' decode')) :
    Agrees (descend ctx inner >>= body) (descend ctx.normalize other >>= body') := by
  cases h with
  | none => exact .throw _
  | some h => exact hbody _ _ h

theorem agrees_array {inner other : Inner n} (h : Option.Rel DecodersAgree inner other)
    (source : Source n) : Agrees (array ctx inner source) (array ctx.normalize other source) :=
  (agrees_fromSource Read.blind_varUInt32 source).bind fun _ =>
    .ite .rfl (fun _ => .throw _) fun _ => .ite .rfl (fun _ => .pure rfl) fun _ =>
      (agrees_typeTag ctx source).bind fun tag => agrees_descend ctx h fun _ _ hitem =>
        (agrees_collectFrom (fun _ => hitem source tag) _ _).map fun _ => rfl

/-- `valueSource` agrees: the routes are in the context, and its normal form has the same. -/
theorem agrees_valueSource (tag : String) :
    Agrees (valueSource ctx tag) (valueSource ctx.normalize tag) := by
  unfold valueSource
  rw [show ctx.normalize.routes = ctx.routes from rfl]
  cases ctx.routes.lookup tag with
  | some i => exact .pure rfl
  | none => exact .throw _

/-- `fieldSource` agrees. Only a pinned field asks for `noOverridingPrimitiveStream`, so the switch
needs to be the same on both sides only where the field is pinned. -/
theorem agrees_fieldSource (active : Source n) {pinned : Bool}
    (hpinned : pinned = true → ctx.normalize.configuration.noOverridingPrimitiveStream =
      ctx.configuration.noOverridingPrimitiveStream) (tag : String) :
    Agrees (fieldSource ctx active pinned tag) (fieldSource ctx.normalize active pinned tag) := by
  refine .ite ?_ (fun _ => .pure rfl) fun _ =>
    .ite .rfl (fun _ => agrees_valueSource ctx tag) fun _ => .pure rfl
  cases pinned with
  | false => exact .rfl
  | true => rw [hpinned rfl]

/-- The fields of an object agree, on the same condition as `agrees_fieldSource`. -/
theorem agrees_fields {decode other : Source n → String → Step n Value}
    (h : DecodersAgree decode other) (active : Source n) {pinned : Bool}
    (hpinned : pinned = true → ctx.normalize.configuration.noOverridingPrimitiveStream =
      ctx.configuration.noOverridingPrimitiveStream) (shape : Shape) :
    Agrees (fields ctx decode active pinned shape)
      (fields ctx.normalize other active pinned shape) := by
  refine (agrees_mapM (fun field => agrees_inField ?_ _ _) _).bind fun _ => .pure rfl
  have hvalue : Agrees (fieldValue ctx decode active pinned shape field)
      (fieldValue ctx.normalize other active pinned shape field) :=
    (agrees_fieldSource ctx active hpinned _).bind fun source =>
      (agrees_description source).bind fun _ => (agrees_tell _).bind fun _ => h source _
  exact hvalue.bind fun _ => .pure rfl

theorem agrees_lookUpShape (tag : String) :
    Agrees (lookUpShape ctx tag : Step n Shape) (lookUpShape ctx.normalize tag) := by
  unfold lookUpShape
  rw [show ctx.normalize.schema = ctx.schema from rfl]
  cases ctx.schema.shape? tag with
  | some shape => exact .pure rfl
  | none => exact .throw _

/-- `inlineObject` agrees: where there are inline objects, the normal form keeps the switches that
they are read by. -/
theorem agrees_inlineObject (hinlining : ctx.configuration.conditionalInlining = true)
    {inner other : Inner n} (h : Option.Rel DecodersAgree inner other) (source : Source n)
    (tag : String) :
    Agrees (inlineObject ctx inner source tag) (inlineObject ctx.normalize other source tag) := by
  have hpartitions : ctx.normalize.configuration.separatesInlineObjects =
      ctx.configuration.separatesInlineObjects :=
    Configuration.separatesInlineObjects_normalize hinlining
  rw [inlineObject_eq, inlineObject_eq, hpartitions]
  refine (agrees_lookUpShape ctx tag).bind fun shape => ?_
  have hsource : Agrees (inlineSource ctx source tag) (inlineSource ctx.normalize source tag) := by
    refine .ite ?_ (fun _ => agrees_valueSource ctx tag) fun _ => .pure rfl
    rw [hpartitions]
  exact hsource.bind fun active => (agrees_description active).bind fun _ =>
    (agrees_tell _).bind fun _ => agrees_descend ctx h fun _ _ hfield =>
      agrees_fields ctx hfield active
        (Configuration.noOverridingPrimitiveStream_normalize hinlining) shape

/-- A value of an object tag, by what its reference is. Behind one to an inline object,
`reference_ne_inline` settles the configurations without `conditionalInlining`, and
`agrees_inlineObject` the others. -/
theorem agrees_objectValue {inner other : Inner n} (h : Option.Rel DecodersAgree inner other)
    (source : Source n) (tag : String) (viaAny : Bool) :
    Agrees (objectValue ctx inner source tag viaAny)
      (objectValue ctx.normalize other source tag viaAny) := by
  rw [objectValue_eq, objectValue_eq]
  refine .ite .rfl (fun _ => .throw _) fun _ =>
    (agrees_reference ctx source viaAny).bind_of fun s reference t hreference => ?_
  cases reference with
  | null => exact .pure rfl
  | slot index => exact .ite .rfl (fun _ => .pure rfl) fun _ => .throw _
  | inline shape =>
      cases hinlining : ctx.configuration.conditionalInlining with
      | false => exact absurd hreference (reference_ne_inline ctx hinlining)
      | true => exact (agrees_inlineObject ctx hinlining h source shape).map fun _ => rfl

/-- A value of any tag but `any`, by the kind of the tag. -/
theorem agrees_taggedValue {inner other : Inner n} (h : Option.Rel DecodersAgree inner other)
    (source : Source n) (tag : String) (viaAny : Bool) :
    Agrees (taggedValue ctx inner source tag viaAny)
      (taggedValue ctx.normalize other source tag viaAny) := by
  unfold taggedValue
  cases Tag.kind tag with
  | any => exact .throw _
  | symbol =>
      exact .ite .rfl (fun _ => (agrees_fromSource Read.blind_index source).map fun _ => rfl)
        fun _ => (agrees_fromSource Read.blind_string source).map fun _ => rfl
  | string => exact (agrees_fromSource Read.blind_string source).map fun _ => rfl
  | boolean => exact (agrees_fromSource Read.blind_byte source).map fun _ => rfl
  | integer => exact (agrees_fromSource Read.blind_int32 source).map fun _ => rfl
  | double => exact (agrees_fromSource Read.blind_binary64 source).map fun _ => rfl
  | array => exact agrees_array ctx h source
  | object => exact agrees_objectValue ctx h source tag viaAny

theorem agrees_valueWithin {inner other : Inner n} (h : Option.Rel DecodersAgree inner other) :
    DecodersAgree (valueWithin ctx inner) (valueWithin ctx.normalize other) := fun source tag =>
  .ite .rfl (fun _ => (agrees_typeTag ctx source).bind fun own =>
    agrees_taggedValue ctx h source own true) fun _ => agrees_taggedValue ctx h source tag false

/-- `value` agrees however many levels are left. The induction is on the levels. -/
theorem agrees_value (levels : Nat) :
    DecodersAgree (value ctx levels) (value ctx.normalize levels) := by
  induction levels with
  | zero => exact agrees_valueWithin ctx .none
  | succ levels ih => exact agrees_valueWithin ctx (.some ih)

theorem agrees_innerAt (levels : Nat) :
    Option.Rel DecodersAgree (innerAt ctx levels) (innerAt ctx.normalize levels) := by
  cases levels with
  | zero => exact .none
  | succ levels => exact .some (agrees_value ctx levels)

/-! ### Sections -/

theorem agrees_tableObject (levels : Nat) (source : Source n) :
    Agrees (tableObject ctx (innerAt ctx levels) source)
      (tableObject ctx.normalize (innerAt ctx.normalize levels) source) :=
  (agrees_typeTag ctx source).bind fun tag => (agrees_lookUpShape ctx tag).bind fun shape =>
    agrees_descend ctx (agrees_innerAt ctx levels) fun _ _ hfield =>
      agrees_fields ctx hfield source (fun h => absurd h Bool.false_ne_true) shape

/-- `objectTable` agrees, with the same count to be met. -/
theorem agrees_objectTable : Agrees (objectTable ctx) (objectTable ctx.normalize) := by
  refine (agrees_fromSource (Read.blind_unsigned 4) .own).bind fun _ => .ite .rfl
    (fun _ => agrees_collectFrom (fun slot => ?_) _ _) fun _ => .throw _
  refine (agrees_tableObject ctx _ .own).bind fun object => ?_
  exact (agrees_tell (.slot slot object.shape)).bind fun _ => .pure rfl

theorem agrees_root : Agrees (root ctx) (root ctx.normalize) :=
  (agrees_value ctx _ .own Tag.any).bind fun _ => .ite .rfl (fun _ => .throw _) fun _ => .pure rfl

end BinaryAst.Decode
