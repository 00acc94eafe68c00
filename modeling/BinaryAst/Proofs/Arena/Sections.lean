import BinaryAst.Proofs.Arena.Chart
/-!
# BinaryAst.Proofs.Arena.Sections

The object table and the root decode by handles as they decode without.

There is one lemma for each decoder of values, `mimics_…`, from `mimics_typeTag` up to
`mimics_valueWithin`. What nests in a value is taken care of by `MimicsInner`: the decoders without
handles know how many levels are left, those by handles count the levels that were entered, and
where nothing is left the count is at its limit. `mimics_value` closes the recursion, by induction
on the levels left.

Two sections are put together from it, `mimics_root` and `simulates_slotSection`. Only the latter
changes its chart: the table of slots is in the arena, and it changes as its slots are filled. Its
length does not, so a reference that looks the length up finds the same one throughout.
-/

namespace BinaryAst.Decode

variable {n : Nat} {α β : Type}

section

variable {k : Chart} {ctx : Context n} {depth : Nat}

/-! ### Tags and references -/

theorem mimics_lookUpTag (index : Option Nat) :
    Mimics (k.At ctx depth) id (lookUpTag ctx index) (Handling.lookUpTag index) := by
  refine simulates_lookUp (y := Handling.check (tagAt ctx.tags index)) (fun _ => rfl) ?_
  unfold lookUpTag
  cases tagAt ctx.tags index with
  | ok tag => exact Mimics.pure rfl
  | error e => exact Mimics.throw e

/-- A type tag is told with the description of the stream that its index was read from. `typeTag`
reads both at once, and `Handling.typeTagFrom_eq` lets the other decoder do the same. -/
theorem mimics_typeTag (source : Source n) :
    Mimics (k.At ctx depth) id (typeTag ctx source)
      (Handling.typeTag (k.handle ctx source.lane)) := by
  refine simulates_lookUp (y := Handling.typeTagFrom ((k.handleIf ctx
    ctx.configuration.typeTagStream .typeTags).getD (k.handle ctx source.lane))) (fun _ => rfl) ?_
  rw [Handling.typeTagFrom_eq]
  exact (mimics_fromTypeTags source _).bind fun found =>
    (mimics_lookUpTag found.1).bind fun tag =>
      (mimics_tell (.tag found.2 tag)).bind fun _ => Mimics.pure rfl

/-- The stream of packed indices is looked up only where the configuration dedicates one. With
packed flags, that is where `separatesPackedIndices` has it opened. -/
theorem mimics_packedIndex (hpacked : ctx.configuration.packedInliningFlags = true)
    (source : Source n) : Mimics (k.At ctx depth) id (Step.fromPackedIndices source Read.index)
      (Handling.packedIndex (k.handle ctx source.lane) ctx.configuration.packedIndexStream) := by
  have hread : Mimics (k.At ctx depth) id (Step.fromPackedIndices source Read.index) _ :=
    mimics_fromPackedIndices source Read.index
  unfold Handling.packedIndex
  cases hdedicated : ctx.configuration.packedIndexStream with
  | false =>
      rw [Configuration.separatesPackedIndices, hpacked, hdedicated] at hread
      exact hread
  | true =>
      exact simulates_lookUp (fun _ => rfl) hread

theorem mimics_packedReference (hpacked : ctx.configuration.packedInliningFlags = true)
    (source : Source n) : Mimics (k.At ctx depth) id (packedReference ctx source)
      (Handling.packedReference (k.handle ctx source.lane)
        ctx.configuration.packedIndexStream) := by
  refine (mimics_packedIndex hpacked source).bind fun packed => ?_
  cases packed with
  | none => exact Mimics.pure rfl
  | some packed =>
      exact .ite .rfl (fun _ => Mimics.map (mimics_lookUpTag _) fun _ => rfl)
        fun _ => Mimics.pure rfl

theorem mimics_inliningFlag (source : Source n) :
    Mimics (k.At ctx depth) id (Step.fromInlining source Read.byte)
      (Handling.inliningFlag (k.handle ctx source.lane)) :=
  simulates_lookUp (fun _ => rfl) (mimics_fromInlining source Read.byte)

theorem mimics_flaggedReference (source : Source n) :
    Mimics (k.At ctx depth) id (flaggedReference ctx source)
      (Handling.flaggedReference (k.handle ctx source.lane)) :=
  (mimics_inliningFlag source).bind fun _ => .ite .rfl (fun _ => Mimics.pure rfl) fun _ =>
    .ite .rfl (fun _ => Mimics.map (mimics_fromSource source Read.index) fun _ => rfl)
      fun _ => Mimics.map (mimics_typeTag source) fun _ => rfl

/-- `Handling.reference` mimics `reference` where objects may be inline; a reference is never a
plain index then. -/
theorem mimics_reference (hinline : ctx.configuration.conditionalInlining = true)
    (source : Source n) : Mimics (k.At ctx depth) id (reference ctx source false)
      (Handling.reference ctx.terms (k.handle ctx source.lane)) := by
  unfold reference Handling.reference
  rw [show ctx.terms.configuration = ctx.configuration from rfl]
  simp only [Configuration.referenceEncoding, hinline]
  cases hpacked : ctx.configuration.packedInliningFlags with
  | false => exact mimics_flaggedReference source
  | true => exact mimics_packedReference hpacked source

end

/-! ### Values -/

section

variable {k : Chart} {ctx : Context n} {depth : Nat} {decode : Handle → String → Handling Value}

/-- The decoder by handles mimics a decoder of values, whatever source it is given. -/
def MimicsDecoder (k : Chart) (ctx : Context n) (depth : Nat)
    (f : Source n → String → Step n Value) (decode : Handle → String → Handling Value) : Prop :=
  ∀ source tag, Mimics (k.At ctx depth) id (f source tag) (decode (k.handle ctx source.lane) tag)

/-- The decoder by handles mimics an `Inner`. Where that allows nothing to nest, the count of levels
is at its limit, and else it is below, and the decoder is mimicked one level further in. -/
def MimicsInner (k : Chart) (ctx : Context n) (depth : Nat) (inner : Inner n)
    (decode : Handle → String → Handling Value) : Prop :=
  match inner with
  | none => ctx.limits.maxDepth ≤ depth
  | some f => depth < ctx.limits.maxDepth ∧ MimicsDecoder k ctx (depth + 1) f decode

/-- `Handling.nested` mimics `descend`: the count of levels refuses exactly where there is no
decoder for what nests, and it is back at `depth` behind the body, whichever way that ends. -/
theorem mimics_nested {inner : Inner n} (h : MimicsInner k ctx depth inner decode) {g : α → β}
    {body : (Source n → String → Step n Value) → Step n α} {other : Handling β}
    (hbody : ∀ f, MimicsDecoder k ctx (depth + 1) f decode →
      Mimics (k.At ctx (depth + 1)) g (body f) other) :
    Mimics (k.At ctx depth) g (descend ctx inner >>= body) (Handling.nested ctx.terms other) := by
  rintro s _ ⟨hs, rfl⟩
  cases inner with
  | none => exact ⟨_, Handling.nested_of_limit h, hs, rfl⟩
  | some f =>
      have hrun := hbody f h.2 s _ ⟨hs, rfl⟩
      rw [show (descend ctx (some f) >>= body) s = body f s from rfl]
      cases hxs : body f s with
      | ok v t =>
          rw [hxs] at hrun
          obtain ⟨_, hy, ht, rfl⟩ := hrun
          exact ⟨_, Handling.nested_of_ok h.1 hy, ht, rfl⟩
      | error e t =>
          rw [hxs] at hrun
          obtain ⟨_, hy, ht, rfl⟩ := hrun
          exact ⟨_, Handling.nested_of_error h.1 hy, ht, rfl⟩

theorem mimics_array {inner : Inner n} (h : MimicsInner k ctx depth inner decode)
    (source : Source n) : Mimics (k.At ctx depth) id (array ctx inner source)
      (Handling.array ctx.terms decode (k.handle ctx source.lane)) :=
  (mimics_fromSource source Read.varUInt32).bind fun _ =>
    .ite .rfl (fun _ => Mimics.throw _) fun _ => .ite .rfl (fun _ => Mimics.pure rfl) fun _ =>
      (mimics_typeTag source).bind fun tag => mimics_nested h fun _ hitem =>
        Mimics.map ((Mimics.collectFrom (fun _ => hitem source tag) _ _).congr List.map_id)
          fun _ => rfl

/-- The look-up of a value stream by tag is the look-up of its route, by `Chart.Fits`. -/
theorem mimics_valueStream (hk : k.Fits ctx) (tag : String) :
    Mimics (k.At ctx depth) (fun source => k.handle ctx source.lane) (valueSource ctx tag)
      (Handling.valueStream tag) := by
  unfold valueSource
  refine simulates_lookUp (y := Handling.streamFound tag
    ((ctx.routes.lookup tag).map fun i : Fin n => k.handle ctx (.values i))) (fun _ => ?_) ?_
  · rw [← hk.values tag]
    rfl
  · cases ctx.routes.lookup tag with
    | some i => exact Mimics.pure rfl
    | none => exact Mimics.throw _

theorem mimics_fieldStream (hk : k.Fits ctx) (active : Source n) (pinned : Bool) (tag : String) :
    Mimics (k.At ctx depth) (fun source => k.handle ctx source.lane)
      (fieldSource ctx active pinned tag)
      (Handling.fieldStream ctx.terms (k.handle ctx active.lane) pinned tag) :=
  .ite .rfl (fun _ => Mimics.pure rfl) fun _ =>
    .ite .rfl (fun _ => mimics_valueStream hk tag) fun _ => Mimics.pure rfl

theorem mimics_fieldValue (hk : k.Fits ctx) {f : Source n → String → Step n Value}
    (hf : MimicsDecoder k ctx depth f decode) (active : Source n) (pinned : Bool) (shape : Shape)
    (field : FieldDecl) : Mimics (k.At ctx depth) id (fieldValue ctx f active pinned shape field)
      (Handling.fieldValue ctx.terms decode (k.handle ctx active.lane) pinned shape field) := by
  refine (mimics_fieldStream hk active pinned _).bind fun source =>
    (mimics_description source).bind fun stream => ?_
  have hredirected :
      (k.handle ctx source.lane != k.handle ctx active.lane) = (source != active) := by
    rw [Bool.eq_iff_iff, bne_iff_ne, bne_iff_ne, Ne, Ne, Chart.handle_lane_inj]
  rw [hredirected]
  exact (mimics_tell _).bind fun _ => hf source _

/-- `inField` wraps a refusal alike on both sides, so it stays the same. -/
theorem mimics_inField {g : α → β} {x : Step n α} {y : Handling β}
    (h : Mimics (k.At ctx depth) g x y) (shape field : String) :
    Mimics (k.At ctx depth) g (inField shape field x) (Handling.inField shape field y) := by
  intro s a hsa
  have hrun := h s a hsa
  unfold inField Handling.inField
  cases hxs : x s with
  | ok v t =>
      rw [hxs] at hrun
      obtain ⟨b, hy, hb⟩ := hrun
      exact ⟨b, by rw [hy], hb⟩
  | error e t =>
      rw [hxs] at hrun
      obtain ⟨b, hy, hb⟩ := hrun
      exact ⟨b, by rw [hy], hb⟩

theorem mimics_fields (hk : k.Fits ctx) {f : Source n → String → Step n Value}
    (hf : MimicsDecoder k ctx depth f decode) (active : Source n) (pinned : Bool) (shape : Shape) :
    Mimics (k.At ctx depth) id (fields ctx f active pinned shape)
      (Handling.fields ctx.terms decode (k.handle ctx active.lane) pinned shape) := by
  refine ((Mimics.mapM (fun field => mimics_inField ?_ _ _) _).congr List.map_id).bind fun _ =>
    Mimics.pure rfl
  exact (mimics_fieldValue hk hf active pinned shape field).bind fun _ => Mimics.pure rfl

theorem mimics_lookUpShape (tag : String) :
    Mimics (k.At ctx depth) id (lookUpShape ctx tag) (Handling.lookUpShape ctx.terms tag) := by
  unfold lookUpShape Handling.lookUpShape
  rw [show ctx.terms.schema = ctx.schema from rfl]
  cases ctx.schema.shape? tag with
  | some shape => exact Mimics.pure rfl
  | none => exact Mimics.throw _

theorem mimics_tableObject (hk : k.Fits ctx) {inner : Inner n}
    (h : MimicsInner k ctx depth inner decode) (source : Source n) :
    Mimics (k.At ctx depth) id (tableObject ctx inner source)
      (Handling.objectContents ctx.terms decode (k.handle ctx source.lane) none) :=
  (mimics_typeTag source).bind fun tag => (mimics_lookUpShape tag).bind fun shape =>
    mimics_nested h fun _ hf => mimics_fields hk hf source false shape

/-- `objectContents` mimics `inlineObject`, from the stream of the shape where inline objects are
kept apart, and from the stream of the reference where they are not. -/
theorem mimics_inlineObject (hk : k.Fits ctx) {inner : Inner n}
    (h : MimicsInner k ctx depth inner decode) (source : Source n) (tag : String) :
    Mimics (k.At ctx depth) id (inlineObject ctx inner source tag)
      (Handling.objectContents ctx.terms decode (k.handle ctx source.lane) (some tag)) := by
  refine (mimics_lookUpShape tag).bind fun shape => ?_
  have hbehind (active : Source n) : Mimics (k.At ctx depth) id
      (do
        Step.tell (.inline tag (← Step.description active))
        fields ctx (← descend ctx inner) active ctx.configuration.separatesInlineObjects shape)
      (do
        Handling.tell (.inline tag (← Handling.description (k.handle ctx active.lane)))
        Handling.nested ctx.terms (Handling.fields ctx.terms decode (k.handle ctx active.lane)
          ctx.configuration.separatesInlineObjects shape)) :=
    (mimics_description active).bind fun _ => (mimics_tell _).bind fun _ =>
      mimics_nested h fun _ hf => mimics_fields hk hf active _ shape
  rw [if_pos Option.isSome_some]
  exact .ite .rfl (fun _ => (mimics_valueStream hk tag).bind hbehind)
    fun _ => hbehind source

/-- The look-up of the object table finds a table, of as many slots as the context counts objects:
`objectTableMissing` is never the outcome. -/
theorem mimics_tableEntry (hk : k.Fits ctx) (index : Option Nat) :
    Mimics (k.At ctx depth) id (index.elim (pure .null) (slotValue ctx) : Step n Value)
      (Handling.tableEntry index) := by
  refine simulates_lookUp (y := Handling.entryWithin ctx.objectCount index) (fun s => ?_) ?_
  · rw [show (k.arena ctx depth s).objects.slots = .ok ctx.objectCount from hk.objects]
    rfl
  · cases index with
    | none => exact Mimics.pure rfl
    | some index => exact .ite .rfl (fun _ => Mimics.pure rfl) fun _ => Mimics.throw _

/-- Where no object may be inline, and below `any`, a reference is a plain index. -/
theorem reference_eq_plainReference {source : Source n} {viaAny : Bool}
    (h : ¬(ctx.configuration.conditionalInlining && !viaAny) = true) :
    reference ctx source viaAny = plainReference source := by
  cases viaAny with
  | true => rfl
  | false => simp_all [reference, Configuration.referenceEncoding]

theorem mimics_objectValue (hk : k.Fits ctx) {inner : Inner n}
    (h : MimicsInner k ctx depth inner decode) (source : Source n) (tag : String) (viaAny : Bool) :
    Mimics (k.At ctx depth) id (objectValue ctx inner source tag viaAny)
      (Handling.objectReference ctx.terms decode (k.handle ctx source.lane) tag viaAny) := by
  refine .ite .rfl (fun _ => Mimics.throw _) fun _ => ?_
  by_cases hinline : (ctx.configuration.conditionalInlining && !viaAny) = true
  · rw [show ctx.terms.configuration = ctx.configuration from rfl, if_pos hinline]
    obtain ⟨hconditional, rfl⟩ : ctx.configuration.conditionalInlining = true ∧ viaAny = false := by
      simpa using hinline
    refine (mimics_reference hconditional source).bind fun found => ?_
    cases found with
    | null => exact Mimics.pure rfl
    | inline shape => exact Mimics.map (mimics_inlineObject hk h source shape) fun _ => rfl
    | slot index => exact mimics_tableEntry hk (some index)
  · rw [show ctx.terms.configuration = ctx.configuration from rfl, if_neg hinline,
      reference_eq_plainReference hinline, plainReference, bind_map_left]
    refine (mimics_fromSource source Read.index).bind fun index => ?_
    cases index with
    | none => exact mimics_tableEntry hk none
    | some index => exact mimics_tableEntry hk (some index)

theorem mimics_symbolValue (source : Source n) :
    Mimics (k.At ctx depth) id (symbolValue ctx source)
      (Handling.symbolValue ctx.terms (k.handle ctx source.lane)) :=
  .ite .rfl (fun _ => Mimics.map (mimics_fromSource source _) fun _ => rfl)
    fun _ => Mimics.map (mimics_fromSource source _) fun _ => rfl

theorem mimics_taggedValue (hk : k.Fits ctx) {inner : Inner n}
    (h : MimicsInner k ctx depth inner decode) (source : Source n) (tag : String) (viaAny : Bool) :
    Mimics (k.At ctx depth) id (taggedValue ctx inner source tag viaAny)
      (Handling.taggedValue ctx.terms decode (k.handle ctx source.lane) tag viaAny) := by
  unfold taggedValue Handling.taggedValue
  cases Tag.kind tag with
  | any => exact Mimics.throw _
  | symbol => exact mimics_symbolValue source
  | string | boolean | integer | double =>
      exact Mimics.map (mimics_fromSource source _) fun _ => rfl
  | array => exact mimics_array h source
  | object => exact mimics_objectValue hk h source tag viaAny

/-- Given what nests, `valueWithin` is mimicked from any source and for any tag. -/
theorem mimics_valueWithin (hk : k.Fits ctx) {inner : Inner n}
    (h : MimicsInner k ctx depth inner decode) :
    MimicsDecoder k ctx depth (valueWithin ctx inner) (Handling.valueWithin ctx.terms decode) :=
  fun source tag => .ite .rfl
    (fun _ => (mimics_typeTag source).bind fun own => mimics_taggedValue hk h source own true)
    fun _ => mimics_taggedValue hk h source tag false

end

section

variable {k : Chart} {ctx : Context n} {depth : Nat}

/-- `Handling.value` mimics `value` as long as it is given more levels than are left: it never comes
to `Stop.spent`, since `nested` refuses before. The induction is on the levels that are left, and
the count goes up as they go down. -/
theorem mimics_value (hk : k.Fits ctx) {left levels : Nat}
    (hleft : depth + left = ctx.limits.maxDepth) (hlevels : left < levels) :
    MimicsDecoder k ctx depth (value ctx left) (Handling.value ctx.terms levels) := by
  induction left generalizing depth levels with
  | zero =>
      obtain ⟨levels, rfl⟩ := Nat.exists_eq_add_one_of_ne_zero hlevels.ne'
      have hinner : MimicsInner k ctx depth none (Handling.value ctx.terms levels) := hleft.ge
      exact mimics_valueWithin hk hinner
  | succ left ih =>
      obtain ⟨levels, rfl⟩ := Nat.exists_eq_add_one_of_ne_zero (Nat.ne_zero_of_lt hlevels)
      have hinner : MimicsInner k ctx depth (some (value ctx left))
          (Handling.value ctx.terms levels) :=
        ⟨by omega, ih (by omega) (Nat.lt_of_succ_lt_succ hlevels)⟩
      exact mimics_valueWithin hk hinner

theorem mimics_innerAt (hk : k.Fits ctx) {left levels : Nat}
    (hleft : depth + left = ctx.limits.maxDepth) (hlevels : left ≤ levels) :
    MimicsInner k ctx depth (innerAt ctx left) (Handling.value ctx.terms levels) := by
  cases left with
  | zero => exact hleft.ge
  | succ left => exact ⟨by omega, mimics_value hk (by omega) hlevels⟩

/-! ### Sections -/

/-- The same was told: all that is asked of a section that was refused. -/
def SameEvents (s : State n) (a : Arena) : Prop := a.events = s.events

theorem Chart.At.sameEvents {s : State n} {a : Arena} (h : k.At ctx depth s a) :
    SameEvents s a := by
  rw [h.2]
  rfl

/-- Where a step of a section is refused, only what it told is kept of its state: `Mimics` weakens
to `SameEvents`. -/
theorem Mimics.ofSection {g : α → β} {x : Step n α} {y : Handling β}
    (h : Mimics (k.At ctx depth) g x y) :
    Simulates (k.At ctx depth) g x y (fun _ => k.At ctx depth) SameEvents :=
  h.mono (fun _ _ hsa => hsa) (fun _ _ _ hsa => hsa) fun _ _ hsa => hsa.sameEvents

theorem Chart.Fits.withObjects (hk : k.Fits ctx) {table : SlotTable}
    (h : table.slots = .ok ctx.objectCount) : { k with objects := table }.Fits ctx :=
  ⟨hk.values, h⟩

theorem Chart.Fits.withContainer (hk : k.Fits ctx) (container : Reader) :
    { k with container }.Fits ctx :=
  ⟨hk.values, hk.objects⟩

theorem mimics_slotObject (hk : k.Fits ctx) {levels : Nat}
    (hlevels : ctx.limits.maxDepth ≤ levels) (slot : Nat) :
    Mimics (k.At ctx 0) id (slotObject ctx slot) (Handling.slotObject ctx.terms
      (Handling.value ctx.terms levels) (k.handle ctx .own) slot) :=
  (mimics_tableObject hk (mimics_innerAt hk (Nat.zero_add _) hlevels) .own).bind fun object =>
    (mimics_tell (.slot slot object.shape)).bind fun _ => Mimics.pure rfl

/-- `fillEachSlot` changes the table, and with it the chart, but never the length of the table: the
chart still `Fits` the context for the slots to come. -/
theorem simulates_fillSlots (hk : k.Fits ctx) {levels : Nat}
    (hlevels : ctx.limits.maxDepth ≤ levels) (left slot : Nat) :
    Simulates (k.At ctx 0) (fun _ => ()) (fillSlots ctx left slot k.objects)
      (Handling.fillEachSlot ctx.terms (Handling.value ctx.terms levels) (k.handle ctx .own) left
        slot)
      (fun table s a => table.slots = .ok ctx.objectCount ∧
        { k with objects := table }.At ctx 0 s a) SameEvents := by
  induction left generalizing k slot with
  | zero => exact .pure rfl fun s a h => ⟨hk.objects, h⟩
  | succ left ih =>
      refine (mimics_slotObject hk hlevels slot).ofSection.bind fun object => ?_
      have hslots : (k.objects.fill slot object).slots = .ok ctx.objectCount :=
        (SlotTable.slots_fill _ _ _).trans hk.objects
      refine Simulates.modify ?_ (ih (hk.withObjects hslots) (slot + 1))
      rintro s _ ⟨hs, rfl⟩
      exact ⟨hs, rfl⟩

/-- The object table, from its count on. The table that `slotSection` is handed over to and gives
back is in the arena all along. -/
theorem simulates_slotSection (hk : k.Fits ctx) {levels : Nat}
    (hlevels : ctx.limits.maxDepth ≤ levels) :
    Simulates (k.At ctx 0) (fun _ => ()) (slotSection ctx k.objects)
      (Handling.objectTable ctx.terms (Handling.value ctx.terms levels) (k.handle ctx .own))
      (fun table s a => table.slots = .ok ctx.objectCount ∧
        { k with objects := table }.At ctx 0 s a) SameEvents := by
  refine (mimics_fromSource .own Read.uint32).ofSection.bind fun count => ?_
  rw [hk.objects, check_ok, pure_bind]
  refine simulates_lookUp (y := do
    let slots ← Handling.check (.ok ctx.objectCount)
    if count = slots then
      Handling.fillEachSlot ctx.terms (Handling.value ctx.terms levels) (k.handle ctx .own) slots 0
    else Handling.refuse (.objectCountMismatch count slots)) (fun _ => ?_) ?_
  · rw [← hk.objects]
    rfl
  · refine .ite .rfl (fun hcount => ?_) fun _ => .throw _ fun _ _ h => h.sameEvents
    exact simulates_fillSlots hk hlevels ctx.objectCount 0

theorem mimics_root (hk : k.Fits ctx) {levels : Nat} (hlevels : ctx.limits.maxDepth < levels) :
    Mimics (k.At ctx 0) id (root ctx)
      (Handling.root (Handling.value ctx.terms levels) (k.handle ctx .own)) :=
  (mimics_value hk (Nat.zero_add _) hlevels .own Tag.any).bind fun _ =>
    .ite .rfl (fun _ => Mimics.throw _) fun _ => Mimics.pure rfl

end

end BinaryAst.Decode
