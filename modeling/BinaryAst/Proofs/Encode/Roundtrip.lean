import BinaryAst.Proofs.Container.Assembly
import BinaryAst.Proofs.Encode.Grammatical
import BinaryAst.Proofs.Encode.Program
/-!
# BinaryAst.Proofs.Encode.Roundtrip

A graph that is encoded is decoded to itself, in every configuration.

The encoder's container has a layout that is read to the end in every stream, and the two
sections have logs in the grammar that take what was put. So the container is accepted
(`Module.decode_eq_ok_iff`), with the graph it was made from.
-/

namespace BinaryAst

open Decode

namespace Encoding

variable {e : Encoding}

/-! ### Streams that are there -/

theorem has_of_mem_puts : ∀ put ∈ e.tablePuts ++ e.rootPuts, e.routing.Has put.lane := by
  rw [List.forall_mem_append]
  exact ⟨Routing.has_putTable e.drafts.objects, Routing.has_putRoot e.drafts.root⟩

/-- Nothing is put in a stream that the container is without (`Routing.Has`). -/
theorem sharedSteps_of_not_has {lane : Lane} (h : ¬e.routing.Has lane) :
    e.sharedSteps lane = [] := by
  have hnone : (e.tablePuts ++ e.rootPuts).filter (·.lane = lane) = [] := by
    refine List.filter_eq_nil_iff.mpr fun put hput heq => h ?_
    rw [← of_decide_eq_true heq]
    exact has_of_mem_puts put hput
  rw [sharedSteps, Put.stepsOn, hnone, List.map_nil]

/-- A value stream that `Routing.Has` knows of is one of those that are written. -/
theorem mem_zipIdx_of_has {i : Nat} (h : e.routing.Has (.values i)) :
    e.configuration.valueStreamPerType = true ∧ ∃ tag, (tag, i) ∈ e.tags.zipIdx := by
  obtain ⟨tag, htag⟩ := h
  simp only [routing] at htag
  split at htag
  case isTrue hstreams =>
    obtain ⟨front, back, hsplit, -⟩ := List.lookup_eq_some_iff.mp htag
    refine ⟨hstreams, tag, ?_⟩
    rw [← List.mem_reverse, hsplit]
    exact List.mem_append_right _ List.mem_cons_self
  case isFalse => cases htag

/-- Each tag in the tag table has a value stream, where values are kept by tag, so the `Routing` of
the encoder finds one. -/
theorem routesTags : e.routing.RoutesTags := by
  intro hstreams tag htag
  have hper : e.configuration.valueStreamPerType = true := hstreams
  obtain ⟨i, hi⟩ := List.getElem?_of_mem htag
  simp only [routing, hper, if_true, List.lookup_isSome_iff]
  refine ⟨(tag, i), List.mem_reverse.mpr ?_, beq_self_eq_true tag⟩
  exact List.mk_mem_zipIdx_iff_getElem?.mpr hi

/-! ### Steps that fit -/

theorem fits_of_mem_program (h : e.Fits) {step : WriteStep} (hmem : step ∈ e.program) :
    step.Fits e.format :=
  WriteStep.allFit_iff.mp h step hmem

/-- The steps of `valueStream` are in the `program`, where values are kept by tag. -/
theorem mem_program_of_mem_valueStream (hper : e.configuration.valueStreamPerType = true)
    {entry : String × Nat} (hentry : entry ∈ e.tags.zipIdx) {step : WriteStep}
    (hstep : step ∈ e.valueStream entry) : step ∈ e.program := by
  have hstreams : step ∈ e.tags.zipIdx.flatMap e.valueStream :=
    List.mem_flatMap.mpr ⟨entry, hentry, hstep⟩
  simp only [program, hper, List.mem_append]
  tauto

/-- A stream that `Routing.Has` knows of, and that both sections share, is written as a substream.
-/
theorem exists_substream_of_has {lane : Lane} (hlane : lane ≠ .own) (h : e.routing.Has lane) :
    ∃ description, .substream description (e.sharedSteps lane) ∈ e.program := by
  cases lane with
  | own => exact absurd rfl hlane
  | inlining =>
      have hpresent : e.configuration.separatesInliningFlags = true := h
      exact ⟨"inlining", by simp [program, optional, hpresent]⟩
  | typeTags =>
      have hpresent : e.configuration.typeTagStream = true := h
      exact ⟨"typeTags", by simp [program, optional, hpresent]⟩
  | packedIndices =>
      have hpresent : e.configuration.separatesPackedIndices = true := h
      exact ⟨"packedIndices", by simp [program, optional, hpresent]⟩
  | values i =>
      obtain ⟨hper, tag, hmem⟩ := mem_zipIdx_of_has h
      exact ⟨valuesDescription tag, mem_program_of_mem_valueStream hper hmem
        (List.mem_cons_of_mem _ List.mem_cons_self)⟩

/-- Everything that is put `Fit`s when everything that is written does. -/
theorem fit_puts (h : e.Fits) : Put.Fit e.format (e.tablePuts ++ e.rootPuts) := by
  have hsteps : ∀ description {steps}, .substream description steps ∈ e.program →
      ∀ step ∈ steps, step.Fits e.format := fun _ _ hmem =>
    WriteStep.allFit_iff.mp (fits_of_mem_program h hmem).2.1
  have hmem : ∀ put puts, put ∈ puts → put.step ∈ Put.stepsOn put.lane puts := by
    intro put puts hput
    exact List.mem_map_of_mem (List.mem_filter.mpr ⟨hput, decide_eq_true rfl⟩)
  intro put hput
  by_cases hlane : put.lane = .own
  · rcases List.mem_append.mp hput with hput | hput
    · exact hsteps "objects" (by simp [program]) put.step (hlane ▸ hmem put _ hput)
    · exact hsteps "root" (by simp [program]) put.step (hlane ▸ hmem put _ hput)
  -- what is put in a shared stream is part of what both sections put there
  · obtain ⟨description, hprogram⟩ := exists_substream_of_has hlane (has_of_mem_puts put hput)
    exact hsteps description hprogram put.step (hmem put _ hput)

/-! ### The layout -/

/-- What holds of every part of the `layout` is what holds of the `substream` steps of the program.
-/
theorem forall_mem_parts {P : Part → Prop}
    (h : ∀ description steps preface, .substream description steps ∈ e.program →
      P { Section.whole e.format description (WriteStep.bytesAll e.format steps) with preface })
    (htags : P (Section.whole e.format "tags" (Write.tagNames e.format e.tags)).part) :
    ∀ part ∈ e.layout.parts, P part := by
  -- The three side streams are of one kind: a step that is in the program only if it is called for.
  have hoptional : ∀ present description lane,
      (∀ step ∈ e.optional present description lane, step ∈ e.program) →
        ∀ part ∈ Section.optional (e.optionalSection present description lane), P part := by
    intro present description lane hmem part hpart
    cases present with
    | false => simp [optionalSection, Section.optional] at hpart
    | true =>
        obtain rfl : part = (e.sharedSection description lane).part := by
          simpa [optionalSection, Section.optional] using hpart
        exact h _ _ _ (hmem _ (by simp [optional]))
  have hvalues : ∀ part ∈ e.layout.values.map (·.2), P part := by
    intro part hpart
    simp only [layout] at hpart
    split at hpart
    case isFalse => simp at hpart
    case isTrue hper =>
      simp only [List.mem_map] at hpart
      obtain ⟨_, ⟨entry, hentry, rfl⟩, rfl⟩ := hpart
      exact h _ _ _ (mem_program_of_mem_valueStream hper hentry
        (List.mem_cons_of_mem _ List.mem_cons_self))
  simp only [Layout.parts, Layout.beforeRoot, Shared.parts, SideSections.parts,
    List.forall_mem_append, List.forall_mem_singleton]
  have hinlining := hoptional e.configuration.separatesInliningFlags "inlining" .inlining
    fun step hstep => by simp only [program, List.mem_append]; tauto
  have htypeTags := hoptional e.configuration.typeTagStream "typeTags" .typeTags
    fun step hstep => by simp only [program, List.mem_append]; tauto
  have hpacked := hoptional e.configuration.separatesPackedIndices "packedIndices" .packedIndices
    fun step hstep => by simp only [program, List.mem_append]; tauto
  exact ⟨⟨⟨htags, ⟨⟨hinlining, htypeTags⟩, hpacked⟩, hvalues⟩, h _ _ _ (by simp [program])⟩,
    h _ _ _ (by simp [program])⟩

/-- Every part of the layout is `Part.Exhausted`, that is read to its end. -/
theorem exhausted_of_mem_parts : ∀ part ∈ e.layout.parts, part.Exhausted :=
  forall_mem_parts (fun _ _ _ _ => rfl) rfl

theorem valid_of_mem_parts (h : e.Fits) : ∀ part ∈ e.layout.parts, part.Valid e.format := by
  refine forall_mem_parts (fun description steps preface hmem => ?_) ?_
  · obtain ⟨hname, -, hlength⟩ := fits_of_mem_program h hmem
    exact ⟨Section.valid_whole hname hlength, List.prefix_rfl⟩
  · obtain ⟨-, -, hlength⟩ : (WriteStep.tagTable e.tags).Fits e.format :=
      fits_of_mem_program h (by simp [program])
    exact ⟨Section.valid_whole e.format.holds_tags hlength, List.prefix_rfl⟩

/-- What is marked in a shared stream of the layout is what both sections put there (`sharedSteps`).
-/
theorem taken_layout {lane : Lane} (hlane : lane ≠ .own) :
    e.layout.taken lane = WriteStep.bytesAll e.format (e.sharedSteps lane) := by
  have hoptional : ∀ present description, (present = true ↔ e.routing.Has lane) →
      ((e.optionalSection present description lane).map (·.taken)).getD [] =
        WriteStep.bytesAll e.format (e.sharedSteps lane) := by
    intro present description hpresent
    cases present with
    | true => rfl
    | false =>
        rw [sharedSteps_of_not_has fun hhas => by simpa using hpresent.mpr hhas]
        rfl
  cases lane with
  | own => exact absurd rfl hlane
  | inlining => exact hoptional _ _ Iff.rfl
  | typeTags => exact hoptional _ _ Iff.rfl
  | packedIndices => exact hoptional _ _ Iff.rfl
  | values i =>
      by_cases hhas : e.routing.Has (.values i)
      · obtain ⟨hper, tag, hmem⟩ := mem_zipIdx_of_has hhas
        have htag : e.tags[i]? = some tag := List.mk_mem_zipIdx_iff_getElem?.mp hmem
        simp [Shared.taken, Shared.section?, layout, hper, htag, valueEntry, sharedSection,
          Section.whole]
      · rw [sharedSteps_of_not_has hhas]
        by_cases hper : e.configuration.valueStreamPerType = true
        · cases htag : e.tags[i]? with
          | none => simp [Shared.taken, Shared.section?, layout, hper, htag, WriteStep.bytesAll]
          | some tag =>
              -- the stream of an earlier position of the tag, which has nothing in it
              simp [Shared.taken, Shared.section?, layout, hper, htag, valueEntry, sharedSection,
                Section.whole, sharedSteps_of_not_has hhas]
        · simp [Shared.taken, Shared.section?, layout, hper, WriteStep.bytesAll]

/-- `Layout.route` and the encoder agree on the value stream of each tag. -/
theorem route_layout : e.layout.route = e.routing.route := by
  funext tag
  simp only [Shared.route, routing, layout]
  by_cases hper : e.configuration.valueStreamPerType = true
  · have hmap : (e.tags.zipIdx.map e.valueEntry).map (·.1) = e.tags := by
      rw [List.map_map]
      exact List.zipIdx_map_fst 0 e.tags
    rw [if_pos hper, if_pos hper, hmap]
  · rw [if_neg hper, if_neg hper]
    rfl

/-- The module that the container is decoded to. -/
def decoded (e : Encoding) : Module where
  configuration := e.configuration
  header := e.layout.header
  tags := e.tags
  objects := (Draft.graph e.drafts).objects
  root := (Draft.graph e.drafts).root
  streams := Part.eachFrom Part.use Header.size e.layout.parts

/-- What the encoding of a section is relative to. Sections differ in the descriptions of
their own streams alone. -/
def site (e : Encoding) (own : String) : Site where
  toRouting := e.routing
  describe := e.layout.describe own

/-- The `site` that the layout has for a section is the one that the encoder went by. -/
theorem site_layout (own : String) :
    e.layout.site (e.decoded.setting e.schema) own = e.site own := by
  simp only [Shared.site, route_layout, site]
  simp [decoded, Module.setting, Draft.graph, routing]

/-- The two sections of the layout decode to the graph (`Layout.Decodes`), by logs that take what
was put. -/
theorem exists_decodes (h : e.Fits) (hsuits : Draft.GraphSuits e.routing.toSetting e.drafts) :
    ∃ objectsLog rootLog, e.layout.Decodes e.schema e.decoded objectsLog rootLog := by
  obtain ⟨htable, hroot⟩ := Put.fit_append_iff.mp (fit_puts h)
  obtain ⟨objectsLog, hobjects, hobjectsSilent⟩ :
      ∃ log, EncodesTable (e.site "objects") (e.drafts.objects.map Draft.object) log ∧
        log.silent = Put.log e.format e.tablePuts :=
    exists_table routesTags rfl hsuits.objects htable
  obtain ⟨rootLog, hrootLog, hrootSilent⟩ :
      ∃ log, EncodesRoot (e.site "root") e.drafts.root.value log ∧
        log.silent = Put.log e.format e.rootPuts :=
    exists_root routesTags hsuits.root hsuits.rootNull hroot
  have htaken : ∀ lane log puts, Log.silent log = Put.log e.format puts →
      log.taken lane = WriteStep.bytesAll e.format (Put.stepsOn lane puts) := by
    intro lane log puts hsilent
    rw [← Log.taken_silent, hsilent, Put.taken_log]
  refine ⟨objectsLog, rootLog, ?_, ?_, (htaken _ _ _ hobjectsSilent).symm,
    (htaken _ _ _ hrootSilent).symm, ?_⟩
  · rw [site_layout]
    exact hobjects
  · rw [site_layout]
    exact hrootLog
  · intro lane hlane
    rw [taken_layout hlane, htaken lane _ (e.tablePuts ++ e.rootPuts)]
    · rfl
    · rw [Log.silent_append, Put.log_append, hobjectsSilent, hrootSilent]

/-- The layout `Describes` the module that the container is to be decoded to. -/
theorem describes_layout (h : e.Fits)
    (hsuits : Draft.GraphSuits e.routing.toSetting e.drafts) :
    ∃ events, e.layout.Describes e.configuration e.schema Header.size e.decoded events := by
  obtain ⟨objectsLog, rootLog, hdecodes⟩ := exists_decodes h hsuits
  obtain ⟨hcount, htags, -⟩ : (WriteStep.tagTable e.tags).Fits e.format :=
    fits_of_mem_program h (by simp [program])
  refine ⟨_, rfl, rfl, List.length_map _, valid_of_mem_parts h, spells_tagNames hcount htags,
    ?_, ?_, ?_, ⟨objectsLog, rootLog, hdecodes, rfl⟩, rfl⟩
  · exact ⟨e.isSome_optionalSection _ _ _, e.isSome_optionalSection _ _ _,
      e.isSome_optionalSection _ _ _⟩
  · simp only [layout]
    split <;> simp [decoded]
  · intro entry hentry
    simp only [layout] at hentry
    split at hentry
    case isFalse => simp at hentry
    case isTrue hper =>
      obtain ⟨⟨tag, i⟩, hmem, rfl⟩ := List.mem_map.mp hentry
      have hfits : (WriteStep.index (some i)).Fits e.format :=
        fits_of_mem_program h (mem_program_of_mem_valueStream hper hmem List.mem_cons_self)
      exact ⟨i, Write.spells_index hfits, List.mk_mem_zipIdx_iff_getElem?.mp hmem⟩

/-- `Module.decode` gives the graph back from the bytes that it was encoded to, and nothing is left
over in any stream. -/
theorem decode_bytes (h : e.Fits) (hsuits : Draft.GraphSuits e.routing.toSetting e.drafts)
    {limits : Limits} (hlimits : limits.AdmitsGraph (Draft.graph e.drafts)) :
    (Module.decode e.bytes e.configuration e.schema limits).result = .ok e.decoded ∧
      ∀ stream ∈ e.decoded.streams, stream.leftover = 0 := by
  obtain ⟨events, hdescribes⟩ := describes_layout h hsuits
  have hspent : ∀ stream ∈ e.decoded.streams, stream.leftover = 0 := by
    intro stream hstream
    obtain ⟨i, hi⟩ := List.getElem?_of_mem hstream
    simp only [decoded, Part.getElem?_eachFrom, Option.map_eq_some_iff] at hi
    obtain ⟨part, hpart, rfl⟩ := hi
    exact (exhausted_of_mem_parts part (List.mem_of_getElem? hpart)).leftover_use _
  have hadmits : limits.Admits e.decoded := by
    refine ⟨?_, hlimits.objects, hlimits.root, fun _ => hspent⟩
    exact (List.length_map Draft.object).symm.trans_le hlimits.objectCount
  obtain ⟨htagCount, hobjectCount⟩ :
      (WriteStep.header e.tags.length e.drafts.objects.length).Fits e.format :=
    fits_of_mem_program h (by simp [program])
  have hdecode : Module.decode e.bytes e.configuration e.schema limits =
      ⟨.ok e.decoded, events⟩ :=
    Module.decode_eq_ok_iff.mpr ⟨e.layout, ⟨htagCount, hobjectCount⟩, hdescribes,
      e.bytes_layout ▸ List.prefix_rfl, hadmits⟩
  exact ⟨by rw [hdecode], hspent⟩

end Encoding

/-- A graph that `Conforms`, and whose fields have their streams, can be encoded: it has drafts that
suit it. However the tags of these are picked, if everything that is written has room then
`Module.decode` gives the graph back, and nothing is left over in any stream. -/
theorem Module.decode_encode {c : Configuration} {schema : Schema} {tags : List String}
    {graph : Graph Value} (h : graph.Conforms ⟨c, schema, tags, graph.objects.length⟩)
    (hlisted : graph.Listed ⟨c, schema, tags, graph.objects.length⟩) :
    (∃ drafts : Graph Draft, Draft.graph drafts = graph ∧
        Draft.GraphSuits ⟨c, schema, tags, graph.objects.length⟩ drafts) ∧
      ∀ drafts : Graph Draft, Draft.graph drafts = graph →
        Draft.GraphSuits ⟨c, schema, tags, graph.objects.length⟩ drafts →
        (Encoding.mk c schema tags drafts).Fits →
        ∀ limits : Limits, limits.AdmitsGraph graph →
          ∃ m : Module,
            (Module.decode (Encoding.mk c schema tags drafts).bytes c schema limits).result =
                .ok m ∧
              m.configuration = c ∧ m.header = ⟨tags.length, graph.objects.length⟩ ∧
              m.tags = tags ∧ m.objects = graph.objects ∧ m.root = graph.root ∧
              ∀ stream ∈ m.streams, stream.leftover = 0 := by
  refine ⟨h.exists_drafts hlisted, ?_⟩
  intro drafts hgraph hsuits hfits limits hlimits
  obtain rfl := hgraph
  have hslots : (Draft.graph drafts).objects.length = drafts.objects.length := List.length_map _
  rw [hslots] at hsuits ⊢
  obtain ⟨hdecode, hspent⟩ := Encoding.decode_bytes hfits hsuits hlimits
  exact ⟨_, hdecode, rfl, rfl, rfl, rfl, rfl, hspent⟩

/-! ### A pair in a pair -/

/-- Inline objects, and one value stream for each tag. -/
def nestSetting : Setting where
  configuration := { conditionalInlining := true, valueStreamPerType := true }
  schema := loopSchema
  tags := ["Pair", "integer"]
  slots := 1

/-- A pair around a pair that leads back to it. -/
def nestDrafts : Graph Draft where
  objects := [⟨"Pair", [⟨"head", .atom (.integer 7)⟩,
    ⟨"tail", .inline ⟨"Pair", [⟨"head", .atom (.integer 8)⟩, ⟨"tail", .atom (.ref 0)⟩]⟩⟩]⟩]
  root := .announced "Pair" (.atom (.ref 0))

/-- Both fields of a pair have their streams. -/
theorem lists_nestSetting {name : String} {shape : Shape} (h : loopSchema.shape? name = some shape)
    (pinned : Bool) : nestSetting.Lists pinned shape.fields := by
  have hfields : ∀ shape ∈ loopSchema.shapes, ∀ decl ∈ shape.fields,
      loopSchema.fieldTag decl ∈ nestSetting.tags := by
    decide
  intro _ decl hdecl _
  exact hfields shape (List.mem_of_find?_eq_some h) decl hdecl

theorem suits_nestDrafts : Draft.GraphSuits nestSetting nestDrafts := by
  have hpair : nestSetting.IsReferenceTag "Pair" := ⟨by decide, by decide⟩
  have hloop : ∀ viaAny, Draft.Suits nestSetting viaAny "Pair" (.atom (.ref 0)) := fun _ =>
    .atom (by decide) (.ref hpair (by decide))
  have hhead : ∀ value, Draft.Suits nestSetting false "integer" (.atom (.integer value)) :=
    fun _ => .atom (by decide) (.integer (by decide))
  have hshape : loopSchema.shape? "Pair" =
      some ⟨"Pair", [⟨"head", .tag "integer"⟩, ⟨"tail", .tag "Pair"⟩]⟩ := by
    rfl
  have hinner : Draft.Suits nestSetting false "Pair"
      (.inline ⟨"Pair", [⟨"head", .atom (.integer 8)⟩, ⟨"tail", .atom (.ref 0)⟩]⟩) := by
    refine .inline hpair rfl hshape (by decide) (lists_nestSetting hshape _) rfl ?_
    simp only [List.zip_cons_cons, List.zip_nil_left, List.forall_mem_cons]
    exact ⟨hhead 8, hloop false, by simp⟩
  refine ⟨?_, .announced (by decide) (by decide) (hloop true), rfl⟩
  simp only [nestDrafts, List.forall_mem_singleton]
  refine ⟨_, hshape, by decide, lists_nestSetting hshape _, rfl, ?_⟩
  simp only [List.zip_cons_cons, List.zip_nil_left, List.forall_mem_cons]
  exact ⟨hhead 7, hinner, by simp⟩

/-- `nestDrafts`, an object inside another, encoded and decoded again under strict limits. -/
theorem decode_encode_nest :
    (Draft.graph nestDrafts).Conforms nestSetting ∧ (Draft.graph nestDrafts).Listed nestSetting ∧
      ∃ m : Module, (Module.decode (Encoding.mk nestSetting.configuration loopSchema
          nestSetting.tags nestDrafts).bytes nestSetting.configuration loopSchema
            { strict := true }).result = .ok m ∧
        m.objects = (Draft.graph nestDrafts).objects ∧ m.root = .ref 0 := by
  have hconforms := suits_nestDrafts.conforms
  have hlisted : (Draft.graph nestDrafts).Listed nestSetting :=
    ⟨fun _ _ _ h => lists_nestSetting h _, fun _ _ _ _ _ h => lists_nestSetting h _,
      fun _ _ _ h => lists_nestSetting h _⟩
  have hlimits : Limits.AdmitsGraph { strict := true } (Draft.graph nestDrafts) := by
    refine ⟨by decide, ?_, by decide⟩
    simp only [nestDrafts, Draft.graph, List.map_cons, List.map_nil, List.forall_mem_singleton]
    decide
  obtain ⟨m, hdecode, -, -, -, hobjects, hroot, -⟩ :=
    (Module.decode_encode hconforms hlisted).2 nestDrafts rfl suits_nestDrafts (by decide +kernel)
      { strict := true } hlimits
  exact ⟨hconforms, hlisted, m, hdecode, hobjects, hroot⟩

end BinaryAst
