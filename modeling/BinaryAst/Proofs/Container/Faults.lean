import BinaryAst.Proofs.Arena.Container
import BinaryAst.Proofs.Container.Trace
import BinaryAst.Proofs.Decode.Faults
/-!
# BinaryAst.Proofs.Container.Faults

How the decoding of a container ends.

While a container is read, the names of the streams that are open are known, and grow:
`Assembles names step later` is the judgement that carries them through a step, with the causes
that the step may fail for. Each section starts with readers of open streams and ends with readers
of the same streams. So whatever is told of a stream, it was opened before, also where decoding
fails; and it fails for one of the causes of a value, or else for one of the causes of a container,
which is then not put down to any field.

`Module.decode_ends` adds what the decoders with a table of slots (`Assemble.slotwise_eq`) and with
an arena of streams (`Module.decodeByHandle_eq`) have in common with `decode`: they end alike, so
none of the checks that only they make ever fails.
-/

namespace BinaryAst.Decode

open Assemble

variable {α β : Type} {names : List String}

/-- The streams of these names have been opened. -/
def Assembly.Attested (names : List String) (s : Assembly) : Prop :=
  BinaryAst.Attested names s.events.toList

/-- The judgement on a step of an assembly: from where the streams of `names` are open, it leads to
where those of `later` are; or it fails with an error of `EndsDecoding`, with whatever was told so
far told of streams that are open. -/
def Assembles (names : List String) (step : Assemble α) (later : α → List String) : Prop :=
  Triple (Assembly.Attested names) step (fun v s => s.Attested (later v))
    fun e s => Sourced s.events.toList ∧ e.EndsDecoding

namespace Assembles

/-- Names may be forgotten. -/
theorem pure {v : α} {later : α → List String} (h : later v ⊆ names) :
    Assembles names (Pure.pure v : Assemble α) later :=
  Triple.pure fun _ hs => BinaryAst.Attested.mono hs h

/-- A `throw` is fine for an error that `EndsDecoding`. -/
theorem throw {e : DecodeError} {later : α → List String} (h : e.EndsDecoding) :
    Assembles names (throw e : Assemble α) later := Triple.throw fun _ hs => ⟨hs.sourced, h⟩

/-- `Assembles` is closed under `>>=`: the names that the first step opens are those that the second
one starts from. -/
theorem bind {x : Assemble α} {f : α → Assemble β} {mid : α → List String}
    {later : β → List String} (hx : Assembles names x mid)
    (hf : ∀ v, Assembles (mid v) (f v) later) : Assembles names (x >>= f) later :=
  Triple.bind hx hf

theorem mono {x : Assemble α} {later fewer : α → List String} (hx : Assembles names x later)
    (hsub : ∀ v, fewer v ⊆ later v) : Assembles names x fewer :=
  Triple.mono hx (fun _ hs => hs) (fun v _ hs => BinaryAst.Attested.mono hs (hsub v))
    fun _ _ he => he

theorem map {x : Assemble α} {later : β → List String} (g : α → β)
    (hx : Assembles names x fun v => later (g v)) : Assembles names (g <$> x) later :=
  Triple.map hx

end Assembles

/-! ### Streams -/

/-- `Assemble.read` opens nothing, so the names stay. -/
theorem assembles_read {read : Read α} (h : read.Faults DecodeError.OfLayout) :
    Assembles names (Assemble.read read) fun _ => names := by
  intro s hs
  unfold Assemble.read
  split
  case h_1 => exact hs
  case h_2 e r hrun => exact ⟨hs.sourced, ((h _).error rfl hrun).endsDecoding⟩

/-- `nextStream` opens one stream, and its name joins the names. -/
theorem assembles_nextStream : Assembles names nextStream fun r => r.description :: names := by
  refine (assembles_read Read.faults_substream).bind fun r s hs => ?_
  change BinaryAst.Attested _ (s.events.push _).toList
  rw [Array.toList_push]
  exact hs.concat_stream _ _ _

/-- `nextStreamIf` opens a stream or none. -/
theorem assembles_nextStreamIf (present : Bool) : Assembles names (nextStreamIf present)
    fun r => r.toList.map Reader.description ++ names := by
  cases present with
  | false => exact .pure (List.Subset.refl names)
  | true => exact .map _ assembles_nextStream

/-- `tagNames` fails as its strings do, or for a tag whose name is null (`nullTagName`). -/
theorem faults_tagNames : Read.Faults DecodeError.OfLayout tagNames := by
  refine (Read.faults_unsigned 4).ofLayout.bind fun count => .collect count fun index =>
    Read.faults_string.ofLayout.bind fun text => ?_
  cases text with
  | none => exact .throw (.inr trivial)
  | some text => exact .pure text

/-- `tagTable` opens the stream of the tag table and reads it. It is not read again, so its name
need not be kept. -/
theorem assembles_tagTable : Assembles names tagTable fun _ => names := by
  refine (assembles_nextStream.mono fun r => List.subset_cons_self _ _).bind fun r => ?_
  split
  case h_1 tags stream hrun => exact .pure (List.Subset.refl names)
  case h_2 e stream hrun => exact .throw ((faults_tagNames _).error rfl hrun).endsDecoding

/-- The names of the side streams that there are. -/
def SideStreams.descriptions (side : SideStreams) : List String :=
  (side.inlining.toList ++ side.typeTags.toList ++ side.packedIndices.toList).map
    Reader.description

/-- `sideStreams` opens the side streams that it gives. -/
theorem assembles_sideStreams (c : Configuration) :
    Assembles names (sideStreams c) fun side => side.descriptions ++ names := by
  refine (assembles_nextStreamIf _).bind fun inlining => (assembles_nextStreamIf _).bind
    fun typeTags => (assembles_nextStreamIf _).bind fun packedIndices => .pure ?_
  intro name hname
  simp only [SideStreams.descriptions, List.map_append, List.mem_append] at hname ⊢
  tauto

/-- `valueStream` opens a stream behind the index of its tag. An index without a tag is an error of
the container, since no field is around. -/
theorem assembles_valueStream (tags : Array String) :
    Assembles names (valueStream tags) fun entry => entry.2.description :: names := by
  refine (assembles_read Read.faults_index.ofLayout).bind fun index => ?_
  unfold tagAt
  cases index.bind (tags[·]?) with
  | none => exact .throw (.inl trivial)
  | some tag => exact assembles_nextStream.bind fun r => .pure (List.Subset.refl _)

/-- The names of value streams. -/
def descriptionsOf (values : List (String × Reader)) : List String :=
  values.map (·.2.description)

/-- So many calls of `valueStream`, one after the other, assemble the `descriptionsOf` the streams
opened. -/
theorem assembles_valueStreamsFrom (tags : Array String) (left position : Nat) :
    Assembles names (collectFrom (fun _ => valueStream tags) left position []) fun values =>
      descriptionsOf values ++ names := by
  induction left generalizing position names with
  | zero => exact .pure (List.Subset.refl names)
  | succ left ih =>
      rw [collectFrom_succ]
      refine (assembles_valueStream tags).bind fun entry => (ih _).bind fun rest => .pure ?_
      intro name hname
      simp only [descriptionsOf, List.map_cons, List.cons_append, List.mem_cons,
        List.mem_append] at hname ⊢
      tauto

theorem assembles_valueStreams (c : Configuration) (tags : Array String) :
    Assembles names (valueStreams c tags) fun values => descriptionsOf values.toList ++ names := by
  unfold valueStreams
  split
  case isTrue => exact .map _ (assembles_valueStreamsFrom tags _ _)
  case isFalse => exact .pure (List.Subset.refl names)

/-- `sharedStreams` has opened the streams that both sections share when the sections start. -/
theorem assembles_sharedStreams (c : Configuration) (tags : List String) :
    Assembles names (sharedStreams c tags) fun shared =>
      descriptionsOf shared.2.toList ++ (shared.1.descriptions ++ names) :=
  (assembles_sideStreams c).bind fun _ => (assembles_valueStreams c _).bind fun _ =>
    .pure (List.Subset.refl _)

/-! ### Sections -/

/-- A section that starts with readers of streams of `names` ends with readers of such streams, and
keeps any `Ledger` of them, if its step `Behaves`. -/
theorem heeds_readSection {n : Nat} (ledger : Ledger names) {fault : DecodeError → Prop}
    {step : Step n α} {own : Reader} {values : Vector Reader n} {side : SideStreams}
    (hstep : Behaves ledger fault step fun _ => True)
    (hreaders : ∀ lane r, (State.opening own values side).lane? lane = some r →
      r.description ∈ names) :
    Triple (fun s : Assembly => ledger.Holds s.events.toList) (readSection step own values side)
      (fun v s => ledger.Holds s.events.toList ∧
        ∀ lane r, v.2.lane? lane = some r → r.description ∈ names)
      fun e s => ledger.Holds s.events.toList ∧ fault e := by
  refine Triple.map fun s hs => ?_
  have hstart : State.Heeds ledger { own, values, side, events := s.events : State n } :=
    ⟨hs, fun lane r hr => hreaders lane r (by cases lane <;> exact hr)⟩
  unfold decodeSection
  split
  case h_1 v after hrun =>
    have hafter := (hstep.ok hstart hrun).1
    exact ⟨hafter.events, fun lane r hr => hafter.readers lane r (lane?_quiet after lane ▸ hr)⟩
  case h_2 e after hrun => exact hstep.error hstart hrun

/-- `heeds_readSection` for the ledger of `Attested` events: what a section fails for, decoding can
end with. -/
theorem assembles_readSection {n : Nat} {step : Step n α} {own : Reader}
    {values : Vector Reader n} {side : SideStreams}
    (hstep : Behaves (.attested names) (DecodeError.EndsSectionIn names) step fun _ => True)
    (hreaders : ∀ lane r, (State.opening own values side).lane? lane = some r →
      r.description ∈ names) :
    Triple (Assembly.Attested names) (readSection step own values side)
      (fun v s => s.Attested names ∧ ∀ lane r, v.2.lane? lane = some r → r.description ∈ names)
      fun e s => Sourced s.events.toList ∧ e.EndsDecoding :=
  (heeds_readSection _ hstep hreaders).mono (fun _ hs => hs) (fun _ _ h => h)
    fun _ _ h => ⟨BinaryAst.Attested.sourced h.1, h.2.endsDecoding⟩

/-- `finish` opens nothing, and what is left over in a stream is an error of the container. -/
theorem assembles_finish (limits : Limits) (m : Module) :
    Assembles names (finish limits m) fun _ => names := by
  unfold finish checkLeftovers
  split
  case isTrue =>
    split
    case h_1 => exact .throw (.inr trivial)
    case h_2 => exact .pure (List.Subset.refl names)
  case isFalse => exact .pure (List.Subset.refl names)

/-- In `State.opening`, the streams of a section that starts are its own and the shared ones. -/
theorem description_mem_of_lane? {side : SideStreams} {values : Array (String × Reader)}
    {own : Reader} (hside : side.descriptions ⊆ names)
    (hvalues : descriptionsOf values.toList ⊆ names) (hown : own.description ∈ names) :
    ∀ lane r, (State.opening own (readersOf values) side).lane? lane = some r →
      r.description ∈ names := by
  intro lane r hr
  cases lane with
  | own => exact Option.some.inj hr ▸ hown
  | inlining | typeTags | packedIndices =>
      exact hside (List.mem_map_of_mem (by simp_all [State.lane?, State.opening]))
  | values i =>
      rw [State.lane?, ← Vector.getElem?_toArray] at hr
      obtain ⟨entry, hentry, rfl⟩ : ∃ entry, values[i]? = some entry ∧ entry.2 = r := by
        simpa [State.opening, readersOf] using hr
      exact hvalues (List.mem_map_of_mem (Array.mem_toList_iff.mpr
        (Array.mem_of_getElem? hentry)))

/-- `State.opening` of the next section goes on with the streams that the one before it leaves. -/
theorem description_mem_of_opening {n : Nat} {s : State n} {own : Reader}
    (hs : ∀ lane r, s.lane? lane = some r → r.description ∈ names)
    (hown : own.description ∈ names) :
    ∀ lane r, (State.opening own s.values s.side).lane? lane = some r →
      r.description ∈ names := by
  intro lane r hr
  by_cases hlane : lane = .own
  · subst hlane
    exact Option.some.inj hr ▸ hown
  · exact hs lane r (State.lane?_opening hlane ▸ hr)

/-- `sections` only goes wrong as decoding can end: each of the two opens its own stream and goes on
with the shared ones. -/
theorem assembles_sections (c : Configuration) (schema : Schema) (limits : Limits)
    (header : Header) (tags : List String × Reader) {side : SideStreams}
    {values : Array (String × Reader)} (hside : side.descriptions ⊆ names)
    (hvalues : descriptionsOf values.toList ⊆ names) :
    Assembles names (sections c schema limits header tags side values) fun _ => [] := by
  refine assembles_nextStream.bind fun objectsReader => ?_
  refine Triple.bind (assembles_readSection (behaves_objectTable _)
    (description_mem_of_lane? (List.subset_cons_of_subset _ hside)
      (List.subset_cons_of_subset _ hvalues) List.mem_cons_self)) fun objects s hs => ?_
  refine (assembles_nextStream.bind fun rootReader => ?_) s hs.1
  refine Triple.bind (assembles_readSection (behaves_root _) (description_mem_of_opening
    (fun lane r hr => List.mem_cons_of_mem _ (hs.2 lane r hr)) List.mem_cons_self)) fun root => ?_
  exact Triple.mono (assembles_finish limits _) (fun _ h => h.1)
    (fun _ _ h => h.mono (List.nil_subset _)) fun _ _ h => h

/-- From no stream at all, `moduleOf` ends as `Assembles` says. -/
theorem assembles_moduleOf (c : Configuration) (schema : Schema) (limits : Limits) :
    Assembles [] (moduleOf c schema limits) fun _ => [] := by
  rw [moduleOf_eq]
  refine (assembles_read Read.faults_header).bind fun header => assembles_tagTable.bind fun tags =>
    (assembles_sharedStreams c tags.1).bind fun shared => ?_
  split
  case isTrue => exact .throw (.inr trivial)
  case isFalse =>
    exact assembles_sections c schema limits header tags
      (List.Subset.trans (List.subset_append_left _ _) (List.subset_append_right _ _))
      (List.subset_append_left _ _)

end BinaryAst.Decode

namespace BinaryAst

open Decode

/-! ### Slots that are told -/

/-- `visitsOfSlots` comes by each of the slots, with the shape of the object in it. -/
theorem mem_visitsOfSlots {slot i : Nat} {objects : List ObjectValue} {object : ObjectValue}
    (h : objects[i]? = some object) :
    Visit.slot (slot + i) object.shape ∈ visitsOfSlots slot objects := by
  induction objects generalizing slot i with
  | nil => cases h
  | cons first rest ih =>
      rw [visitsOfSlots]
      refine List.mem_append_right _ ?_
      cases i with
      | zero =>
          obtain rfl := Option.some.inj h
          exact List.mem_cons_self
      | succ i =>
          have hlater : Visit.slot (slot + 1 + i) object.shape ∈ visitsOfSlots (slot + 1) rest :=
            ih h
          rw [Nat.add_right_comm] at hlater
          exact List.mem_cons_of_mem _ hlater

/-- The events of a module that a layout `Describes` tell each of its slots, with the shape of the
object in it. -/
theorem Decode.Layout.Describes.slot_mem {c : Configuration} {schema : Schema} {offset : Nat}
    {l : Layout} {m : Module} {events : List Event} (h : l.Describes c schema offset m events)
    {slot : Nat} {object : ObjectValue} (hslot : m.objects[slot]? = some object) :
    .slot slot object.shape ∈ events := by
  obtain ⟨front, table, root, between, behind, -, rfl, hvisits, -⟩ := h.exists_sections_told
  have hmem : Visit.slot slot object.shape ∈ between.filterMap Event.visit? := by
    rw [hvisits, ← Nat.zero_add slot]
    exact mem_visitsOfSlots hslot
  obtain ⟨event, hevent, hvisit⟩ := List.mem_filterMap.mp hmem
  obtain rfl : event = .slot slot object.shape := by
    cases event <;> simp_all [Event.visit?]
  simp [hevent]

namespace Module

/-- Decodes a container into an object table of slots, each of which has to be filled. -/
def decodeSlotwise (bytes : Bytes) (c : Configuration) (schema : Schema) (limits : Limits) :
    Decoding :=
  match Assemble.slotwise c schema limits ⟨.ofBytes c.toWireFormat "module" bytes, #[]⟩ with
  | .ok m s => ⟨.ok m, s.events.toList⟩
  | .error e s => ⟨.error e, s.events.toList⟩

/-- The judgement on `moduleOf`, read off for `decode`: its events are `Sourced`, and an error of it
is one that `EndsDecoding`. -/
theorem decode_meets (bytes : Bytes) (c : Configuration) (schema : Schema) (limits : Limits) :
    Sourced (decode bytes c schema limits).events ∧
      ∀ e, (decode bytes c schema limits).result = .error e → e.EndsDecoding := by
  have hstart : Assembly.Attested [] ⟨.ofBytes c.toWireFormat "module" bytes, #[]⟩ :=
    ⟨.nil, by simp⟩
  have hmeets := assembles_moduleOf c schema limits _ hstart
  unfold decode
  dsimp only
  cases hrun : Assemble.moduleOf c schema limits ⟨.ofBytes c.toWireFormat "module" bytes, #[]⟩ with
  | ok m s =>
      rw [hrun] at hmeets
      exact ⟨hmeets.sourced, nofun⟩
  | error e s =>
      rw [hrun] at hmeets
      refine ⟨hmeets.1, fun other hother => ?_⟩
      obtain rfl := Except.error.inj hother
      exact hmeets.2

/-- How decoding ends, for every container. It gives a module with as many objects as the
header says, each of which was put into its slot; or it fails for a cause of its own. The cause
is never one that no container is to blame for. `decodeSlotwise`, which allocates the object table,
fills it and checks every slot at the end, does exactly the same; and so does `decodeByHandle`,
which moreover looks the table up at every reference and speaks of streams by handle, and which
would have no answer if a handle were of no stream. An error that is put down to a field is one of a
value, and one of the container as a whole is put down to no field. In either case whatever was read
was read from a stream that had been opened. -/
theorem decode_ends (bytes : Bytes) (c : Configuration) (schema : Schema) (limits : Limits) :
    decodeSlotwise bytes c schema limits = decode bytes c schema limits ∧
      decodeByHandle bytes c schema limits = some (decode bytes c schema limits) ∧
      Sourced (decode bytes c schema limits).events ∧
      match (decode bytes c schema limits).result with
      | .ok m => m.objects.length = m.header.objectCount ∧
          ∀ slot < m.header.objectCount, ∃ object, m.objects[slot]? = some object ∧
            .slot slot object.shape ∈ (decode bytes c schema limits).events
      | .error e => ¬e.cause.OfProgram ∧ (e.cause.OfValue ∨ e.cause.OfContainer) ∧
          (e.path ≠ [] → e.cause.OfValue) ∧ (e.cause.OfContainer → e.path = []) := by
  obtain ⟨hsourced, hfails⟩ := decode_meets bytes c schema limits
  refine ⟨?_, decodeByHandle_eq bytes c schema limits, hsourced, ?_⟩
  · rw [decodeSlotwise, Assemble.slotwise_eq]
    rfl
  · split
    case h_1 m hresult =>
      have hdecode : decode bytes c schema limits =
          ⟨.ok m, (decode bytes c schema limits).events⟩ := by
        rw [← hresult]
      obtain ⟨l, -, hdescribes, -, -⟩ := decode_eq_ok_iff.mp hdecode
      refine ⟨hdescribes.objectCount, fun slot hslot => ?_⟩
      rw [← hdescribes.objectCount] at hslot
      exact ⟨_, List.getElem?_eq_getElem hslot,
        hdescribes.slot_mem (List.getElem?_eq_getElem hslot)⟩
    case h_2 e hresult =>
      rcases hfails e hresult with hvalue | hcontainer
      · exact ⟨hvalue.not_ofProgram, .inl hvalue, fun _ => hvalue,
          fun hcontainer => absurd hvalue hcontainer.not_ofValue⟩
      · have hpath := hcontainer.path_eq_nil
        rw [hcontainer.cause_eq]
        exact ⟨hcontainer.not_ofProgram, .inr hcontainer, fun h => absurd hpath h, fun _ => hpath⟩

end Module

end BinaryAst
