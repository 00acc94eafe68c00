import BinaryAst.Proofs.Arena.Sections
/-!
# BinaryAst.Proofs.Arena.Container

Containers decode by handles as they decode without.

In front of the sections there is no chart yet, since the streams are only being opened. There, an
arena is followed through the steps that open streams and register them: `Builds base g x y after`
says that the step by handles ends in the arena `after v`, where `v` is what the other step reads,
and each `builds_…` lemma names that arena (`Arena.withStream`, `Arena.withTags` and so on).

`simulates_openSection` takes over at the stream of a section. What it needs is that the arena with
this stream is the arena of a chart, which is shown for the object table behind the shared streams
(`withStream_arenaOf`) and for the root behind the object table (`withStream_arena`). The chart
fits the context because the hash map of handles answers as the routes do
(`Arena.getElem?_values_withValueStreams`).

`Module.decodeByHandle_eq` is the result: an arena of streams, with its handles, its table that is
looked up at every reference and its count of levels, decodes every container as `Module.decode`
does.
-/

namespace BinaryAst.Decode

open Assemble

variable {α β γ δ : Type}

/-- The arena with the container and the events of an assembly in it. -/
def Arena.Now (base : Arena) (s : Assembly) (a : Arena) : Prop :=
  a = { base with container := s.container, events := s.events }

/-- The same was told of the container. -/
def SameTold (s : Assembly) (a : Arena) : Prop := a.events = s.events

theorem Arena.Now.sameTold {base : Arena} {s : Assembly} {a : Arena} (h : base.Now s a) :
    SameTold s a := by
  rw [h]
  rfl

/-- From the arena `base`, the second step ends as the first does, and in the arena that belongs to
the value that was read. -/
abbrev Builds (base : Arena) (g : α → β) (x : Assemble α) (y : Handling β)
    (after : α → Arena) : Prop :=
  Simulates base.Now g x y (fun v => (after v).Now) SameTold

section

variable (base : Arena)

theorem builds_throw {g : α → β} {post : α → Assembly → Arena → Prop} (e : DecodeError) :
    Simulates base.Now g (throw e) (Handling.refuse e) post SameTold :=
  .throw e fun _ _ h => h.sameTold

theorem builds_pure {g : α → β} {after : α → Arena} {v : α} {w : β} (hv : g v = w)
    (hafter : after v = base) : Builds base g (pure v) (pure w) after :=
  .pure hv fun _ _ h => hafter ▸ h

/-! ### Streams -/

theorem builds_read (read : Read α) :
    Builds base id (Assemble.read read) (Handling.readContainer read) fun _ => base := by
  rintro s _ rfl
  unfold Assemble.read Handling.readContainer
  dsimp only
  cases read s.container with
  | ok v r => exact ⟨_, rfl, rfl⟩
  | error e r => exact ⟨_, rfl, rfl⟩

/-- The arena with one more stream, behind the others. -/
def Arena.withStream (base : Arena) (r : Reader) : Arena :=
  { base with streams := base.streams ++ [r] }

/-- `Handling.openStream` opens what `nextStream` does, and its handle is the place of the stream
among those that were opened before. -/
theorem builds_openStream :
    Builds base (fun _ => ⟨base.streams.length⟩) nextStream Handling.openStream
      base.withStream := by
  refine (builds_read base Read.substream).bind fun r => ?_
  rintro s _ rfl
  refine ⟨_, ?_, rfl⟩
  change EStateM.Result.ok (⟨(base.streams ++ [r]).length - 1⟩ : Handle) _ = _
  rw [List.length_append, List.length_singleton, Nat.add_sub_cancel]
  rfl

theorem builds_openStreamIf (present : Bool) :
    Simulates base.Now (Option.map fun _ => ⟨base.streams.length⟩) (nextStreamIf present)
      (Handling.openStreamIf present)
      (fun r s a => r.isSome = present ∧
        { base with streams := base.streams ++ r.toList }.Now s a) SameTold := by
  cases present with
  | true => exact (builds_openStream base).map (fun _ => rfl) fun _ _ _ h => ⟨rfl, h⟩
  | false =>
      refine .pure rfl fun s a h => ⟨rfl, ?_⟩
      rw [Option.toList_none, List.append_nil]
      exact h

/-- The arena with the tag table and its stream. -/
def Arena.withTags (base : Arena) (tags : List String × Reader) : Arena :=
  { base with streams := base.streams ++ [tags.2], tags := tags.1.toArray }

/-- `openTags` does what `tagTable` does: the stream it has just opened is there to be read by its
handle. -/
theorem builds_openTags :
    Builds base (fun _ => ()) tagTable Handling.openTags base.withTags := by
  refine (builds_openStream base).bind fun r => ?_
  rintro s _ rfl
  let opened : Arena := { base.withStream r with container := s.container, events := s.events }
  have hr : opened.streams[base.streams.length]? = some r := List.getElem?_concat_length
  have hread := Handling.readFrom_eq (h := ⟨base.streams.length⟩) hr tagNames
  cases htags : tagNames r with
  | ok tags stream =>
      rw [htags] at hread
      refine ⟨_, bind_of_ok hread, ?_⟩
      simp [Arena.Now, Arena.withTags, opened, Arena.withStream]
  | error e stream =>
      rw [htags] at hread
      exact ⟨_, bind_of_error hread, rfl⟩

/-- The arena with the stream of inlining flags, where there is one. -/
def Arena.withInlining (base : Arena) (r : Option Reader) : Arena :=
  { base with
    streams := base.streams ++ r.toList
    inlining := r.map fun _ => ⟨base.streams.length⟩ }

/-- The arena with the stream of type tags, where there is one. -/
def Arena.withTypeTags (base : Arena) (r : Option Reader) : Arena :=
  { base with
    streams := base.streams ++ r.toList
    typeTags := r.map fun _ => ⟨base.streams.length⟩ }

/-- The arena with the stream of packed indices, where there is one. -/
def Arena.withPackedIndices (base : Arena) (r : Option Reader) : Arena :=
  { base with
    streams := base.streams ++ r.toList
    packedIndices := r.map fun _ => ⟨base.streams.length⟩ }

/-- The arena with the side streams, where there are any. -/
def Arena.withSide (base : Arena) (side : SideStreams) : Arena :=
  ((base.withInlining side.inlining).withTypeTags side.typeTags).withPackedIndices
    side.packedIndices

/-- `openSideStreams` opens what `sideStreams` does, one after the other, each where the
configuration calls for it, and notes the handles (`withSide`). -/
theorem builds_openSideStreams (terms : Terms) :
    Simulates base.Now (fun _ => ()) (sideStreams terms.configuration)
      (Handling.openSideStreams terms)
      (fun side s a => side.Accords terms.configuration ∧ (base.withSide side).Now s a)
      SameTold := by
  refine (builds_openStreamIf base _).bind fun inlining => .assume fun hinlining =>
    .modify ?_ ((builds_openStreamIf (base.withInlining inlining) _).bind fun typeTags =>
      .assume fun htypeTags => .modify ?_ ((builds_openStreamIf
        ((base.withInlining inlining).withTypeTags typeTags) _).bind fun packedIndices =>
          .assume fun hpacked => ?_))
  · rintro s _ rfl
    rfl
  · rintro s _ rfl
    rfl
  · rintro s _ rfl
    exact ⟨_, rfl, ⟨hinlining, htypeTags, hpacked⟩, rfl⟩

/-- The arena with one more value stream. -/
def Arena.withValueStream (base : Arena) (entry : String × Reader) : Arena :=
  { base with
    streams := base.streams ++ [entry.2]
    values := base.values.insert entry.1 ⟨base.streams.length⟩ }

theorem builds_check {checked : Except DecodeError α} :
    Builds base id (check checked) (Handling.check checked) fun _ => base := by
  cases checked with
  | ok v => exact builds_pure base rfl rfl
  | error e => exact builds_throw base e

/-- `valueStream`, with the look-up of the tag as a step of its own. -/
theorem valueStream_eq (tags : Array String) : valueStream tags = (do
    let tag ← check (tagAt tags (← Assemble.read Read.index))
    return (tag, ← nextStream)) := by
  refine congrArg _ (funext fun index => ?_)
  cases tagAt tags index <;> rfl

theorem builds_openValueStream {tags : Array String} (htags : base.tags = tags) :
    Builds base (fun _ => ()) (valueStream tags) Handling.openValueStream base.withValueStream := by
  have hlookUp (index : Option Nat) : Builds base id (check (tagAt tags index))
      (Handling.lookUpTag index) fun _ => base := by
    refine .get ?_ (builds_check base)
    rintro s _ rfl
    rw [← htags]
  rw [valueStream_eq]
  refine (builds_read base Read.index).bind fun index => (hlookUp index).bind fun tag =>
    (builds_openStream base).bind fun r => ?_
  rintro s _ rfl
  exact ⟨_, rfl, rfl⟩

/-- The arena with more value streams, in container order. -/
def Arena.withValueStreams (base : Arena) (entries : List (String × Reader)) : Arena :=
  entries.foldl Arena.withValueStream base

/-- So many value streams, one after the other: the arena is the one `withValueStreams` of the
entries collected. -/
theorem builds_openEachValueStream {tags : Array String} (htags : base.tags = tags)
    (left position : Nat) :
    Builds base (fun _ => ()) (collectFrom (fun _ => valueStream tags) left position [])
      (Handling.openEachValueStream left) base.withValueStreams := by
  induction left generalizing base position with
  | zero => exact builds_pure base rfl rfl
  | succ left ih =>
      rw [collectFrom_succ]
      refine (builds_openValueStream base htags).bind fun entry => ?_
      rw [← map_eq_pure_bind]
      exact (ih (base.withValueStream entry) htags (position + 1)).map_left (fun _ => rfl)
        fun _ _ _ h => h

theorem builds_openValueStreams (terms : Terms) {tags : Array String} (htags : base.tags = tags) :
    Builds base (fun _ => ()) (valueStreams terms.configuration tags)
      (Handling.openValueStreams terms) fun values => base.withValueStreams values.toList := by
  refine .ite .rfl (fun _ => ?_) fun _ => builds_pure base rfl rfl
  refine .get ?_ ((builds_openEachValueStream base htags tags.size 0).map_left
    (fun _ => rfl) fun _ _ _ h => h)
  rintro s _ rfl
  rw [htags]

/-- `openSharedStreams` opens the streams that both sections share: the side streams, then the value
streams. -/
theorem builds_sharedStreams (terms : Terms) {tags : List String}
    (htags : base.tags = tags.toArray) :
    Simulates base.Now (fun _ => ()) (sharedStreams terms.configuration tags)
      (Handling.openSharedStreams terms)
      (fun shared s a => shared.1.Accords terms.configuration ∧
        ((base.withSide shared.1).withValueStreams shared.2.toList).Now s a) SameTold := by
  refine (builds_openSideStreams base terms).bind fun side => .assume fun hside => ?_
  rw [← map_eq_pure_bind]
  exact (builds_openValueStreams (base.withSide side) terms htags).map_left (fun _ => rfl)
    fun _ _ _ h => ⟨hside, h⟩

/-! ### Registered value streams -/

/-- `withValueStreams` appends the readers, and touches nothing but the look-up by tag. -/
theorem Arena.withValueStreams_eq (entries : List (String × Reader)) :
    base.withValueStreams entries = { base with
      streams := base.streams ++ entries.map (·.2)
      values := (base.withValueStreams entries).values } := by
  induction entries generalizing base with
  | nil => simp [withValueStreams]
  | cons entry entries ih =>
      rw [withValueStreams, List.foldl_cons, ← withValueStreams, ih]
      simp [withValueStream]

/-- The hash map of handles answers as `routesOf` does. Of the value streams of a tag, both find the
one that was registered last: the map because an entry takes the place of the earlier one, the
routes because they are searched from the back. -/
theorem Arena.getElem?_values_withValueStreams (h : base.values = ∅)
    (values : Array (String × Reader)) (tag : String) :
    (base.withValueStreams values.toList).values[tag]? =
      ((routesOf values).lookup tag).map fun i => ⟨base.streams.length + i⟩ := by
  have hroutes : ((routesOf values).lookup tag).map
      (fun i : Fin _ => (⟨base.streams.length + i⟩ : Handle)) =
        ((values.toList.map (·.1)).zipIdx.reverse.lookup tag).map (⟨base.streams.length + ·⟩) := by
    rw [← Shared.lookup_routesOf values tag, Option.map_map]
    rfl
  rw [hroutes]
  generalize values.toList = entries
  induction entries using List.reverseRecOn with
  | nil => simp [withValueStreams, h]
  | append_singleton entries entry ih =>
      have hlast : base.withValueStreams (entries ++ [entry]) =
          (base.withValueStreams entries).withValueStream entry := by
        simp [withValueStreams]
      have hlength : (base.withValueStreams entries).streams.length =
          base.streams.length + entries.length := by
        rw [withValueStreams_eq]
        simp
      rw [hlast, withValueStream, Std.HashMap.getElem?_insert, hlength, ih]
      by_cases htag : entry.1 = tag
      · simp [List.zipIdx_append, htag]
      · have hother : (tag == entry.1) = false := beq_eq_false_iff_ne.mpr (Ne.symm htag)
        simp [List.zipIdx_append, List.lookup_cons, htag, hother]

/-! ### Sections -/

/-- A section of a container, from the arena that its stream was opened in. `readSection` hands the
container around the step of the section; in the arena it lies beside the streams, where no step
of a section touches it. -/
theorem simulates_readSection {n : Nat} {k : Chart} {k' : α → Chart} {ctx : Context n}
    {step : Step n α} {other : Handling β} {g : α → β} {p : α → Prop}
    (hstep : ∀ container, Simulates ({ k with container }.At ctx 0) g step other
      (fun v s a => p v ∧ { k' v with container }.At ctx 0 s a) SameEvents)
    (own : Reader) (values : Vector Reader n) {side : SideStreams}
    (hside : side.Accords ctx.configuration) :
    Simulates (k.arena ctx 0 (State.opening own values side)).Now (fun v => g v.1)
      (readSection step own values side) other
      (fun v s a => (p v.1 ∧ v.2.side.Accords ctx.configuration) ∧
        ((k' v.1).arena ctx 0 v.2).Now s a) SameTold := by
  rintro s _ rfl
  have hrun := hstep s.container { State.opening own values side with events := s.events } _
    ⟨hside, rfl⟩
  cases hxs : step { own, values, side, events := s.events } with
  | ok v after =>
      rw [show step { State.opening own values side with events := s.events } = _ from hxs] at hrun
      rw [readSection_of_ok hxs]
      obtain ⟨_, hy, hv, hafter, rfl⟩ := hrun
      exact ⟨_, hy, ⟨hv, hafter⟩, rfl⟩
  | error e after =>
      rw [show step { State.opening own values side with events := s.events } = _ from hxs] at hrun
      rw [readSection_of_error hxs]
      exact hrun

/-- The table is allocated from `none`, so it is never there already. -/
theorem builds_allocate (terms : Terms) (h : base.objects = none) (count : Nat) :
    Simulates base.Now (fun _ => ())
      (check (SlotTable.allocate none count terms.limits.maxObjects))
      (Handling.allocate terms count)
      (fun table s a => table.slots = .ok count ∧ { base with objects := table }.Now s a)
      SameTold := by
  refine .get (y := do
    let objects ← Handling.check (SlotTable.allocate none count terms.limits.maxObjects)
    modify fun a => { a with objects }) ?_ ?_
  · rintro s _ rfl
    rw [← h]
  · unfold SlotTable.allocate
    dsimp only
    split
    case isTrue => exact builds_throw base _
    case isFalse =>
      rintro s _ rfl
      exact ⟨_, rfl, by simp [SlotTable.slots], rfl⟩

end

section

variable {n : Nat}

/-- A section is opened and decoded, and then comes the rest. If the arena with the new stream is
that of a chart (`hopen`), then the handle of the stream is the chart's handle for the stream of a
section, and the lemmas on sections apply. -/
theorem simulates_openSection (k : Chart) (k' : α → Chart) (ctx : Context n) (p : α → Prop)
    {base : Arena} {step : Step n α} {other : Handle → Handling β} {g : α → β}
    {values : Vector Reader n} {side : SideStreams} {rest : α × State n → Assemble γ}
    {otherRest : β → Handling δ} {h : γ → δ} {post : γ → Assembly → Arena → Prop}
    (hside : side.Accords ctx.configuration)
    (hopen : ∀ r, base.withStream r =
      { k.arena ctx 0 (State.opening r values side) with events := base.events })
    (hstep : ∀ container, Simulates ({ k with container }.At ctx 0) g step
      (other (k.handle ctx .own)) (fun v s a => p v ∧ { k' v with container }.At ctx 0 s a)
        SameEvents)
    (hrest : ∀ v, p v.1 → v.2.side.Accords ctx.configuration →
      Simulates ((k' v.1).arena ctx 0 v.2).Now h (rest v) (otherRest (g v.1)) post SameTold) :
    Simulates base.Now h (nextStream >>= fun r => readSection step r values side >>= rest)
      (Handling.openStream >>= fun handle => other handle >>= otherRest) post SameTold := by
  refine (builds_openStream base).bind fun r => ?_
  have hhandle : (⟨base.streams.length⟩ : Handle) = k.handle ctx .own := by
    have hlength : (base.streams ++ [r]).length = k.place ctx .own + 1 :=
      (congrArg (·.streams.length) (hopen r)).trans
        (Chart.length_lineUp (s := State.opening r values side) hside)
    rw [List.length_append, List.length_singleton] at hlength
    exact congrArg Handle.mk (Nat.add_right_cancel hlength)
  rw [hopen r, hhandle]
  exact (simulates_readSection hstep r values hside).bind fun v => .assume fun hv =>
    hrest v hv.1 hv.2

end

theorem builds_checkLeftovers (base : Arena) (streams : List StreamUse) :
    Builds base id (checkLeftovers streams) (Handling.checkLeftovers streams) fun _ => base := by
  unfold checkLeftovers Handling.checkLeftovers
  cases streams.find? (0 < ·.leftover) with
  | some stream => exact builds_throw base _
  | none => exact builds_pure base rfl rfl

/-- Once every slot is full, `Handling.finish` makes the module that `slotFinish` makes. -/
theorem builds_finish (terms : Terms) (base : Arena) (header : Header) (root : Value) :
    Builds base id
      (slotFinish terms.limits base.objects
        (fun found => ⟨terms.configuration, header, base.tags.toList, found, root,
          base.streams.map StreamUse.ofReader⟩) (base.streams.map StreamUse.ofReader))
      (Handling.finish terms header root) fun _ => base := by
  refine .get (y := do
    if terms.limits.strict then
      Handling.checkLeftovers (base.streams.map StreamUse.ofReader)
    let objects ← Handling.check base.objects.objects
    pure ⟨terms.configuration, header, base.tags.toList, objects, root,
      base.streams.map StreamUse.ofReader⟩) ?_ ?_
  · rintro s _ rfl
    rfl
  · have hbehind : Builds base id
        (do
          let found ← check base.objects.objects
          pure (⟨terms.configuration, header, base.tags.toList, found, root,
            base.streams.map StreamUse.ofReader⟩ : Module))
        (do
          let found ← Handling.check base.objects.objects
          pure ⟨terms.configuration, header, base.tags.toList, found, root,
            base.streams.map StreamUse.ofReader⟩) fun _ => base :=
      (builds_check base).bind fun _ => builds_pure base rfl rfl
    exact .ite .rfl (fun _ => (builds_checkLeftovers base _).bind fun _ => hbehind) fun _ => hbehind

section

variable (terms : Terms) (header : Header) (tags : List String × Reader)
  (values : Array (String × Reader)) (container : Reader)

/-- The arena of the streams that both sections share, behind the tag table. -/
def sharedArena (side : SideStreams) : Arena :=
  (((Arena.empty container).withTags tags).withSide side).withValueStreams values.toList

/-- The arena in front of the sections. -/
def arenaOf (side : SideStreams) (table : SlotTable) : Arena :=
  { sharedArena tags values container side with objects := table }

/-- The chart of a section: the tag table stands in front of the side streams, and earlier
sections stand behind the value streams. -/
def chartOf (side : SideStreams) (behind : List Reader) (table : SlotTable) : Chart where
  container
  front := [tags.2]
  behind
  values := (sharedArena tags values container side).values
  objects := table

/-- The root is opened behind the object table: the stream of the object table, in the state that
its section left it in, is `behind` the value streams now. -/
theorem withStream_arena (side : SideStreams) (table : SlotTable) (s : State values.size)
    (r : Reader) :
    ((chartOf tags values container side [] table).arena
      (contextOf terms.configuration terms.schema terms.limits header tags.1 values) 0 s).withStream
        r =
      { (chartOf tags values container side [s.own] table).arena
        (contextOf terms.configuration terms.schema terms.limits header tags.1 values) 0
          (State.opening r s.values s.side) with events := s.events } := by
  have hstreams : (chartOf tags values container side [] table).lineUp s ++ [r] =
      (chartOf tags values container side [s.own] table).lineUp
        (State.opening r s.values s.side) := by
    simp [Chart.lineUp, State.sharedStreams, State.opening, chartOf]
  rw [Arena.withStream, Chart.arena, Chart.arena, ← hstreams]
  rfl

variable {side : SideStreams} (hside : side.Accords terms.configuration)
include hside

/-- The chart of a section `Fits` its context: the place of a value stream is where it was opened.
-/
theorem fits_chartOf (behind : List Reader) {table : SlotTable}
    (htable : table.slots = .ok header.objectCount) :
    (chartOf tags values container side behind table).Fits
      (contextOf terms.configuration terms.schema terms.limits header tags.1 values) := by
  refine ⟨fun tag => ?_, htable⟩
  let base := ((Arena.empty container).withTags tags).withSide side
  have hplace (i : Fin values.size) : (⟨base.streams.length + i⟩ : Handle) =
      (chartOf tags values container side behind table).handle
        (contextOf terms.configuration terms.schema terms.limits header tags.1 values)
          (.values i) := by
    simp [base, Arena.withSide, Arena.withPackedIndices, Arena.withTypeTags, Arena.withInlining,
      Arena.withTags, Arena.empty, Chart.handle, Chart.place, Chart.firstValue, chartOf, contextOf,
      length_toList_of_isSome hside.inlining, length_toList_of_isSome hside.typeTags,
      length_toList_of_isSome hside.packedIndices]
    omega
  exact (base.getElem?_values_withValueStreams rfl values tag).trans
    (congrArg (fun f => ((routesOf values).lookup tag).map f) (funext hplace))

/-- The object table is opened behind the value streams: the arena is that of `chartOf`, side
streams and their handles included. -/
theorem withStream_arenaOf (table : SlotTable) (r : Reader) :
    (arenaOf tags values container side table).withStream r =
      { (chartOf tags values container side [] table).arena
        (contextOf terms.configuration terms.schema terms.limits header tags.1 values) 0
          (State.opening r (readersOf values) side) with
        events := (arenaOf tags values container side table).events } := by
  let k := chartOf tags values container side [] table
  let ctx := contextOf terms.configuration terms.schema terms.limits header tags.1 values
  have hstreams : (sharedArena tags values container side).streams ++ [r] =
      k.lineUp (State.opening r (readersOf values) side) := by
    rw [sharedArena, Arena.withValueStreams_eq]
    simp [Arena.withSide, Arena.withPackedIndices, Arena.withTypeTags, Arena.withInlining,
      Arena.withTags, Arena.empty, Chart.lineUp, k, chartOf, State.sharedStreams, State.opening,
      readersOf]
  -- Each handle that was noted is the length of the arena then, and the chart counts the same.
  have hinlining : side.inlining.map (fun _ => (⟨[tags.2].length⟩ : Handle)) =
      k.handleIf ctx ctx.configuration.separatesInliningFlags .inlining :=
    Chart.map_eq_handleIf hside.inlining rfl
  have htypeTags : side.typeTags.map
      (fun _ => (⟨([tags.2] ++ side.inlining.toList).length⟩ : Handle)) =
        k.handleIf ctx ctx.configuration.typeTagStream .typeTags :=
    Chart.map_eq_handleIf hside.typeTags (by
      rw [List.length_append, length_toList_of_isSome hside.inlining]
      rfl)
  have hpacked : side.packedIndices.map
      (fun _ => (⟨([tags.2] ++ side.inlining.toList ++ side.typeTags.toList).length⟩ : Handle)) =
        k.handleIf ctx ctx.configuration.separatesPackedIndices .packedIndices :=
    Chart.map_eq_handleIf hside.packedIndices (by
      rw [List.length_append, List.length_append, length_toList_of_isSome hside.inlining,
        length_toList_of_isSome hside.typeTags]
      rfl)
  rw [Chart.arena, ← hstreams, ← hinlining, ← htypeTags, ← hpacked, arenaOf, sharedArena,
    Arena.withValueStreams_eq]
  rfl

/-- Both sections of `slotSections`, one behind the other, and the module that is made of them. -/
theorem simulates_slotSections {levels : Nat} (hlevels : terms.limits.maxDepth < levels)
    {table : SlotTable} (htable : table.slots = .ok header.objectCount) :
    Simulates (arenaOf tags values container side table).Now id
      (slotSections terms.configuration terms.schema terms.limits header tags side values table)
      (do
        Handling.objectTable terms (Handling.value terms levels) (← Handling.openStream)
        let root ← Handling.root (Handling.value terms levels) (← Handling.openStream)
        Handling.finish terms header root) (fun _ => SameTold) SameTold := by
  let ctx := contextOf terms.configuration terms.schema terms.limits header tags.1 values
  have hfits (behind : List Reader) {table : SlotTable}
      (htable : table.slots = .ok header.objectCount) :
      (chartOf tags values container side behind table).Fits ctx :=
    fits_chartOf terms header tags values container hside behind htable
  unfold slotSections
  simp only [htable, check_ok, pure_bind]
  refine simulates_openSection (chartOf tags values container side [] table)
    (chartOf tags values container side []) ctx (·.slots = .ok header.objectCount) hside
    (withStream_arenaOf terms header tags values container hside table)
    (fun c => simulates_slotSection ((hfits [] htable).withContainer c) hlevels.le)
    fun objects hslots hafter => ?_
  simp only [hslots, check_ok, pure_bind]
  let k := chartOf tags values container side [objects.2.own] objects.1
  -- The root's section starts from the arena as the object table left it, with the table full.
  refine simulates_openSection k (fun _ => k) ctx (fun _ => True) hafter
    (withStream_arena terms header tags values container side objects.1 objects.2)
    (fun c => (mimics_root ((hfits _ hslots).withContainer c) hlevels).ofSection.mono
      (fun _ _ h => h) (fun _ _ _ h => ⟨trivial, h⟩) fun _ _ h => h)
    fun root _ _ => ?_
  have hstreams : k.lineUp root.2 = allStreams tags.2 objects.2.own root.2 := by
    simp [k, Chart.lineUp, chartOf, State.sharedStreams, allStreams]
  rw [← hstreams]
  exact (builds_finish terms (k.arena ctx 0 root.2) header root.1).mono (fun _ _ h => h)
    (fun _ _ _ h => h.sameTold) fun _ _ h => h

end

/-! ### Containers -/

/-- With more levels of recursion than may nest, `Handling.container` simulates `slotwise`, the
decoder that fills an object table of slots. -/
theorem simulates_slotwise (terms : Terms) {levels : Nat} (hlevels : terms.limits.maxDepth < levels)
    (container : Reader) :
    Simulates (Arena.empty container).Now id
      (slotwise terms.configuration terms.schema terms.limits)
      (Handling.container terms (Handling.value terms levels)) (fun _ => SameTold) SameTold := by
  refine (builds_read _ Header.read).bind fun header => (builds_openTags _).bind fun tags =>
    (builds_sharedStreams _ terms rfl).bind fun shared => .assume fun hside => ?_
  have hobjects : (sharedArena tags shared.2 container shared.1).objects = none := by
    rw [sharedArena, Arena.withValueStreams_eq]
    rfl
  exact (builds_allocate _ terms hobjects header.objectCount).bind fun table =>
    .assume fun htable => simulates_slotSections terms header tags shared.2 container hside hlevels
      htable

end BinaryAst.Decode

namespace BinaryAst

open Decode

/-- `decodeByHandle` has an answer for all bytes, configurations, schemas and limits, and it is that
of `decode`. So every handle that is used is of a stream, every look-up of the object table finds
it allocated, and it is the count of levels that stops the recursion. -/
theorem Module.decodeByHandle_eq (bytes : Bytes) (c : Configuration) (schema : Schema)
    (limits : Limits) :
    decodeByHandle bytes c schema limits = some (decode bytes c schema limits) := by
  let start : Assembly := ⟨.ofBytes c.toWireFormat "module" bytes, #[]⟩
  have hrun := simulates_slotwise ⟨c, limits, schema⟩ (Nat.lt_succ_self limits.maxDepth)
    start.container start (.empty start.container) rfl
  rw [Assemble.slotwise_eq] at hrun
  unfold decodeByHandle decode
  dsimp only
  cases hdecode : Assemble.moduleOf c schema limits start with
  | ok m t =>
      rw [hdecode] at hrun
      obtain ⟨a, ha, htold⟩ := hrun
      rw [show Handling.container _ _ (.empty (.ofBytes c.toWireFormat "module" bytes)) = _ from ha]
      exact congrArg (fun events : Array Event => some (Decoding.mk (.ok m) events.toList)) htold
  | error e t =>
      rw [hdecode] at hrun
      obtain ⟨a, ha, htold⟩ := hrun
      rw [show Handling.container _ _ (.empty (.ofBytes c.toWireFormat "module" bytes)) = _ from ha]
      exact congrArg (fun events : Array Event => some (Decoding.mk (.error e) events.toList)) htold

end BinaryAst
