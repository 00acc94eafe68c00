import BinaryAst.Proofs.Arena.Simulation
/-!
# BinaryAst.Proofs.Arena.Chart

Where the streams of a section stand in the arena.

`State` keeps the readers of a section by role, `Arena` keeps all readers in one list. A `Chart`
has what the arena holds beside such a state: the streams in front of the side streams and those
behind the value streams. `Chart.place` says where in the list the stream of a role is, and
`Chart.At` relates a state to the only arena that a chart allows for it.

`Chart.exists_lineUp` is the one lemma that looks at the list itself. It cuts the list at the
place of a stream, in such a way that a look-up and an update by handle can both be read off.
From it, every read by handle mimics the read by role (`mimics_fromSource`, and `mimics_beside`
for the side streams, which fall back to the source where the container has none).
-/

namespace BinaryAst.Decode

variable {n : Nat} {α : Type}

/-- What a container is decoded by, without what was found in it. -/
def Context.terms (ctx : Context n) : Terms := ⟨ctx.configuration, ctx.limits, ctx.schema⟩

/-! ### Where streams stand -/

/-- The state with another reader for the stream of a role. -/
def State.setLane (s : State n) (r : Reader) : Lane → State n
  | .own => { s with own := r }
  | .values i => { s with values := s.values.setIfInBounds i r }
  | .inlining => { s with side := { s.side with inlining := some r } }
  | .typeTags => { s with side := { s.side with typeTags := some r } }
  | .packedIndices => { s with side := { s.side with packedIndices := some r } }

/-- `setReader`, which goes by the source, is `setLane` at the role of the source. -/
theorem State.setReader_eq (s : State n) (source : Source n) (r : Reader) :
    s.setReader source r = s.setLane r source.lane := by
  cases source with
  | own => rfl
  | values i => simp [setReader, setLane, Source.lane, Vector.setIfInBounds, Array.setIfInBounds,
      Vector.set]

/-- The side streams that are there are those that the configuration calls for. -/
structure SideStreams.Accords (side : SideStreams) (c : Configuration) : Prop where
  inlining : side.inlining.isSome = c.separatesInliningFlags
  typeTags : side.typeTags.isSome = c.typeTagStream
  packedIndices : side.packedIndices.isSome = c.separatesPackedIndices

/-- What an arena holds beside the `State` of a section. -/
structure Chart where
  container : Reader
  /-- The streams that were opened before the side streams. -/
  front : List Reader
  /-- The streams that were opened behind the value streams, before the one of the section. -/
  behind : List Reader
  values : Std.HashMap String Handle
  objects : SlotTable

namespace Chart

variable (k : Chart) (ctx : Context n)

/-- Where the value streams start. -/
def firstValue : Nat :=
  k.front.length + ctx.configuration.separatesInliningFlags.toNat +
    ctx.configuration.typeTagStream.toNat + ctx.configuration.separatesPackedIndices.toNat

/-- Where the stream of a role stands. -/
def place : Lane → Nat
  | .inlining => k.front.length
  | .typeTags => k.front.length + ctx.configuration.separatesInliningFlags.toNat
  | .packedIndices => k.front.length + ctx.configuration.separatesInliningFlags.toNat +
      ctx.configuration.typeTagStream.toNat
  | .values i => k.firstValue ctx + i
  | .own => k.firstValue ctx + n + k.behind.length

/-- All streams that were opened, in container order. -/
def lineUp (s : State n) : List Reader :=
  k.front ++ s.sharedStreams ++ k.behind ++ [s.own]

/-- The handle of the stream of a role. -/
def handle (lane : Lane) : Handle := ⟨k.place ctx lane⟩

/-- The handle of a side stream, where the container has it. -/
def handleIf (present : Bool) (lane : Lane) : Option Handle :=
  if present then some (k.handle ctx lane) else none

/-- The arena of a section, with so many objects and arrays being read. -/
def arena (depth : Nat) (s : State n) : Arena where
  container := k.container
  streams := k.lineUp s
  tags := ctx.tags
  inlining := k.handleIf ctx ctx.configuration.separatesInliningFlags .inlining
  typeTags := k.handleIf ctx ctx.configuration.typeTagStream .typeTags
  packedIndices := k.handleIf ctx ctx.configuration.separatesPackedIndices .packedIndices
  values := k.values
  objects := k.objects
  depth
  events := s.events

/-- The relation between the state of a section and its arena: the chart allows for no other
arena, so nothing of it is left open. -/
def At (depth : Nat) (s : State n) (a : Arena) : Prop :=
  s.side.Accords ctx.configuration ∧ a = k.arena ctx depth s

/-- The chart of a context: its look-ups of value streams are the routes, and its object table has
as many slots as the context counts objects. -/
structure Fits : Prop where
  values : ∀ tag, k.values[tag]? =
    (ctx.routes.lookup tag).map fun i : Fin n => k.handle ctx (.values i)
  objects : k.objects.slots = .ok ctx.objectCount

end Chart

theorem length_toList_of_isSome {o : Option α} {b : Bool} (h : o.isSome = b) :
    o.toList.length = b.toNat := by
  subst h
  cases o <;> rfl

/-- A vector cut at a position, as `Chart.exists_lineUp` cuts the arena: `setIfInBounds` leaves
both sides of the cut alone. -/
theorem exists_toList_setIfInBounds (v : Vector α n) {i : Nat} (h : i < n) :
    ∃ before after, before.length = i ∧ v.toList = before ++ v[i] :: after ∧
      ∀ a, (v.setIfInBounds i a).toList = before ++ a :: after := by
  have hi : i < v.toList.length := by simpa using h
  refine ⟨v.toList.take i, v.toList.drop (i + 1), by simp [h.le], ?_, fun a => ?_⟩
  · rw [← Vector.getElem_toList hi, ← List.drop_eq_getElem_cons hi, List.take_append_drop]
  · simp [List.set_eq_take_append_cons_drop, h]

section

variable {k : Chart} {ctx : Context n} {depth : Nat} {s : State n} {lane : Lane} {r : Reader}

/-- The stream of the section itself is the last of the `lineUp`, whose length is its `place` and
one. -/
theorem Chart.length_lineUp (hs : s.side.Accords ctx.configuration) :
    (k.lineUp s).length = k.place ctx .own + 1 := by
  simp [lineUp, place, firstValue, State.sharedStreams, length_toList_of_isSome hs.inlining,
    length_toList_of_isSome hs.typeTags, length_toList_of_isSome hs.packedIndices, Nat.add_assoc]

/-- The reader of a role stands at its `place` in the line-up, and `setLane` exchanges just what
stands there. -/
theorem Chart.exists_lineUp (k : Chart) (hs : s.side.Accords ctx.configuration)
    (hr : s.lane? lane = some r) :
    ∃ before after, before.length = k.place ctx lane ∧ k.lineUp s = before ++ r :: after ∧
      ∀ r', k.lineUp (s.setLane r' lane) = before ++ r' :: after := by
  have hinlining := length_toList_of_isSome hs.inlining
  have htypeTags := length_toList_of_isSome hs.typeTags
  have hpacked := length_toList_of_isSome hs.packedIndices
  -- The streams in front of the cut are listed role by role; how many they are is `Accords`.
  cases lane with
  | own =>
      obtain rfl := Option.some.inj hr
      refine ⟨k.front ++ s.sharedStreams ++ k.behind, [], ?_, rfl, fun r' => rfl⟩
      simp [place, firstValue, State.sharedStreams, hinlining, htypeTags, hpacked, Nat.add_assoc]
  | values i =>
      obtain ⟨hlt, rfl⟩ : ∃ hlt : i < n, s.values[i] = r := Vector.getElem?_eq_some_iff.mp hr
      obtain ⟨before, after, hlength, hvalues, hset⟩ := exists_toList_setIfInBounds s.values hlt
      refine ⟨k.front ++ s.side.inlining.toList ++ s.side.typeTags.toList ++
        s.side.packedIndices.toList ++ before, after ++ k.behind ++ [s.own], ?_, ?_, fun r' => ?_⟩
      · simp [place, firstValue, hinlining, htypeTags, hpacked, hlength, Nat.add_assoc]
      · simp [lineUp, State.sharedStreams, hvalues]
      · simp [lineUp, State.sharedStreams, State.setLane, hset]
  | inlining =>
      have hsome : s.side.inlining = some r := hr
      refine ⟨k.front, s.side.typeTags.toList ++ s.side.packedIndices.toList ++ s.values.toList ++
        k.behind ++ [s.own], rfl, ?_, fun r' => ?_⟩
      · simp [lineUp, State.sharedStreams, hsome]
      · simp [lineUp, State.sharedStreams, State.setLane]
  | typeTags =>
      have hsome : s.side.typeTags = some r := hr
      refine ⟨k.front ++ s.side.inlining.toList, s.side.packedIndices.toList ++ s.values.toList ++
        k.behind ++ [s.own], by simp [place, hinlining], ?_, fun r' => ?_⟩
      · simp [lineUp, State.sharedStreams, hsome]
      · simp [lineUp, State.sharedStreams, State.setLane]
  | packedIndices =>
      have hsome : s.side.packedIndices = some r := hr
      refine ⟨k.front ++ s.side.inlining.toList ++ s.side.typeTags.toList, s.values.toList ++
        k.behind ++ [s.own], by simp [place, hinlining, htypeTags, Nat.add_assoc], ?_, fun r' => ?_⟩
      · simp [lineUp, State.sharedStreams, hsome]
      · simp [lineUp, State.sharedStreams, State.setLane]

/-- Different sources have different handles. Whether a field is redirected, which the decoder
tells by comparing handles, is thus whether its `fieldSource` is another source. -/
theorem Chart.handle_lane_inj {a b : Source n} :
    k.handle ctx a.lane = k.handle ctx b.lane ↔ a = b := by
  refine ⟨fun h => ?_, fun h => h ▸ rfl⟩
  have hplace : k.place ctx a.lane = k.place ctx b.lane := congrArg Handle.index h
  cases a with
  | own =>
      cases b with
      | own => rfl
      | values j =>
          simp only [place, Source.lane] at hplace
          omega
  | values i =>
      cases b with
      | own =>
          simp only [place, Source.lane] at hplace
          omega
      | values j =>
          simp only [place, Source.lane] at hplace
          exact congrArg Source.values (Fin.ext (by omega))

/-- The handle under which a side stream was opened, where it was, is the `handleIf` of its
place. -/
theorem Chart.map_eq_handleIf {o : Option Reader} {present : Bool} {place : Nat}
    (ho : o.isSome = present) (hplace : place = k.place ctx lane) :
    o.map (fun _ => ⟨place⟩) = k.handleIf ctx present lane := by
  subst ho hplace
  cases o <;> rfl

/-- `setLane` does not make a side stream come or go, so the side streams stay in accord. -/
theorem State.accords_setLane {c : Configuration} (hs : s.side.Accords c)
    (hr : s.lane? lane = some r) (r' : Reader) : (s.setLane r' lane).side.Accords c := by
  cases lane with
  | own | values => exact hs
  | inlining =>
      have hsome : s.side.inlining = some r := hr
      exact { hs with inlining := by rw [← hs.inlining, hsome]; rfl }
  | typeTags =>
      have hsome : s.side.typeTags = some r := hr
      exact { hs with typeTags := by rw [← hs.typeTags, hsome]; rfl }
  | packedIndices =>
      have hsome : s.side.packedIndices = some r := hr
      exact { hs with packedIndices := by rw [← hs.packedIndices, hsome]; rfl }

theorem State.events_setLane (s : State n) (r : Reader) (lane : Lane) :
    (s.setLane r lane).events = s.events := by
  cases lane <;> rfl

/-! ### Reads -/

/-- What the decoder by handles looks up in its state is what stands in the only arena that the
chart allows, so the look-up is settled wherever that is the same for all states. -/
theorem simulates_lookUp {β : Type} {g : α → β} {x : Step n α} {y : Handling β}
    {look : Arena → Handling β} {post : α → State n → Arena → Prop} {fail : State n → Arena → Prop}
    (hlook : ∀ s, look (k.arena ctx depth s) = y)
    (hx : Simulates (k.At ctx depth) g x y post fail) :
    Simulates (k.At ctx depth) g x (MonadState.get >>= look) post fail := by
  refine Simulates.get ?_ hx
  rintro s _ ⟨-, rfl⟩
  exact hlook s

/-- The handle of a role finds the reader of the role: in an arena that a chart allows, no handle
of the chart is `Stop.stray`. -/
theorem Chart.getElem?_streams_arena (hs : s.side.Accords ctx.configuration)
    (hr : s.lane? lane = some r) :
    (k.arena ctx depth s).streams[(k.handle ctx lane).index]? = some r := by
  obtain ⟨before, after, hlength, hlineUp, -⟩ := k.exists_lineUp hs hr
  simp [arena, handle, hlineUp, ← hlength]

/-- A reader that is put back by its handle is put back into its role: the `set` at the handle's
index is `setLane`. -/
theorem Chart.arena_setLane (hs : s.side.Accords ctx.configuration) (hr : s.lane? lane = some r)
    (r' : Reader) :
    { k.arena ctx depth s with
      streams := (k.arena ctx depth s).streams.set (k.handle ctx lane).index r' } =
      k.arena ctx depth (s.setLane r' lane) := by
  obtain ⟨before, after, hlength, hlineUp, hset⟩ := k.exists_lineUp hs hr
  simp [arena, handle, hlineUp, hset, ← hlength, State.events_setLane]

/-- `Handling.readFrom` mimics any step that serves a read from one stream, as long as the handle
is that of the stream. Which stream it is may depend on the state. -/
theorem mimics_serve {h : Handle} {read : Read α} {step : Step n α}
    (hstep : ∀ s : State n, s.side.Accords ctx.configuration → ∃ lane r, s.lane? lane = some r ∧
      k.handle ctx lane = h ∧ step s = State.serve r (s.setLane · lane) read) :
    Mimics (k.At ctx depth) id step (Handling.readFrom h read) := by
  rintro s _ ⟨hs, rfl⟩
  obtain ⟨lane, r, hr, rfl, hrun⟩ := hstep s hs
  rw [hrun, State.serve, Handling.readFrom_eq (Chart.getElem?_streams_arena hs hr)]
  cases read r with
  | ok v r' =>
      exact ⟨_, rfl, State.accords_setLane hs hr r', Chart.arena_setLane hs hr r'⟩
  | error e r' =>
      exact ⟨_, rfl, State.accords_setLane hs hr r', Chart.arena_setLane hs hr r'⟩

theorem mimics_fromSource (source : Source n) (read : Read α) :
    Mimics (k.At ctx depth) id (Step.fromSource source read)
      (Handling.readFrom (k.handle ctx source.lane) read) :=
  mimics_serve fun s _ => ⟨source.lane, s.reader source, s.lane?_source source, rfl,
    congrArg (State.serve _ · read) (funext (State.setReader_eq s source))⟩

/-- A read from a side stream where there is one, and from the source where there is none. By
handles, that is decided by the handle that the arena has for the side stream (`handleIf`), and
without them by whether the state has its reader. -/
theorem mimics_beside {present : Bool} {step : Step n α} {source : Source n} {read : Read α}
    (hpresent : ∀ s : State n, s.side.Accords ctx.configuration → (s.lane? lane).isSome = present)
    (hsome : ∀ s r, s.lane? lane = some r → step s = State.serve r (s.setLane · lane) read)
    (hnone : ∀ s, s.lane? lane = none → step s = Step.fromSource source read s) :
    Mimics (k.At ctx depth) id step (Handling.readFrom
      ((k.handleIf ctx present lane).getD (k.handle ctx source.lane)) read) := by
  refine mimics_serve fun s hs => ?_
  rw [← hpresent s hs]
  cases hr : s.lane? lane with
  | some r => exact ⟨lane, r, hr, rfl, hsome s r hr⟩
  | none =>
      refine ⟨source.lane, s.reader source, s.lane?_source source, rfl, (hnone s hr).trans ?_⟩
      exact congrArg (State.serve _ · read) (funext (State.setReader_eq s source))

theorem mimics_fromInlining (source : Source n) (read : Read α) :
    Mimics (k.At ctx depth) id (Step.fromInlining source read) (Handling.readFrom
      ((k.handleIf ctx ctx.configuration.separatesInliningFlags .inlining).getD
        (k.handle ctx source.lane)) read) :=
  mimics_beside (fun _ hs => hs.inlining)
    (fun s r hr => by rw [Step.fromInlining, show s.side.inlining = some r from hr]; rfl)
    fun s hr => by rw [Step.fromInlining, show s.side.inlining = none from hr]

theorem mimics_fromTypeTags (source : Source n) (read : Read α) :
    Mimics (k.At ctx depth) id (Step.fromTypeTags source read) (Handling.readFrom
      ((k.handleIf ctx ctx.configuration.typeTagStream .typeTags).getD
        (k.handle ctx source.lane)) read) :=
  mimics_beside (fun _ hs => hs.typeTags)
    (fun s r hr => by rw [Step.fromTypeTags, show s.side.typeTags = some r from hr]; rfl)
    fun s hr => by rw [Step.fromTypeTags, show s.side.typeTags = none from hr]

theorem mimics_fromPackedIndices (source : Source n) (read : Read α) :
    Mimics (k.At ctx depth) id (Step.fromPackedIndices source read) (Handling.readFrom
      ((k.handleIf ctx ctx.configuration.separatesPackedIndices .packedIndices).getD
        (k.handle ctx source.lane)) read) :=
  mimics_beside (fun _ hs => hs.packedIndices)
    (fun s r hr => by rw [Step.fromPackedIndices, show s.side.packedIndices = some r from hr]; rfl)
    fun s hr => by rw [Step.fromPackedIndices, show s.side.packedIndices = none from hr]

theorem mimics_description (source : Source n) :
    Mimics (k.At ctx depth) id (Step.description source)
      (Handling.description (k.handle ctx source.lane)) := by
  rintro s _ ⟨hs, rfl⟩
  have hr := s.lane?_source source
  exact ⟨_, Handling.description_eq (Chart.getElem?_streams_arena hs hr), hs, rfl⟩

theorem mimics_tell (event : Event) :
    Mimics (k.At ctx depth) id (Step.tell event : Step n Unit) (Handling.tell event) := by
  rintro s _ ⟨hs, rfl⟩
  exact ⟨_, rfl, hs, rfl⟩

end

end BinaryAst.Decode
