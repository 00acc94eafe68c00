import BinaryAst.Proofs.Container.Assembly
import BinaryAst.Proofs.Triple
/-!
# BinaryAst.Proofs.Container.Slots

The object table as slots that are filled one by one.

Here the table is allocated before the sections are read, as so many empty slots; objects are
put into it as they are decoded; and at the end every slot has to be full. Each of these
operations has its own way to go wrong: there may be a table already, or none yet, or a slot
that is still empty. None of them ever does, so the decoder with slots is the decoder that
collects the objects in a list (`Assemble.slotwise_eq`).
-/

namespace BinaryAst.Decode

/-- An object table while it is filled: it may be missing, and slots may be empty. -/
abbrev SlotTable := Option (List (Option ObjectValue))

namespace SlotTable

/-- A table of empty slots. There must be none yet, and no more slots than are allowed. -/
def allocate (table : SlotTable) (count max : Nat) : Except DecodeError SlotTable :=
  match table with
  | some _ => .error .objectTableAlreadyAllocated
  | none =>
    if max < count then .error (.tooManyObjects count max)
    else .ok (some (List.replicate count none))

/-- The number of slots, full or empty. There must be a table. -/
def slots : SlotTable → Except DecodeError Nat
  | some slots => .ok slots.length
  | none => .error .objectTableMissing

/-- Puts an object into a slot. -/
def fill (table : SlotTable) (slot : Nat) (object : ObjectValue) : SlotTable :=
  table.map (·.set slot (some object))

/-- The objects from a slot on, none of them missing. -/
def objectsFrom : (slot : Nat) → List (Option ObjectValue) → Except DecodeError (List ObjectValue)
  | _, [] => .ok []
  | slot, none :: _ => .error (.uninitializedSlot slot)
  | slot, some object :: rest => (object :: ·) <$> objectsFrom (slot + 1) rest

/-- The objects of a table whose slots are all full. -/
def objects (table : SlotTable) : Except DecodeError (List ObjectValue) :=
  objectsFrom 0 (table.getD [])

/-- A table whose first slots hold these objects, with so many empty slots behind them. -/
def filled (objects : List ObjectValue) (left : Nat) : SlotTable :=
  some (objects.map some ++ List.replicate left none)

/-- What `allocate` gives is a table with nothing `filled`. -/
theorem allocate_none {count max : Nat} (h : ¬max < count) :
    allocate none count max = .ok (filled [] count) := if_neg h

theorem slots_filled (objects : List ObjectValue) (left : Nat) :
    (filled objects left).slots = .ok (objects.length + left) := by
  simp [filled, slots]

/-- `fill` never changes how many `slots` there are. -/
theorem slots_fill (table : SlotTable) (slot : Nat) (object : ObjectValue) :
    (table.fill slot object).slots = table.slots := by
  cases table <;> simp [fill, slots]

/-- `fill` at the first slot of `filled` that is empty puts the next object there. -/
theorem fill_filled (objects : List ObjectValue) (left : Nat) (object : ObjectValue) :
    (filled objects (left + 1)).fill objects.length object = filled (objects ++ [object]) left := by
  simp [filled, fill, List.replicate_succ]

/-- `objectsFrom` gives the objects of slots that are all full. -/
theorem objectsFrom_map_some (slot : Nat) (objects : List ObjectValue) :
    objectsFrom slot (objects.map some) = .ok objects := by
  induction objects generalizing slot with
  | nil => rfl
  | cons object objects ih =>
      rw [List.map_cons, objectsFrom, ih]
      rfl

/-- A `filled` table with no empty slot left gives its objects. -/
theorem objects_filled (objects : List ObjectValue) : (filled objects 0).objects = .ok objects := by
  rw [SlotTable.objects, filled, List.replicate_zero, List.append_nil]
  exact objectsFrom_map_some 0 objects

end SlotTable

/-- What was checked, as a step. -/
def check {σ α : Type} : Except DecodeError α → EStateM DecodeError σ α
  | .ok value => pure value
  | .error e => throw e

theorem check_ok {σ α : Type} (value : α) :
    (check (.ok value) : EStateM DecodeError σ α) = pure value := rfl

/-- What comes behind a step may be replaced if it is the same for the values that the step gives.
-/
theorem bind_congr_of_ok {ε σ α β : Type} {x : EStateM ε σ α} {f g : α → EStateM ε σ β}
    (h : ∀ s v t, x s = .ok v t → f v = g v) : x >>= f = x >>= g := by
  funext s
  cases hrun : x s with
  | ok v t => rw [bind_of_ok hrun, bind_of_ok hrun, h s v t hrun]
  | error e t => rw [bind_of_error hrun, bind_of_error hrun]

/-! ### The section -/

section

variable {n : Nat} (ctx : Context n)

/-- The object of a slot, which is told when it is there. -/
def slotObject (slot : Nat) : Step n ObjectValue := do
  let object ← tableObject ctx (innerAt ctx ctx.limits.maxDepth) .own
  Step.tell (.slot slot object.shape)
  pure object

/-- Fills `left` slots of a table, one after another. -/
def fillSlots : (left slot : Nat) → SlotTable → Step n SlotTable
  | 0, _, table => pure table
  | left + 1, slot, table => do
    let object ← slotObject ctx slot
    fillSlots left (slot + 1) (table.fill slot object)

/-- The object table, into slots: it has to have as many objects as there are. -/
def slotSection (table : SlotTable) : Step n SlotTable := do
  let count ← Step.fromSource .own Read.uint32
  let slots ← check table.slots
  if count = slots then fillSlots ctx slots 0 table
  else throw (.objectCountMismatch count slots)

/-- `fillSlots` collects as many objects as there are slots left, and appends them to those that are
there. By induction on the slots left. -/
theorem fillSlots_eq (left : Nat) (objects : List ObjectValue) :
    fillSlots ctx left objects.length (.filled objects left) =
      (fun more => SlotTable.filled (objects ++ more) 0) <$>
        collectFrom (slotObject ctx) left objects.length [] := by
  induction left generalizing objects with
  | zero => simp [fillSlots, collectFrom]
  | succ left ih =>
      rw [fillSlots, collectFrom_succ, map_bind]
      refine congrArg _ (funext fun object => ?_)
      have hnext := ih (objects ++ [object])
      rw [List.length_append, List.length_singleton] at hnext
      rw [SlotTable.fill_filled, hnext]
      simp

/-- The slots of `slotSection` end up with the objects that `objectTable` collects. -/
theorem slotSection_eq :
    slotSection ctx (.filled [] ctx.objectCount) = (SlotTable.filled · 0) <$> objectTable ctx := by
  rw [objectTable, map_bind]
  refine congrArg _ (funext fun count => ?_)
  rw [SlotTable.slots_filled, List.length_nil, Nat.zero_add]
  change (if count = ctx.objectCount then _ else _) = _
  split
  case isTrue h =>
    subst h
    exact fillSlots_eq ctx ctx.objectCount []
  case isFalse => rfl

end

/-- What `objectTable` gives has as many objects as the context counts. -/
theorem length_of_objectTable {n : Nat} {ctx : Context n} {s t : State n}
    {objects : List ObjectValue} (h : objectTable ctx s = .ok objects t) :
    objects.length = ctx.objectCount := by
  obtain ⟨count, s', -, h⟩ := bind_eq_ok_iff.mp h
  split at h
  case isTrue hcount => exact ((Triple.length_collectFrom _ _ _).ok trivial h).trans hcount
  case isFalse => exact absurd h throw_ne_ok

section

variable {n : Nat} {α β : Type} {step : Step n α} {own : Reader} {values : Vector Reader n}
  {side : SideStreams}

/-- Where its step succeeds, `readSection` hands on the state without its events, which are those of
the container now. -/
theorem readSection_of_ok {v : α} {s : Assembly} {after : State n}
    (h : step { own, values, side, events := s.events } = .ok v after) :
    readSection step own values side s =
      .ok (v, after.quiet) { s with events := after.events } := by
  refine map_eq_ok_iff.mpr ⟨(v, after), ?_, rfl⟩
  rw [Assemble.decodeSection, h]

/-- Where its step fails, `readSection` leaves what it told, and nothing else. -/
theorem readSection_of_error {e : DecodeError} {s : Assembly} {after : State n}
    (h : step { own, values, side, events := s.events } = .error e after) :
    readSection step own values side s = .error e { s with events := after.events } := by
  rw [readSection, map_eq_pure_bind]
  refine bind_of_error ?_
  rw [Assemble.decodeSection, h]

/-- What `readSection` gives, the step of the section gave. -/
theorem exists_of_readSection {v : α × State n} {s t : Assembly}
    (h : readSection step own values side s = .ok v t) :
    ∃ after, step { own, values, side, events := s.events } = .ok v.1 after ∧
      v.2 = after.quiet := by
  cases hrun : step { own, values, side, events := s.events } with
  | ok value after =>
      rw [readSection_of_ok hrun] at h
      cases h
      exact ⟨after, rfl, rfl⟩
  | error e after =>
      rw [readSection_of_error hrun] at h
      cases h

/-- `readSection` reads nothing from the container itself. -/
theorem container_of_readSection {v : α × State n} {s t : Assembly}
    (h : readSection step own values side s = .ok v t) : t.container = s.container := by
  cases hrun : step { own, values, side, events := s.events } with
  | ok value after =>
      rw [readSection_of_ok hrun] at h
      cases h
      rfl
  | error e after =>
      rw [readSection_of_error hrun] at h
      cases h

/-- A map of what a section gives may be taken out of the section. -/
theorem readSection_map (g : α → β) :
    readSection (g <$> step) own values side =
      (fun v => (g v.1, v.2)) <$> readSection step own values side := by
  funext s
  have hrun : ∀ start : State n, (g <$> step) start = EStateM.map g step start := fun _ => rfl
  change EStateM.map _ (Assemble.decodeSection (g <$> step) own values side) s =
    EStateM.map _ (EStateM.map _ (Assemble.decodeSection step own values side)) s
  simp only [Assemble.decodeSection, EStateM.map, hrun]
  cases step { own, values, side, events := s.events } <;> rfl

end

namespace Assemble

/-- The module of a table whose slots are all full, unless a stream of it was not read to its
end and that is an error. -/
def slotFinish (limits : Limits) (table : SlotTable) (build : List ObjectValue → Module)
    (streams : List StreamUse) : Assemble Module := do
  if limits.strict then
    checkLeftovers streams
  let objects ← check table.objects
  pure (build objects)

/-- The object table, into slots, then the root. References may be to any slot. -/
def slotSections (c : Configuration) (schema : Schema) (limits : Limits) (header : Header)
    (tags : List String × Reader) (side : SideStreams) (values : Array (String × Reader))
    (table : SlotTable) : Assemble Module := do
  let objectsReader ← nextStream
  let slots ← check table.slots
  let objects ← readSection (slotSection
    (contextOf c schema limits { header with objectCount := slots } tags.1 values) table)
    objectsReader (readersOf values) side
  let rootReader ← nextStream
  let slots ← check objects.1.slots
  let root ← readSection
    (root (contextOf c schema limits { header with objectCount := slots } tags.1 values))
    rootReader objects.2.values objects.2.side
  let streams := (allStreams tags.2 objects.2.own root.2).map StreamUse.ofReader
  slotFinish limits objects.1 (fun found => ⟨c, header, tags.1, found, root.1, streams⟩) streams

/-- The module of a container, with an object table of slots. -/
def slotwise (c : Configuration) (schema : Schema) (limits : Limits) : Assemble Module := do
  let header ← read Header.read
  let tags ← tagTable
  let shared ← sharedStreams c tags.1
  let table ← check (SlotTable.allocate none header.objectCount limits.maxObjects)
  slotSections c schema limits header tags shared.1 shared.2 table

/-- With all slots full, `slotFinish` is `finish`: the check of the slots, which comes behind that
of the streams, passes. -/
theorem slotFinish_eq (limits : Limits) (build : List ObjectValue → Module)
    (objects : List ObjectValue) {streams : List StreamUse}
    (h : (build objects).streams = streams) :
    slotFinish limits (.filled objects 0) build streams = finish limits (build objects) := by
  rw [slotFinish, finish, h, SlotTable.objects_filled]
  rfl

/-- From a table that was just allocated, `slotSections` is `sections`: the table has as many slots
at each look-up as the header counts objects. -/
theorem slotSections_eq (c : Configuration) (schema : Schema) (limits : Limits) (header : Header)
    (tags : List String × Reader) (side : SideStreams) (values : Array (String × Reader)) :
    slotSections c schema limits header tags side values (.filled [] header.objectCount) =
      sections c schema limits header tags side values := by
  refine congrArg _ (funext fun objectsReader => ?_)
  rw [SlotTable.slots_filled, List.length_nil, Nat.zero_add, check_ok, pure_bind]
  have hsection := slotSection_eq (contextOf c schema limits header tags.1 values)
  rw [show (contextOf c schema limits header tags.1 values).objectCount = header.objectCount
    from rfl] at hsection
  rw [hsection, readSection_map, bind_map_left]
  refine bind_congr_of_ok fun s objects t hobjects => ?_
  obtain ⟨after, hrun, -⟩ := exists_of_readSection hobjects
  have hlength : objects.1.length = header.objectCount := length_of_objectTable hrun
  refine congrArg _ (funext fun rootReader => ?_)
  dsimp only
  rw [SlotTable.slots_filled, Nat.add_zero, hlength, check_ok, pure_bind]
  exact congrArg _ (funext fun root => slotFinish_eq limits _ objects.1 rfl)

/-- `slotwise`, the decoder with slots, is `moduleOf`: its table is allocated once, is there
whenever it is looked up, and is full in the end. -/
theorem slotwise_eq (c : Configuration) (schema : Schema) (limits : Limits) :
    slotwise c schema limits = moduleOf c schema limits := by
  rw [moduleOf_eq]
  refine congrArg _ (funext fun header => congrArg _ (funext fun tags =>
    congrArg _ (funext fun shared => ?_)))
  split
  case isTrue h =>
    rw [SlotTable.allocate, if_pos h]
    rfl
  case isFalse h =>
    rw [SlotTable.allocate_none h]
    exact slotSections_eq c schema limits header tags shared.1 shared.2

end Assemble

end BinaryAst.Decode
