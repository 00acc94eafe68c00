import BinaryAst.Proofs.Container.Faults
import BinaryAst.Proofs.Decode.Lineage
/-!
# BinaryAst.Proofs.Container.Opening

How the sections of a container are entered, and what follows from there.

Everything in front of the two sections is the `Opening`: it settles what stays fixed while
they are decoded, and the streams that they share. Nothing in it tells of a field. The object
table enters its objects one after another, and the root is a value (`Enters`). So whatever is
told of a field in a run, and whatever a failure is put down to, a decoder stood there
(`Module.decode_told`).
-/

namespace BinaryAst.Decode

open Assemble

variable {α β : Type}

/-- What is read of a container in front of its sections. -/
structure Opening where
  header : Header
  tags : List String × Reader
  side : SideStreams
  /-- The value streams with their tags, in the order of the container. -/
  values : Array (String × Reader)

/-- What stays fixed while the sections are decoded: `contextOf` what was read in front of them. -/
def Opening.context (o : Opening) (c : Configuration) (schema : Schema) (limits : Limits) :
    Context o.values.size :=
  contextOf c schema limits o.header o.tags.1 o.values

/-- A value stream, with the tag that it was registered for. -/
def Opening.registered (o : Opening) (i : Fin o.values.size) : String × Reader := o.values[i]

/-- Reads what is in front of the sections. The limit on objects is checked here, behind the streams
that both sections share. -/
def Assemble.opening (c : Configuration) (limits : Limits) : Assemble Opening := do
  let header ← read Header.read
  let tags ← tagTable
  let shared ← sharedStreams c tags.1
  if limits.maxObjects < header.objectCount then
    throw (.tooManyObjects header.objectCount limits.maxObjects)
  else
    pure ⟨header, tags, shared.1, shared.2⟩

/-- `moduleOf` cut in two: the `opening`, then the `sections` with what it gives. -/
theorem moduleOf_eq_opening (c : Configuration) (schema : Schema) (limits : Limits) :
    moduleOf c schema limits = opening c limits >>= fun o =>
      sections c schema limits o.header o.tags o.side o.values := by
  rw [moduleOf_eq, opening, bind_assoc]
  refine congrArg _ (funext fun header => ?_)
  rw [body, bind_assoc]
  refine congrArg _ (funext fun tags => ?_)
  rw [bind_assoc]
  refine congrArg _ (funext fun shared => ?_)
  split <;> rfl

/-- The two sections of a container. -/
inductive Stage
  | objects
  | root
  deriving DecidableEq, Repr

section

variable (bytes : Bytes) (c : Configuration) (schema : Schema) (limits : Limits)

/-- The standings that a section is entered with, where `own` is its own stream. The object table is
entered with each of its objects, behind those before it, and the root as a value of the tag `any`.
-/
inductive Enters (o : Opening) :
    Stage → Reader → Standing o.values.size → State o.values.size → Prop
  | slot {s t own start position objects u tag v shape levels} :
      opening c limits (.start c bytes) = .ok o s → nextStream s = .ok own t →
        Step.fromSource .own Read.uint32 ⟨own, readersOf o.values, o.side, t.events⟩ =
            .ok o.header.objectCount start →
          position < o.header.objectCount →
            collect position (slotObject (o.context c schema limits)) start = .ok objects u →
              typeTag (o.context c schema limits) .own u = .ok tag v →
                schema.shape? tag = some shape → limits.maxDepth = levels + 1 →
                  Enters o .objects own
                    (.fields levels ⟨shape, none, .own, v.events.toList⟩ shape.fields) v
  | root {s table t objects u own v} :
      opening c limits (.start c bytes) = .ok o s → nextStream s = .ok table t →
        readSection (objectTable (o.context c schema limits)) table (readersOf o.values) o.side t =
            .ok objects u →
          nextStream u = .ok own v →
            Enters o .root own (.value limits.maxDepth .own Tag.any)
              ⟨own, objects.2.values, objects.2.side, v.events⟩

/-- Each of these standings is one that a run may start from (`Opens`): behind its type tag, an
object of the table stands at its first field. -/
theorem Enters.opens {o : Opening} {stage : Stage} {own : Reader}
    {standing : Standing o.values.size} {s : State o.values.size}
    (h : Enters bytes c schema limits o stage own standing s) :
    Opens (o.context c schema limits) standing s := by
  cases h with
  | @slot _ _ _ _ _ _ _ _ _ shape levels _ _ _ _ _ _ hshape hlevels =>
      refine .fields (hlevels ▸ Nat.lt_succ_self levels) ?_
      exact (Schema.name_of_shape? hshape).symm ▸ hshape
  | root => exact .value (Nat.le_refl _)

end

/-! ### Everything in front of the sections -/

/-- The step of an assembly tells of no field, and a failure of it is put down to none. It is to the
container what `Quiet` is to a section. -/
def Hushed (x : Assemble α) : Prop := ∀ front : List Event,
  Triple (fun s => ToldAt nowhere front s.events.toList) x
    (fun _ s => ToldAt nowhere front s.events.toList)
    fun e s => ToldAt nowhere front s.events.toList ∧ e.path = []

namespace Hushed

theorem pure (v : α) : Hushed (Pure.pure v : Assemble α) := fun _ => .pure fun _ h => h

theorem throw {e : DecodeError} (h : e.path = []) : Hushed (throw e : Assemble α) :=
  fun _ => .throw fun _ hs => ⟨hs, h⟩

theorem bind {x : Assemble α} {f : α → Assemble β} (hx : Hushed x) (hf : ∀ v, Hushed (f v)) :
    Hushed (x >>= f) := fun front => (hx front).bind fun v => hf v front

theorem map {x : Assemble α} (g : α → β) (hx : Hushed x) : Hushed (g <$> x) :=
  fun front => .map (hx front)

theorem ite {p : Prop} [Decidable p] {x y : Assemble α} (hx : Hushed x) (hy : Hushed y) :
    Hushed (if p then x else y) := fun front => .ite (fun _ => hx front) fun _ => hy front

end Hushed

/-- A read of the container is `Hushed`: it tells nothing, and what opening the streams fails for
has no path. -/
theorem hushed_read {read : Read α} (h : read.Faults DecodeError.OfLayout) :
    Hushed (Assemble.read read) := by
  intro front s hs
  unfold Assemble.read
  split
  case h_1 => exact hs
  case h_2 e r hrun => exact ⟨hs, ((h _).error rfl hrun).path_eq_nil⟩

/-- `nextStream` tells the opening of a stream, which is no field. -/
theorem hushed_nextStream : Hushed nextStream := by
  refine (hushed_read Read.faults_substream).bind fun r front s hs => ?_
  change ToldAt nowhere front (s.events.push _).toList
  rw [Array.toList_push]
  exact .quiet hs rfl

theorem hushed_nextStreamIf (present : Bool) : Hushed (nextStreamIf present) := by
  cases present with
  | false => exact .pure none
  | true => exact .map _ hushed_nextStream

/-- `tagTable` is read in one go; a tag without a name is put down to no field. -/
theorem hushed_tagTable : Hushed tagTable := by
  refine hushed_nextStream.bind fun r => ?_
  split
  case h_1 => exact .pure _
  case h_2 hrun => exact .throw ((faults_tagNames _).error rfl hrun).path_eq_nil

/-- `valueStream` looks up the tag, then the stream is opened. -/
theorem hushed_valueStream (tags : Array String) : Hushed (valueStream tags) := by
  refine (hushed_read Read.faults_index.ofLayout).bind fun index => ?_
  unfold tagAt
  cases index.bind (tags[·]?) with
  | none => exact .throw rfl
  | some tag => exact hushed_nextStream.bind fun r => .pure _

theorem hushed_sharedStreams (c : Configuration) (tags : List String) :
    Hushed (sharedStreams c tags) := by
  have hside : Hushed (sideStreams c) := (hushed_nextStreamIf _).bind fun _ =>
    (hushed_nextStreamIf _).bind fun _ => (hushed_nextStreamIf _).bind fun _ => .pure _
  have hvalues : Hushed (valueStreams c tags.toArray) :=
    .ite (.map _ fun front => .collectFrom (fun _ => hushed_valueStream _ front) _ _) (.pure _)
  exact hside.bind fun _ => hvalues.bind fun _ => .pure _

/-- All that is in front of the sections is `Hushed`. -/
theorem hushed_opening (c : Configuration) (limits : Limits) : Hushed (opening c limits) :=
  (hushed_read Read.faults_header).bind fun _ => hushed_tagTable.bind fun _ =>
    (hushed_sharedStreams c _).bind fun _ => .ite (.throw rfl) (.pure _)

/-- `finish` tells nothing, and a stream that is left over is put down to no field. -/
theorem hushed_finish (limits : Limits) (m : Module) : Hushed (finish limits m) := by
  unfold finish checkLeftovers
  split
  case isTrue =>
    split
    case h_1 => exact .throw rfl
    case h_2 => exact .pure m
  case isFalse => exact .pure m

/-! ### The sections -/

section

variable (bytes : Bytes) (c : Configuration) (schema : Schema) (limits : Limits)

/-- The event of a field that is due in one of the sections, entered as `Enters` says. -/
def SectionTold (events : List Event) (event : Event) : Prop :=
  ∃ o stage own, FieldTold (o.context c schema limits)
    (Enters bytes c schema limits o stage own) events event

/-- The error is put down to no field, or it is one that ends a section (`Breaks`) as it was
entered. -/
def SectionBreaks (e : DecodeError) (events : List Event) : Prop :=
  e.path = [] ∨ ∃ o stage own, Breaks (o.context c schema limits)
    (Enters bytes c schema limits o stage own) e.path e.cause events

end

/-- What a step of a section does from `s`: it tells of fields that are due in a section, and fails
with errors that end one. -/
abbrev InSection (bytes : Bytes) (c : Configuration) (schema : Schema) (limits : Limits) {n : Nat}
    (s : State n) (r : EStateM.Result DecodeError (State n) α) : Prop :=
  Unfolds (SectionTold bytes c schema limits) (SectionBreaks bytes c schema limits) s r

section

variable {bytes : Bytes} {c : Configuration} {schema : Schema} {limits : Limits} {o : Opening}
  {own : Reader} {s t : Assembly}

/-- What is `Tracked` from where a section is entered is in that section. -/
theorem InSection.of_tracked {stage : Stage} {s : State o.values.size}
    {r : EStateM.Result DecodeError (State o.values.size) α}
    (h : Tracked (o.context c schema limits) (Enters bytes c schema limits o stage own) [] s r) :
    InSection bytes c schema limits s r :=
  h.mono (fun _ _ htold => ⟨o, stage, own, htold⟩) fun _ _ hbreaks => .inr ⟨o, stage, own, hbreaks⟩

/-- A `Quiet` step tells of no field, so it may stand in any section. -/
theorem InSection.of_quiet {n : Nat} {x : Step n α} (h : Quiet x) (s : State n) :
    InSection bytes c schema limits s (x s) :=
  Unfolds.of_quiet h fun _ _ hpath _ => .inl hpath

/-- `slotObject` stays `InSection`. Behind its type tag and its shape the section is entered, so the
fields are tracked from there. -/
theorem inSection_slotObject (hopening : opening c limits (.start c bytes) = .ok o s)
    (hown : nextStream s = .ok own t) {start u : State o.values.size} {position : Nat}
    {objects : List ObjectValue}
    (hcount : Step.fromSource .own Read.uint32 ⟨own, readersOf o.values, o.side, t.events⟩ =
      .ok o.header.objectCount start)
    (hlt : position < o.header.objectCount)
    (hobjects : collect position (slotObject (o.context c schema limits)) start = .ok objects u) :
    InSection bytes c schema limits u (slotObject (o.context c schema limits) position u) := by
  refine Unfolds.bind ?_ fun object v _ _ =>
    InSection.of_quiet ((Quiet.tell rfl).bind fun _ => .pure object) v
  refine Unfolds.bind (InSection.of_quiet (quiet_typeTag _ _) u) fun tag v htag _ => ?_
  refine Unfolds.bind (InSection.of_quiet (quiet_lookUpShape _ tag) v) fun shape w hfound _ => ?_
  obtain ⟨hshape, rfl⟩ := lookUpShape_eq_ok_iff.mp hfound
  change InSection bytes c schema limits v ((descend (o.context c schema limits)
    (innerAt (o.context c schema limits) limits.maxDepth) >>= fun inner =>
      fields (o.context c schema limits) inner .own false shape) v)
  cases hlevels : limits.maxDepth with
  | zero => exact InSection.of_quiet (.throw rfl) v
  | succ levels =>
      change InSection bytes c schema limits v (fields (o.context c schema limits)
        (value (o.context c schema limits) levels) .own false shape v)
      rw [fields_eq]
      have henters : Enters bytes c schema limits o .objects own
          (.fields levels ⟨shape, none, .own, v.events.toList⟩ shape.fields) v :=
        .slot hopening hown hcount hlt hobjects htag hshape hlevels
      exact .map (InSection.of_tracked (Reaches.enter henters).tracked_fieldsLeft)

/-- So many calls of `slotObject` stay `InSection`, each entered behind those before it. -/
theorem inSection_objects (hopening : opening c limits (.start c bytes) = .ok o s)
    (hown : nextStream s = .ok own t) {start : State o.values.size} {count : Nat}
    (hcount : Step.fromSource .own Read.uint32 ⟨own, readersOf o.values, o.side, t.events⟩ =
      .ok o.header.objectCount start)
    (hle : count ≤ o.header.objectCount) :
    InSection bytes c schema limits start
      (collect count (slotObject (o.context c schema limits)) start) :=
  .collect fun _ hlt _ _ hobjects _ =>
    inSection_slotObject hopening hown hcount (Nat.lt_of_lt_of_le hlt hle) hobjects

/-- `objectTable` stays `InSection`: its count, then as many objects as the header says, or an error
of the count. -/
theorem inSection_objectTable (hopening : opening c limits (.start c bytes) = .ok o s)
    (hown : nextStream s = .ok own t) :
    InSection bytes c schema limits ⟨own, readersOf o.values, o.side, t.events⟩
      (objectTable (o.context c schema limits) ⟨own, readersOf o.values, o.side, t.events⟩) := by
  refine Unfolds.bind (InSection.of_quiet (.fromSource (Read.faults_unsigned 4) _) _)
    fun count start hcount _ => ?_
  split
  case isTrue h =>
    obtain rfl : count = o.header.objectCount := h
    exact inSection_objects hopening hown hcount (Nat.le_refl _)
  case isFalse => exact InSection.of_quiet (.throw rfl) start

/-- `root` stays `InSection`: it is entered at once, and decoded as a value; that it is not null is
checked behind it. -/
theorem inSection_root {u v : Assembly} {table : Reader}
    {objects : List ObjectValue × State o.values.size}
    (hopening : opening c limits (.start c bytes) = .ok o s)
    (htable : nextStream s = .ok table t)
    (hobjects : readSection (objectTable (o.context c schema limits)) table (readersOf o.values)
      o.side t = .ok objects u)
    (hown : nextStream u = .ok own v) :
    InSection bytes c schema limits ⟨own, objects.2.values, objects.2.side, v.events⟩
      (root (o.context c schema limits) ⟨own, objects.2.values, objects.2.side, v.events⟩) := by
  have henters : Enters bytes c schema limits o .root own (.value limits.maxDepth .own Tag.any)
      ⟨own, objects.2.values, objects.2.side, v.events⟩ := .root hopening htable hobjects hown
  refine Unfolds.bind (InSection.of_tracked (Reaches.enter henters).tracked_value)
    fun value w _ _ => ?_
  exact InSection.of_quiet (quiet_checkRoot value) w

/-- The names of the sources of a section: that of its own stream, and those that the value streams
were opened under. -/
def Opening.nameOf (o : Opening) (own : Reader) : Source o.values.size → String
  | .own => own.description
  | .values i => (o.registered i).2.description

/-- Wherever a section is entered (`Enters`), its sources have the names (`nameOf`) that they were
opened under. -/
theorem Enters.description_eq {stage : Stage} {standing : Standing o.values.size}
    {s : State o.values.size} (h : Enters bytes c schema limits o stage own standing s)
    (source : Source o.values.size) : (s.reader source).description = o.nameOf own source := by
  have hopened : ∀ (own : Reader) (t : Assembly), ((State.reader ⟨own, readersOf o.values, o.side,
      t.events⟩ source).description = o.nameOf own source) := by
    intro own t
    cases source <;> simp [State.reader, Opening.nameOf, Opening.registered, readersOf]
  cases h with
  | @slot _ t _ _ _ _ _ _ _ _ _ hopening hown hcount hlt hobjects htag _ _ =>
      have hbefore := (inSection_objects hopening hown hcount (Nat.le_of_lt hlt)).onward hobjects
      have hmore := (((Quiet.fromSource (Read.faults_unsigned 4) .own).onward hcount).trans
        hbefore).trans ((quiet_typeTag (o.context c schema limits) .own).onward htag)
      rw [hmore.description_eq, hopened]
  | @root _ table t objects u _ v hopening htable hobjects hown =>
      obtain ⟨after, hrun, hafter⟩ := exists_of_readSection hobjects
      have hmore := (inSection_objectTable hopening htable).onward hrun
      cases source with
      | own => rfl
      | values i =>
          rw [hafter]
          exact (hmore.description_eq (.values i)).trans (hopened table t)

/-! ### The whole container -/

/-- Where steps may be told of by `SectionTold`, a `Hushed` step fits in. -/
theorem Hushed.meets {At : List Event → Event → Prop} {x : Assemble α} (h : Hushed x)
    (hs : ToldAt At [] s.events.toList) : Meets (fun _ t => ToldAt At [] t.events.toList)
      (fun e t => ToldAt At [] t.events.toList ∧ SectionBreaks bytes c schema limits e
        t.events.toList) (x s) := by
  have hmore : ∀ t : Assembly, ToldAt nowhere s.events.toList t.events.toList →
      ToldAt At [] t.events.toList := fun _ htold => hs.trans (htold.mono fun _ _ => False.elim)
  exact (h s.events.toList s .refl).mono (fun _ t htold => hmore t htold)
    fun _ t hfail => ⟨hmore t hfail.1, .inl hfail.2⟩

/-- `readSection` hands on what was told in the section, and what it broke off with. -/
theorem InSection.meets {n : Nat} {step : Step n α} {values : Vector Reader n} {side : SideStreams}
    (h : InSection bytes c schema limits ⟨own, values, side, s.events⟩
      (step ⟨own, values, side, s.events⟩))
    (hs : ToldAt (SectionTold bytes c schema limits) [] s.events.toList) :
    Meets (fun _ t => ToldAt (SectionTold bytes c schema limits) [] t.events.toList)
      (fun e t => ToldAt (SectionTold bytes c schema limits) [] t.events.toList ∧
        SectionBreaks bytes c schema limits e t.events.toList)
      (readSection step own values side s) := by
  cases hrun : step ⟨own, values, side, s.events⟩ with
  | ok v after =>
      rw [hrun] at h
      rw [readSection_of_ok hrun]
      exact hs.trans h.told
  | error e after =>
      rw [hrun] at h
      rw [readSection_of_error hrun]
      exact ⟨hs.trans h.1, h.2⟩

/-- From the start, `moduleOf` tells of fields that are due in a section, and of no others. -/
theorem meets_moduleOf (bytes : Bytes) (c : Configuration) (schema : Schema) (limits : Limits) :
    Meets (fun _ t => ToldAt (SectionTold bytes c schema limits) [] t.events.toList)
      (fun e t => ToldAt (SectionTold bytes c schema limits) [] t.events.toList ∧
        SectionBreaks bytes c schema limits e t.events.toList)
      (moduleOf c schema limits (.start c bytes)) := by
  rw [moduleOf_eq_opening]
  refine ((hushed_opening c limits).meets .refl).bind fun o s hopening hs => ?_
  refine (hushed_nextStream.meets hs).bind fun table t htable ht => ?_
  refine ((inSection_objectTable hopening htable).meets ht).bind fun objects u hobjects hu => ?_
  refine (hushed_nextStream.meets hu).bind fun own v hown hv => ?_
  refine ((inSection_root hopening htable hobjects hown).meets hv).bind fun root w _ hw => ?_
  exact (hushed_finish limits _).meets hw

/-- If the object table fails for one of its objects, then so does `decode`. -/
theorem decode_of_slot_error (hopening : opening c limits (.start c bytes) = .ok o s)
    (hown : nextStream s = .ok own t) {start u w : State o.values.size} {position : Nat}
    {objects : List ObjectValue} {e : DecodeError}
    (hcount : Step.fromSource .own Read.uint32 ⟨own, readersOf o.values, o.side, t.events⟩ =
      .ok o.header.objectCount start)
    (hlt : position < o.header.objectCount)
    (hobjects : collect position (slotObject (o.context c schema limits)) start = .ok objects u)
    (hobject : slotObject (o.context c schema limits) position u = .error e w) :
    Module.decode bytes c schema limits = ⟨.error e, w.events.toList⟩ := by
  have htable : objectTable (o.context c schema limits)
      ⟨own, readersOf o.values, o.side, t.events⟩ = .error e w := by
    have hsize : o.header.objectCount = (o.context c schema limits).objectCount := rfl
    rw [objectTable, bind_of_ok hcount, if_pos hsize]
    exact collect_of_error hobjects hobject hlt
  have hmodule : moduleOf c schema limits (.start c bytes) =
      .error e { t with events := w.events } := by
    rw [moduleOf_eq_opening, bind_of_ok hopening, sections, bind_of_ok hown]
    exact bind_of_error (readSection_of_error htable)
  exact Module.decode_of_error hmodule

/-- If what stands at the entry of a section fails, then so does `Module.decode`, with that very
error and the events told by then. -/
theorem Enters.decode_eq {stage : Stage} {standing : Standing o.values.size}
    {s t : State o.values.size} {e : DecodeError}
    (h : Enters bytes c schema limits o stage own standing s)
    (hfails : standing.Fails (o.context c schema limits) s e t) :
    Module.decode bytes c schema limits = ⟨.error e, t.events.toList⟩ := by
  cases h with
  | slot hopening hown hcount hlt hobjects htag hshape hlevels =>
      have hdepth : (o.context c schema limits).limits.maxDepth = _ := hlevels
      refine decode_of_slot_error hopening hown hcount hlt hobjects (bind_of_error ?_)
      rw [hdepth, tableObject_of_ok htag hshape]
      exact map_of_error hfails
  | @root _ _ _ objects _ _ v hopening htable hobjects hown =>
      have hroot : Decode.root (o.context c schema limits)
          ⟨own, objects.2.values, objects.2.side, v.events⟩ = .error e t := bind_of_error hfails
      have hmodule : moduleOf c schema limits (.start c bytes) =
          .error e { v with events := t.events } := by
        rw [moduleOf_eq_opening, bind_of_ok hopening, sections, bind_of_ok htable]
        refine (bind_of_ok hobjects).trans ((bind_of_ok hown).trans ?_)
        exact bind_of_error (readSection_of_error hroot)
      exact Module.decode_of_error hmodule

/-- If a decoder fails where it stands in a section, then so does `Module.decode`, with the fields
around it: the error is wrapped by each field of the path (`DecodeError.within`). -/
theorem Reaches.decode_eq {stage : Stage} {path : List (String × String)}
    {standing : Standing o.values.size} {s t : State o.values.size} {e : DecodeError}
    (h : Reaches (o.context c schema limits) (Enters bytes c schema limits o stage own) path
      standing s)
    (hfails : standing.Fails (o.context c schema limits) s e t) :
    Module.decode bytes c schema limits = ⟨.error (e.within path), t.events.toList⟩ := by
  obtain ⟨first, start, henters, hfirst⟩ := h.fails hfails
  exact henters.decode_eq hfirst

end

end BinaryAst.Decode

namespace BinaryAst

open Decode Assemble

namespace Module

variable (bytes : Bytes) (c : Configuration) (schema : Schema) (limits : Limits)

/-- However `decode` ends, each field that is told was due in a section (`SectionTold`); and if it
fails, the error is put down to no field, or it is one that ends a section (`SectionBreaks`). -/
theorem decode_told :
    ToldAt (SectionTold bytes c schema limits) [] (decode bytes c schema limits).events ∧
      ∀ e, (decode bytes c schema limits).result = .error e →
        SectionBreaks bytes c schema limits e (decode bytes c schema limits).events := by
  have hmeets := meets_moduleOf bytes c schema limits
  rw [Assembly.start] at hmeets
  unfold decode
  dsimp only
  cases hrun : moduleOf c schema limits ⟨.ofBytes c.toWireFormat "module" bytes, #[]⟩ with
  | ok m t =>
      rw [hrun] at hmeets
      exact ⟨hmeets, fun e herror => by cases herror⟩
  | error e t =>
      rw [hrun] at hmeets
      refine ⟨hmeets.1, fun other hother => ?_⟩
      obtain rfl := Except.error.inj hother
      exact hmeets.2

end Module

end BinaryAst
