import BinaryAst.Proofs.Container.Retention
/-!
# BinaryAst.Proofs.Container.Routing

Which stream each field is read from.

Where values are kept by tag, a field leaves the stream of its object for the one that was
registered last for its tag, unless the object is inline and keeps its fields together. Every
field that is told in a run, also in one that fails, was `Due` in an object whose own stream is
known, and is read by that rule (`Module.fields_are_routed`). Where the rule leads to no stream,
nothing more is told and decoding fails.
-/

namespace BinaryAst

/-- The tags that `Tag.isPrimitive` accepts, one by one. -/
theorem Tag.isPrimitive_iff {tag : String} : Tag.isPrimitive tag = true ↔
    tag ∈ ["symbol", "string", "boolean", "integer", "double"] := by
  unfold Tag.isPrimitive Tag.kind
  split <;> simp_all [Tag.Kind.isPrimitive]

namespace Decode

open Assemble

/-! ### Value streams, by tag -/

/-- In a table whose positions decrease, `lookup` gives the entry of the greatest position: it takes
the first, and what was registered later stands in front. -/
theorem lookup_map_eq_some_iff {n : Nat} {name : Fin n → String} {tag : String} {i : Fin n}
    {positions : List (Fin n)} (h : positions.Pairwise (· > ·)) :
    (positions.map fun i => (name i, i)).lookup tag = some i ↔
      i ∈ positions ∧ name i = tag ∧ ∀ j ∈ positions, i < j → name j ≠ tag := by
  induction positions with
  | nil => simp
  | cons first rest ih =>
      obtain ⟨hfirst, hrest⟩ := List.pairwise_cons.mp h
      rw [List.map_cons, List.lookup_cons]
      -- The first position is the greatest, so nothing behind it can be the answer if it has the
      -- tag.
      by_cases hname : name first = tag
      · rw [beq_iff_eq.mpr hname.symm]
        constructor
        · intro h
          obtain rfl := Option.some.inj h
          refine ⟨List.mem_cons_self, hname, fun j hj hlt => ?_⟩
          obtain rfl | hj := List.mem_cons.mp hj
          · exact absurd hlt (lt_irrefl _)
          · exact absurd (hfirst j hj) (lt_asymm hlt)
        · rintro ⟨hi, -, hlast⟩
          obtain rfl | hi := List.mem_cons.mp hi
          · rfl
          · exact absurd hname (hlast first List.mem_cons_self (hfirst i hi))
      · rw [beq_eq_false_iff_ne.mpr (Ne.symm hname)]
        refine (ih hrest).trans ?_
        simp only [List.mem_cons, forall_eq_or_imp]
        constructor
        · rintro ⟨hi, htag, hlast⟩
          exact ⟨.inr hi, htag, fun _ => hname, hlast⟩
        · rintro ⟨rfl | hi, htag, -, hlast⟩
          · exact absurd htag hname
          · exact ⟨hi, htag, hlast⟩

/-- The value stream was registered for the tag, and no later one was. -/
def Opening.LastFor (o : Opening) (tag : String) (i : Fin o.values.size) : Prop :=
  (o.registered i).1 = tag ∧ ∀ j, i < j → (o.registered j).1 ≠ tag

/-- No value stream was registered for the tag. -/
def Opening.Lacks (o : Opening) (tag : String) : Prop :=
  ∀ i, (o.registered i).1 ≠ tag

instance (o : Opening) (tag : String) : Decidable (o.Lacks tag) :=
  inferInstanceAs (Decidable (∀ i, (o.registered i).1 ≠ tag))

section

variable (o : Opening) (c : Configuration) (schema : Schema) (limits : Limits)

/-- The routes of the context lead to the value stream that is `LastFor` the tag. -/
theorem Opening.lookup_eq_some_iff {tag : String} {i : Fin o.values.size} :
    (o.context c schema limits).routes.lookup tag = some i ↔ o.LastFor tag i := by
  have hsorted : (List.finRange o.values.size).reverse.Pairwise (· > ·) :=
    List.pairwise_reverse.mpr (List.sortedLT_finRange _).pairwise
  refine (lookup_map_eq_some_iff hsorted).trans ?_
  simp [Opening.LastFor, Opening.registered]

/-- The routes of the context lead nowhere exactly where the container `Lacks` a stream for the tag.
-/
theorem Opening.lookup_eq_none_iff {tag : String} :
    (o.context c schema limits).routes.lookup tag = none ↔ o.Lacks tag := by
  change (routesOf o.values).lookup tag = none ↔ _
  rw [List.lookup_eq_none_iff]
  simp only [routesOf, List.map_reverse, List.mem_reverse, List.forall_mem_map, List.mem_finRange,
    forall_const, bne_iff_ne]
  exact forall_congr' fun i => ne_comm

end

/-! ### Fields that are due -/

/-- An object without a reference is one of the table, so the run is in the stage `objects`. -/
theorem Reaches.stage_eq {bytes : Bytes} {c : Configuration} {schema : Schema} {limits : Limits}
    {o : Opening} {stage : Stage} {own : Reader} {path : List (String × String)}
    {standing : Standing o.values.size} {s : State o.values.size}
    (h : Reaches (o.context c schema limits) (Enters bytes c schema limits o stage own) path
      standing s) :
    ∀ host, standing.host? = some host → host.reference = none → stage = .objects := by
  induction h with
  | enter henters =>
      cases henters with
      | slot => exact fun _ _ _ => rfl
      | root => nofun
  | inline =>
      intro host hhost hreference
      cases hhost
      cases hreference
  | nextField _ _ ih => exact ih
  | declared | any | item | field => nofun

/-- A field that a run has come to decode, as the next one of an object: the run `Reaches` the
standing in front of it. -/
structure Due (bytes : Bytes) (c : Configuration) (schema : Schema) (limits : Limits) where
  opening : Opening
  stage : Stage
  own : Reader
  path : List (String × String)
  levels : Nat
  host : Host opening.values.size
  field : FieldDecl
  left : List FieldDecl
  state : State opening.values.size
  reached : Reaches (opening.context c schema limits)
    (Enters bytes c schema limits opening stage own) path
    (.fields levels host (field :: left)) state

namespace Due

variable {bytes : Bytes} {c : Configuration} {schema : Schema} {limits : Limits}
  (due : Due bytes c schema limits)

/-- What stays fixed in the run. -/
def context : Context due.opening.values.size := due.opening.context c schema limits

/-- The tag that the field is encoded with. -/
def tag : String := schema.fieldTag due.field

/-- The name of a source. -/
def nameOf : Source due.opening.values.size → String := due.opening.nameOf due.own

/-- The source that an object decodes from: that of its section if it is in the table, the one of
its shape if inline objects are kept apart, and else the one that the reference was read from. -/
inductive Hosted : Source due.opening.values.size → Prop
  | slot : due.stage = .objects → due.host.reference = none → Hosted .own
  | partition {source i} : due.host.reference = some source → c.valueStreamPerType = true →
      c.partitionedInlining = true → due.opening.LastFor due.host.shape.name i →
        Hosted (.values i)
  | inPlace {source} : due.host.reference = some source →
      ¬(c.valueStreamPerType = true ∧ c.partitionedInlining = true) → Hosted source

/-- An inline object keeps the field to its own source: all but primitives, if these are free to
leave. -/
def Kept : Prop :=
  due.host.reference.isSome = true ∧ c.partitionedInlining = true ∧
    ¬(c.noOverridingPrimitiveStream = true ∧
      due.tag ∈ ["symbol", "string", "boolean", "integer", "double"])

/-- The source that the field is to be read from. -/
inductive Routed : Source due.opening.values.size → Prop
  | shared : c.valueStreamPerType = false → Routed due.host.active
  | kept : c.valueStreamPerType = true → due.Kept → Routed due.host.active
  | byTag {i} : c.valueStreamPerType = true → ¬due.Kept → due.opening.LastFor due.tag i →
      Routed (.values i)

/-- The field is due behind these events, and this is the next one. -/
structure Tells (front : List Event) (event : Event) : Prop where
  front_eq : due.state.events.toList = front
  /-- The object has a registered shape, and the field is one of it. -/
  declared : schema.shape? due.host.shape.name = some due.host.shape ∧
    due.field ∈ due.host.shape.fields
  hosted : due.Hosted due.host.active
  /-- If the object is inline, that was told right before its first field. -/
  announced : due.host.reference.isSome = true → ∃ earlier later,
    front = earlier ++ .inline due.host.shape.name (due.nameOf due.host.active) :: later ∧
      (due.field :: due.left = due.host.shape.fields → later = [])
  /-- The source is named, and the value is read from it. -/
  routed : ∃ source, due.Routed source ∧
    event = .field due.host.shape.name due.field.name (due.nameOf source)
      (decide (source ≠ due.host.active)) ∧
    fieldValue due.context (value due.context due.levels) due.host.active
      (due.host.pinned due.context) due.host.shape due.field due.state =
        value due.context due.levels source due.tag (due.state.tell event)

/-- The condition of `fieldSource` under which a field stays with its object is `Kept`, if values
are kept by tag. -/
theorem pinned_iff : (due.host.pinned due.context && !(c.noOverridingPrimitiveStream &&
    Tag.isPrimitive due.tag)) = true ↔ c.valueStreamPerType = true ∧ due.Kept := by
  have hpinned : due.host.pinned due.context =
      (due.host.reference.isSome && (c.valueStreamPerType && c.partitionedInlining)) := rfl
  rw [hpinned, Kept, ← Tag.isPrimitive_iff]
  simp only [Bool.and_eq_true, Bool.not_eq_true', ← Bool.not_eq_true]
  tauto

section

variable {due : Due bytes c schema limits} {source : Source due.opening.values.size}
  {s : State due.opening.values.size}

/-- A field that is `Kept` is read from the source of its object. -/
theorem fieldSource_of_kept (hon : c.valueStreamPerType = true) (hkept : due.Kept) :
    fieldSource due.context due.host.active (due.host.pinned due.context) due.tag s =
      .ok due.host.active s := by
  rw [fieldSource]
  exact congrFun (if_pos (due.pinned_iff.mpr ⟨hon, hkept⟩)) s

/-- Where a field is not `Kept`, `fieldSource` is the value stream of its tag (`valueSource`), or an
error if there is none. -/
theorem fieldSource_of_byTag (hon : c.valueStreamPerType = true) (hkept : ¬due.Kept) :
    fieldSource due.context due.host.active (due.host.pinned due.context) due.tag s =
      valueSource due.context due.tag s := by
  have hpinned := mt due.pinned_iff.mp fun h => hkept h.2
  rw [fieldSource]
  exact congrFun ((if_neg hpinned).trans (if_pos hon)) s

/-- With `valueStreamPerType` off, `fieldSource` gives every field the source of its object. -/
theorem fieldSource_of_shared (hoff : c.valueStreamPerType = false) :
    fieldSource due.context due.host.active (due.host.pinned due.context) due.tag s =
      .ok due.host.active s := by
  have hvalues := ne_true_of_eq_false hoff
  have hpinned := mt due.pinned_iff.mp fun h => hvalues h.1
  rw [fieldSource]
  exact congrFun ((if_neg hpinned).trans (if_neg hvalues)) s

/-- `fieldSource` finds exactly the source that the field is to be `Routed` to. -/
theorem fieldSource_eq_ok_iff : fieldSource due.context due.host.active
    (due.host.pinned due.context) due.tag s = .ok source s ↔ due.Routed source := by
  constructor
  · intro h
    cases hon : c.valueStreamPerType with
    | false =>
        rw [fieldSource_of_shared hon] at h
        cases h
        exact .shared hon
    | true =>
        by_cases hkept : due.Kept
        · rw [fieldSource_of_kept hon hkept] at h
          cases h
          exact .kept hon hkept
        · rw [fieldSource_of_byTag hon hkept, valueSource_eq] at h
          split at h
          case h_1 i hi =>
            cases h
            exact .byTag hon hkept ((due.opening.lookup_eq_some_iff c schema limits).mp hi)
          case h_2 => cases h
  · intro h
    cases h with
    | shared hoff => exact fieldSource_of_shared hoff
    | kept hon hkept => exact fieldSource_of_kept hon hkept
    | @byTag i hon hkept hlast =>
        have hroute : due.context.routes.lookup due.tag = some i :=
          (due.opening.lookup_eq_some_iff c schema limits).mpr hlast
        rw [fieldSource_of_byTag hon hkept, valueSource_eq, hroute]

end

/-! ### Where the object stands -/

/-- Where `Enters` holds, a run may start: it is a place that `Opens` admits. -/
theorem opens : ∀ standing s,
    Enters bytes c schema limits due.opening due.stage due.own standing s →
      Opens due.context standing s := fun _ _ h => h.opens

/-- The object stands where its source has been named (`Host.Placed`). -/
theorem placed : due.host.Placed due.context due.nameOf :=
  due.reached.placed due.opens (fun _ _ h => h.description_eq) due.host rfl

/-- An object that no reference was read for is one of the table, and is read in the stage
`objects`. -/
theorem stage_eq (h : due.host.reference = none) : due.stage = .objects :=
  due.reached.stage_eq due.host rfl h

/-- The source of the object is one that `Hosted` says it is to be decoded from. -/
theorem hosted : due.Hosted due.host.active := by
  cases hreference : due.host.reference with
  | none =>
      rw [due.placed.table hreference]
      exact .slot (due.stage_eq hreference) hreference
  | some source =>
      have hactive := (due.placed.inline source hreference).1
      split at hactive
      case isTrue hon =>
        obtain ⟨i, hi, hactive⟩ := hactive
        rw [hactive]
        obtain ⟨hvalues, hinline⟩ := Bool.and_eq_true_iff.mp hon
        exact .partition hreference hvalues hinline
          ((due.opening.lookup_eq_some_iff c schema limits).mp hi)
      case isFalse hoff =>
        rw [hactive]
        exact .inPlace hreference fun h => hoff (Bool.and_eq_true_iff.mpr h)

/-- What had been told when the object was entered, its `inline` event at the end, is followed by
what was told since. -/
theorem announced (h : due.host.reference.isSome = true) : ∃ earlier later,
    due.state.events.toList =
        earlier ++ .inline due.host.shape.name (due.nameOf due.host.active) :: later ∧
      (due.field :: due.left = due.host.shape.fields → later = []) := by
  obtain ⟨source, hsource⟩ := Option.isSome_iff_exists.mp h
  obtain ⟨-, earlier, hbefore⟩ := due.placed.inline source hsource
  obtain ⟨later, hlater⟩ := (due.reached.history due.opens).before due.host rfl
  rw [hbefore, List.append_assoc] at hlater
  refine ⟨earlier, later, hlater.symm, fun hall => ?_⟩
  have hfirst : due.state.events.toList = due.host.before := (due.reached.inOrder due.opens).2 hall
  rw [hbefore, ← hlater] at hfirst
  simpa using hfirst

/-- `fieldEvent` names the source of the field as `nameOf` does, by the name that its stream was
opened under. -/
theorem fieldEvent_eq (source : Source due.opening.values.size) :
    due.host.fieldEvent due.field source due.state =
      .field due.host.shape.name due.field.name (due.nameOf source)
        (decide (source ≠ due.host.active)) := by
  have hname : (due.state.reader source).description = due.nameOf source :=
    due.reached.description_eq due.opens (fun _ _ h => h.description_eq) source
  rw [Host.fieldEvent, hname]
  exact congrArg _ (decide_not).symm

/-- If `fieldSource` finds a source, then what is told next is what `Tells` says. -/
theorem tells {source : Source due.opening.values.size}
    (h : fieldSource due.context due.host.active (due.host.pinned due.context) due.tag due.state =
      .ok source due.state) :
    due.Tells due.state.events.toList (due.host.fieldEvent due.field source due.state) where
  front_eq := rfl
  declared := by
    obtain ⟨-, hshape, hleft⟩ := due.reached.nested due.opens
    exact ⟨hshape, hleft List.mem_cons_self⟩
  hosted := due.hosted
  announced := due.announced
  routed := ⟨source, fieldSource_eq_ok_iff.mp h, due.fieldEvent_eq source, fieldValue_of_ok h⟩

/-- With a source that it is `Routed` to, the field is told next in the run of `Module.decode`. -/
theorem isPrefix_decode {source : Source due.opening.values.size} (h : due.Routed source) :
    due.state.events.toList ++ [.field due.host.shape.name due.field.name (due.nameOf source)
      (decide (source ≠ due.host.active))] <+: (Module.decode bytes c schema limits).events := by
  rw [← due.fieldEvent_eq source]
  exact due.reached.isPrefix_decode (Standing.told_field (fieldSource_eq_ok_iff.mpr h))

/-- A field whose tag `Lacks` a stream is not told, and decoding ends there: the error is
`missingValueStream`, put down to the field and to those around it. -/
theorem decode_of_lacks {due : Due bytes c schema limits} (hon : c.valueStreamPerType = true)
    (hkept : ¬due.Kept) (hlacks : due.opening.Lacks due.tag) :
    Module.decode bytes c schema limits =
      ⟨.error ((DecodeError.field due.host.shape.name due.field.name
        (.missingValueStream due.tag)).within due.path), due.state.events.toList⟩ := by
  have hsource : fieldSource due.context due.host.active (due.host.pinned due.context) due.tag
      due.state = .error (.missingValueStream due.tag) due.state := by
    have hnone : due.context.routes.lookup due.tag = none :=
      (due.opening.lookup_eq_none_iff c schema limits).mpr hlacks
    rw [fieldSource_of_byTag hon hkept, valueSource_eq, hnone]
  refine due.reached.decode_eq ?_
  rw [Standing.Fails, fieldsLeft_cons]
  exact bind_of_error (namedField_of_error (bind_of_error hsource))

end Due

/-! ### Inline objects -/

/-- An object that a run has come upon, in place of a reference to it. -/
structure Met (bytes : Bytes) (c : Configuration) (schema : Schema) (limits : Limits) where
  opening : Opening
  stage : Stage
  own : Reader
  path : List (String × String)
  levels : Nat
  source : Source opening.values.size
  tag : String
  viaAny : Bool
  start : State opening.values.size
  shape : Shape
  state : State opening.values.size
  reached : Reaches (opening.context c schema limits)
    (Enters bytes c schema limits opening stage own) path (.tagged levels source tag viaAny) start
  kind_eq : Tag.kind tag = .object
  known : tag = Tag.object ∨ schema.contains tag = true
  reference_eq : reference (opening.context c schema limits) source viaAny start =
    .ok (.inline shape.name) state
  registered : schema.shape? shape.name = some shape

/-- An inline object whose shape `Lacks` a stream is not told either where inline objects are kept
apart (`partitionedInlining`), and decoding ends with `missingValueStream`. -/
theorem Met.decode_of_lacks {bytes : Bytes} {c : Configuration} {schema : Schema} {limits : Limits}
    {met : Met bytes c schema limits} (hvalues : c.valueStreamPerType = true)
    (hinline : c.partitionedInlining = true) (hlacks : met.opening.Lacks met.shape.name) :
    Module.decode bytes c schema limits =
      ⟨.error ((DecodeError.missingValueStream met.shape.name).within met.path),
        met.state.events.toList⟩ := by
  have hon : (met.opening.context c schema limits).configuration.separatesInlineObjects = true :=
    Bool.and_eq_true_iff.mpr ⟨hvalues, hinline⟩
  have hsource : inlineSource (met.opening.context c schema limits) met.source met.shape.name
      met.state = .error (.missingValueStream met.shape.name) met.state := by
    rw [inlineSource, if_pos hon, valueSource_eq,
      (met.opening.lookup_eq_none_iff c schema limits).mpr hlacks]
  refine met.reached.decode_eq ?_
  rw [Standing.Fails, taggedValue_of_object met.kind_eq,
    objectValue_of_ok met.known met.reference_eq]
  refine map_of_error ?_
  rw [inlineObject_eq, bind_of_ok (lookUpShape_eq_ok_iff.mpr ⟨met.registered, rfl⟩)]
  exact bind_of_error hsource

end Decode

open Decode Assemble

namespace Module

/-- Each field that `decode` tells of, whether the run succeeds or fails, was a `Due` of some object
and is read from the source that it is to be read from (`Due.Tells`); and each `Due` with such a
source (`Due.Routed`) is told next. Where the source would be a stream that was never registered
(`Lacks`), nothing is told of the field, nor of anything after it, and decoding fails with
`missingValueStream`. The same holds of an inline object (`Met`) that has a stream of its own to be
read from. -/
theorem fields_are_routed (bytes : Bytes) (c : Configuration) (schema : Schema) (limits : Limits) :
    (∀ front back shape field stream redirected, (decode bytes c schema limits).events =
        front ++ .field shape field stream redirected :: back →
      ∃ due : Due bytes c schema limits, due.Tells front (.field shape field stream redirected)) ∧
    (∀ (due : Due bytes c schema limits) (source : Source due.opening.values.size),
      due.Routed source → due.state.events.toList ++
        [.field due.host.shape.name due.field.name (due.nameOf source)
          (decide (source ≠ due.host.active))] <+: (decode bytes c schema limits).events) ∧
    (∀ due : Due bytes c schema limits, c.valueStreamPerType = true → ¬due.Kept →
      due.opening.Lacks due.tag → decode bytes c schema limits =
        ⟨.error ((DecodeError.field due.host.shape.name due.field.name
          (.missingValueStream due.tag)).within due.path), due.state.events.toList⟩) ∧
    ∀ met : Met bytes c schema limits, c.valueStreamPerType = true →
      c.partitionedInlining = true → met.opening.Lacks met.shape.name →
        decode bytes c schema limits =
          ⟨.error ((DecodeError.missingValueStream met.shape.name).within met.path),
            met.state.events.toList⟩ := by
  refine ⟨fun front back shape field stream redirected hevents => ?_,
    fun due _ => due.isPrefix_decode, fun _ => Due.decode_of_lacks, fun _ => Met.decode_of_lacks⟩
  obtain ⟨o, stage, own, htold⟩ :=
    (decode_told bytes c schema limits).1.at_of_field hevents rfl
  cases htold with
  | intro hreached hsource =>
      exact ⟨⟨o, stage, own, _, _, _, _, _, _, hreached⟩, Due.tells _ hsource⟩

end Module

/-! ### A shelf without a stream for what is in it -/

/-- Values by tag, and inline objects kept apart. -/
def shelfConfiguration : Configuration where
  conditionalInlining := true
  packedInliningFlags := true
  valueStreamPerType := true
  partitionedInlining := true

/-- Shelves with one field, and books with none. -/
def shelfSchema (field : FieldDecl) : Schema where
  shapes := [⟨"Shelf", [field]⟩, ⟨"Book", []⟩]
  nodup := by simp
  shapeKey := "type"

/-- A shelf in the object table. Both value streams are registered for shelves, and in the second
there is a book in place of a reference. -/
def shelfContainer : Bytes :=
  Sections.toBytes
    { tags := ["Shelf", "Book"]
      objectCount := 1
      values := [(0, []), (0, WriteStep.bytesAll {} [.index (some 3)])]
      objects := WriteStep.bytesAll {} [.uint32 1, .index (some 0)]
      root := [] }

/-- What is read in front of the object table. -/
def shelfOpening : Opening where
  header := ⟨2, 1⟩
  tags := (["Shelf", "Book"], ⟨⟨28, 21, []⟩, {}, "tags"⟩)
  side := ⟨none, none, none⟩
  values := #[("Shelf", ⟨⟨77, 0, []⟩, {}, "values:Shelf"⟩),
    ("Shelf", ⟨⟨105, 0, [4, 0, 0, 0]⟩, {}, "values:Shelf"⟩)]

/-- The stream of the object table. -/
def shelfObjects : Reader := ⟨⟨128, 0, [1, 0, 0, 0, 1, 0, 0, 0]⟩, {}, "objects"⟩

/-- What is told up to the object table. -/
def shelfOpened : Array Event :=
  #[.stream "tags" 28 21, .stream "values:Shelf" 77 0, .stream "values:Shelf" 105 4,
    .stream "objects" 128 8]

/-- The object table is entered, and so much of it was read. -/
def shelfTable (own : Reader) : State shelfOpening.values.size where
  own
  values := readersOf shelfOpening.values
  side := shelfOpening.side
  events := shelfOpened

/-- The shelf is due, behind its type tag. -/
def shelfDue : State shelfOpening.values.size :=
  (shelfTable ⟨⟨128, 8, []⟩, {}, "objects"⟩).tell (.tag "objects" "Shelf")

/-- The place of the book is due. -/
def shelfTop : State shelfOpening.values.size :=
  shelfDue.tell (.field "Shelf" "top" "values:Shelf" true)

set_option maxRecDepth 20000 in
/-- The `opening` of the shelf's container: what stands in front of its sections. -/
theorem opening_shelfContainer :
    opening shelfConfiguration {} (.start shelfConfiguration shelfContainer) = .ok shelfOpening
      ⟨⟨⟨0, 113, shelfContainer.drop 113⟩, {}, "module"⟩, shelfOpened.pop⟩ := by
  cbv

set_option maxRecDepth 20000 in
theorem nextStream_shelfContainer :
    nextStream ⟨⟨⟨0, 113, shelfContainer.drop 113⟩, {}, "module"⟩, shelfOpened.pop⟩ =
      .ok shelfObjects ⟨⟨⟨0, 140, shelfContainer.drop 140⟩, {}, "module"⟩, shelfOpened⟩ := by
  cbv

theorem typeTag_shelf (schema : Schema) :
    typeTag (shelfOpening.context shelfConfiguration schema {}) .own
      (shelfTable ⟨⟨128, 4, [1, 0, 0, 0]⟩, {}, "objects"⟩) = .ok "Shelf" shelfDue := by
  cbv

/-- In the objects of `shelfContainer` the run comes to the first field of the shelf, whatever field
that is. -/
theorem enters_shelf (field : FieldDecl) :
    Enters shelfContainer shelfConfiguration (shelfSchema field) {} shelfOpening .objects
      shelfObjects (.fields 511 ⟨⟨"Shelf", [field]⟩, none, .own, shelfDue.events.toList⟩ [field])
        shelfDue :=
  .slot opening_shelfContainer nextStream_shelfContainer
    (show Step.fromSource .own Read.uint32 (shelfTable shelfObjects) = _ from rfl)
    Nat.zero_lt_one rfl (typeTag_shelf _) rfl rfl

/-- The label of the shelf, which is a string. -/
def labelDue : Due shelfContainer shelfConfiguration (shelfSchema ⟨"label", .tag "string"⟩) {} :=
  ⟨_, _, _, _, _, _, _, _, _, .enter (enters_shelf ⟨"label", .tag "string"⟩)⟩

/-- What is on top of the shelf, which is a book. -/
def topDue : Due shelfContainer shelfConfiguration (shelfSchema ⟨"top", .tag "Shelf"⟩) {} :=
  ⟨_, _, _, _, _, _, _, _, _, .enter (enters_shelf ⟨"top", .tag "Shelf"⟩)⟩

/-- Of the two streams for shelves, `LastFor` picks the later one. -/
theorem lastFor_shelf : shelfOpening.LastFor "Shelf" ⟨1, by decide⟩ := ⟨rfl, by decide⟩

/-- The run comes to the value of the field `top`, which is read from the later one of the two
streams. -/
theorem reaches_top : Reaches (shelfOpening.context shelfConfiguration
    (shelfSchema ⟨"top", .tag "Shelf"⟩) {}) (Enters shelfContainer shelfConfiguration
      (shelfSchema ⟨"top", .tag "Shelf"⟩) {} shelfOpening .objects shelfObjects) [("Shelf", "top")]
        (.value 511 (.values ⟨1, by decide⟩) "Shelf") shelfTop := by
  have henters := enters_shelf ⟨"top", .tag "Shelf"⟩
  have hname : (shelfDue.reader (.values ⟨1, by decide⟩)).description = "values:Shelf" :=
    henters.description_eq (.values ⟨1, by decide⟩)
  have hsource : fieldSource (shelfOpening.context shelfConfiguration
      (shelfSchema ⟨"top", .tag "Shelf"⟩) {}) .own false "Shelf" shelfDue =
        .ok (.values ⟨1, by decide⟩) shelfDue := rfl
  have hnext := Reaches.field (.enter henters) hsource
  rw [Host.fieldEvent, hname] at hnext
  exact hnext

/-- The book that is in the shelf. -/
def bookMet : Met shelfContainer shelfConfiguration (shelfSchema ⟨"top", .tag "Shelf"⟩) {} where
  opening := shelfOpening
  stage := .objects
  own := shelfObjects
  path := [("Shelf", "top")]
  levels := 511
  source := .values ⟨1, by decide⟩
  tag := "Shelf"
  viaAny := false
  start := shelfTop
  shape := ⟨"Book", []⟩
  state := shelfTop.setReader (.values ⟨1, by decide⟩) ⟨⟨105, 4, []⟩, {}, "values:Shelf"⟩
  reached := .declared reaches_top (by decide)
  kind_eq := by decide
  known := .inr rfl
  reference_eq := by cbv
  registered := rfl

/-- The label of the shelf is not told, for want of a stream of strings. Its other field is, and is
read from the later one of the two streams; but the book there has no stream. -/
theorem Module.fields_are_routed_of_shelf :
    decode shelfContainer shelfConfiguration (shelfSchema ⟨"label", .tag "string"⟩) {} =
      ⟨.error (.field "Shelf" "label" (.missingValueStream "string")), shelfDue.events.toList⟩ ∧
    decode shelfContainer shelfConfiguration (shelfSchema ⟨"top", .tag "Shelf"⟩) {} =
      ⟨.error (.field "Shelf" "top" (.missingValueStream "Book")), shelfTop.events.toList⟩ ∧
    shelfDue.events.toList ++ [.field "Shelf" "top" "values:Shelf" true] <+:
      (decode shelfContainer shelfConfiguration (shelfSchema ⟨"top", .tag "Shelf"⟩) {}).events ∧
    ∃ due : Due shelfContainer shelfConfiguration (shelfSchema ⟨"top", .tag "Shelf"⟩) {},
      due.Tells shelfDue.events.toList (.field "Shelf" "top" "values:Shelf" true) := by
  obtain ⟨-, -, hlabel, -⟩ := fields_are_routed shelfContainer shelfConfiguration
    (shelfSchema ⟨"label", .tag "string"⟩) {}
  obtain ⟨htold, htop, -, hbook⟩ := fields_are_routed shelfContainer shelfConfiguration
    (shelfSchema ⟨"top", .tag "Shelf"⟩) {}
  have hfailed := hbook bookMet rfl rfl (by decide)
  refine ⟨hlabel labelDue rfl (fun h => nomatch h.1) (by decide), hfailed,
    htop topDue _ (.byTag rfl (fun h => nomatch h.1) lastFor_shelf),
    htold shelfDue.events.toList [] _ _ _ _ ?_⟩
  rw [hfailed]
  rfl

end BinaryAst
