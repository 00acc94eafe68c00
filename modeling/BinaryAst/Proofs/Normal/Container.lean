import BinaryAst.Proofs.Container.Assembly
import BinaryAst.Proofs.Normal.Sections
/-!
# BinaryAst.Proofs.Normal.Container

Containers decode alike under configurations with one normal form (`decode_of_normalize_eq`).

Reading a container under the normal form mirrors reading it under the configuration itself,
with readers in normal form: the module is the same but for the configuration that it names, and
so are the errors and the events. So a configuration may be replaced by any other with the same
normal form.
-/

namespace BinaryAst.Decode

open Assemble

variable {α β : Type}

/-- The assembly with its reader in normal form. -/
def Assembly.normalize (s : Assembly) : Assembly := ⟨s.container.normalize, s.events⟩

/-- The second step does from `Assembly.normalize` what the first does from the assembly itself. It
gives the image under `g` of the first one's result. -/
abbrev Follows (g : α → β) (x : Assemble α) (y : Assemble β) : Prop :=
  Mirrors Assembly.normalize g x y

/-- A tag with the reader of its values in normal form. -/
def normalizeEntry (entry : String × Reader) : String × Reader := (entry.1, entry.2.normalize)

/-! ### Streams -/

/-- A read of the container that is `Read.Blind` follows. -/
theorem follows_read {g : α → β} {x : Read α} {y : Read β} (h : Read.Blind g x y) :
    Follows g (Assemble.read x) (Assemble.read y) := by
  intro s
  unfold Assemble.read
  rw [show s.normalize.container = s.container.normalize from rfl, h]
  cases x s.container <;> rfl

theorem follows_nextStream : Follows Reader.normalize nextStream nextStream :=
  (follows_read Read.blind_substream).bind fun _ _ => rfl

/-- `nextStreamIf` opens a stream on both sides or on neither. -/
theorem follows_nextStreamIf {present other : Bool} (h : other = present) :
    Follows (Option.map Reader.normalize) (nextStreamIf present) (nextStreamIf other) := by
  subst h
  exact .ite .rfl (fun _ => follows_nextStream.map fun _ => rfl) fun _ => .pure rfl

/-- The names of tags are `Blind`, since strings are. -/
theorem follows_tagTable : Follows (fun v => (v.1, v.2.normalize)) tagTable tagTable := by
  have hnames : Read.Blind id tagNames tagNames := by
    refine (Read.blind_unsigned 4).bind fun count => (Mirrors.collectFrom (g := id)
      (fun index => Read.blind_string.bind fun text => ?_) count 0).congr List.map_id
    cases text with
    | some name => exact .pure rfl
    | none => exact .throw _
  refine follows_nextStream.bind fun r => ?_
  rw [hnames r]
  cases tagNames r with
  | ok tags stream => exact .pure rfl
  | error e stream => exact .throw e

/-- The `sideStreams` that a configuration calls for are those that its normal form calls for. -/
theorem follows_sideStreams (c : Configuration) :
    Follows SideStreams.normalize (sideStreams c) (sideStreams c.normalize) :=
  (follows_nextStreamIf c.separatesInliningFlags_normalize).bind fun _ =>
    (follows_nextStreamIf rfl).bind fun _ =>
      (follows_nextStreamIf c.separatesPackedIndices_normalize).bind fun _ => .pure rfl

theorem follows_valueStream (tags : Array String) :
    Follows normalizeEntry (valueStream tags) (valueStream tags) := by
  refine (follows_read Read.blind_index).bind fun index => ?_
  dsimp only [id]
  cases tagAt tags index with
  | ok tag => exact follows_nextStream.bind fun _ => .pure rfl
  | error e => exact .throw e

/-- `valueStreams` opens as many on both sides, under the same tags. -/
theorem follows_valueStreams (c : Configuration) (tags : Array String) :
    Follows (Array.map normalizeEntry) (valueStreams c tags) (valueStreams c.normalize tags) :=
  .ite .rfl (fun _ => (Mirrors.collectFrom (fun _ => follows_valueStream tags) _ _).map
    fun _ => by simp) fun _ => .pure Array.map_empty

theorem follows_sharedStreams (c : Configuration) (tags : List String) :
    Follows (fun v => (v.1.normalize, v.2.map normalizeEntry)) (sharedStreams c tags)
      (sharedStreams c.normalize tags) :=
  (follows_sideStreams c).bind fun _ => (follows_valueStreams c _).bind fun _ => .pure rfl

/-! ### Sections -/

/-- A section follows if its step `Agrees`, and hands on the streams in normal form. -/
theorem follows_readSection {n : Nat} {x y : Step n α} (h : Agrees x y) (own : Reader)
    (values : Vector Reader n) (side : SideStreams) :
    Follows (fun v => (v.1, v.2.normalize)) (readSection x own values side)
      (readSection y own.normalize (values.map Reader.normalize) side.normalize) := by
  have hsection : Follows (fun v => (v.1, v.2.normalize)) (decodeSection x own values side)
      (decodeSection y own.normalize (values.map Reader.normalize) side.normalize) := by
    intro s
    have hrun : y ⟨own.normalize, values.map Reader.normalize, side.normalize, s.events⟩ =
      carry State.normalize id (x ⟨own, values, side, s.events⟩) := h ⟨own, values, side, s.events⟩
    unfold decodeSection
    rw [show s.normalize.events = s.events from rfl, hrun]
    cases x ⟨own, values, side, s.events⟩ <;> rfl
  exact hsection.map fun _ => rfl

/-- `finish` looks at what is left over in the streams, which has no format. -/
theorem follows_finish (limits : Limits) (m : Module) (c : Configuration) :
    Follows ({ · with configuration := c }) (finish limits m)
      (finish limits { m with configuration := c }) := by
  unfold finish checkLeftovers
  refine .ite .rfl (fun _ => ?_) fun _ => .pure rfl
  dsimp only
  cases m.streams.find? (0 < ·.leftover) with
  | some stream => exact .throw _
  | none => exact .pure rfl

/-! ### Containers -/

/-- The value stream of each tag of a list that is as long as there are value streams. -/
def routesOfTags {n : Nat} (tags : Vector String n) : List (String × Fin n) :=
  (List.finRange n).reverse.map fun i => (tags.get i, i)

/-- Both sections and the module of them, for any number of value streams. -/
def sectionsWith {n : Nat} (ctx : Context n) (header : Header) (tags : List String × Reader)
    (side : SideStreams) (values : Vector Reader n) : Assemble Module := do
  let objectsReader ← nextStream
  let objects ← readSection (objectTable ctx) objectsReader values side
  let rootReader ← nextStream
  let root ← readSection (root ctx) rootReader objects.2.values objects.2.side
  finish ctx.limits ⟨ctx.configuration, header, tags.1, objects.1, root.1,
    (allStreams tags.2 objects.2.own root.2).map StreamUse.ofReader⟩

/-- `sections` is `sectionsWith` once the value streams are cut into their tags and their readers.
Their number is a parameter there, so the readers can be replaced without a cast. -/
theorem sections_eq {n : Nat} (c : Configuration) (schema : Schema) (limits : Limits)
    (header : Header) (tags : List String × Reader) (side : SideStreams)
    {values : Array (String × Reader)} (keys : Vector String n) (readers : Vector Reader n)
    (hkeys : values.map (·.1) = keys.toArray) (hreaders : values.map (·.2) = readers.toArray) :
    sections c schema limits header tags side values =
      sectionsWith ⟨c, limits, schema, tags.1.toArray, routesOfTags keys, header.objectCount⟩
        header tags side readers := by
  obtain ⟨keys, hsize⟩ := keys
  obtain ⟨readers, hsize'⟩ := readers
  obtain rfl : values.map (·.1) = keys := hkeys
  obtain rfl : values.map (·.2) = readers := hreaders
  obtain rfl : values.size = n := by simpa using hsize
  have hroutes : routesOf values = routesOfTags ⟨values.map (·.1), hsize⟩ :=
    List.map_congr_left fun i _ => by simp
  unfold sections contextOf
  rw [hroutes]
  rfl

/-- `allStreams` are summed up alike, whatever form their readers are in. -/
theorem allStreams_normalize {n : Nat} (tags objects : Reader) (s : State n) :
    allStreams tags.normalize objects.normalize s.normalize =
      (allStreams tags objects s).map Reader.normalize := by
  simp [allStreams, State.normalize, SideStreams.normalize, Vector.toList_map, Option.toList_map]

/-- Both sections follow: the decoders agree (`agrees_objectTable`, `agrees_root`), and so does what
is made of them. -/
theorem follows_sectionsWith {n : Nat} (ctx : Context n) (header : Header)
    (tags : List String × Reader) (side : SideStreams) (values : Vector Reader n) :
    Follows ({ · with configuration := ctx.configuration.normalize })
      (sectionsWith ctx header tags side values)
      (sectionsWith ctx.normalize header (tags.1, tags.2.normalize) side.normalize
        (values.map Reader.normalize)) := by
  refine follows_nextStream.bind fun objectsReader =>
    (follows_readSection (agrees_objectTable ctx) objectsReader values side).bind fun objects =>
      follows_nextStream.bind fun rootReader =>
        (follows_readSection (agrees_root ctx) rootReader objects.2.values objects.2.side).bind
          fun root => ?_
  have hstreams : (allStreams tags.2.normalize objects.2.normalize.own root.2.normalize).map
      StreamUse.ofReader = (allStreams tags.2 objects.2.own root.2).map StreamUse.ofReader := by
    rw [show objects.2.normalize.own = objects.2.own.normalize from rfl, allStreams_normalize,
      List.map_map]
    rfl
  change Follows _ _ (finish ctx.limits ⟨_, header, tags.1, objects.1, root.1,
    (allStreams tags.2.normalize objects.2.normalize.own root.2.normalize).map StreamUse.ofReader⟩)
  rw [hstreams]
  exact follows_finish ctx.limits _ _

/-- `follows_sectionsWith`, for value streams with their tags. -/
theorem follows_sections (c : Configuration) (schema : Schema) (limits : Limits)
    (header : Header) (tags : List String × Reader) (side : SideStreams)
    (values : Array (String × Reader)) :
    Follows ({ · with configuration := c.normalize })
      (sections c schema limits header tags side values)
      (sections c.normalize schema limits header (tags.1, tags.2.normalize) side.normalize
        (values.map normalizeEntry)) := by
  let keys : Vector String values.size := ⟨values.map (·.1), Array.size_map⟩
  have hkeys : (values.map normalizeEntry).map (·.1) = keys.toArray := by
    simp [keys, normalizeEntry]
  have hreaders : (values.map normalizeEntry).map (·.2) =
      ((readersOf values).map Reader.normalize).toArray := by
    simp [readersOf, normalizeEntry]
  rw [sections_eq c schema limits header tags side keys (readersOf values) rfl rfl,
    sections_eq c.normalize schema limits header (tags.1, tags.2.normalize) side.normalize keys
      ((readersOf values).map Reader.normalize) hkeys hreaders]
  exact follows_sectionsWith ⟨c, limits, schema, tags.1.toArray, routesOfTags keys,
    header.objectCount⟩ header tags side (readersOf values)

/-- `moduleOf` gives the same module under the normal form but for the configuration. -/
theorem follows_moduleOf (c : Configuration) (schema : Schema) (limits : Limits) :
    Follows ({ · with configuration := c.normalize }) (moduleOf c schema limits)
      (moduleOf c.normalize schema limits) := by
  rw [moduleOf_eq, moduleOf_eq]
  refine (follows_read Read.blind_header).bind fun header => follows_tagTable.bind fun tags =>
    (follows_sharedStreams c tags.1).bind fun shared => .ite .rfl (fun _ => .throw _) fun _ => ?_
  exact follows_sections c schema limits header tags shared.1 shared.2

end BinaryAst.Decode

namespace BinaryAst

open Decode

/-- The decoding with another configuration named in its module. -/
def Decoding.naming (d : Decoding) (c : Configuration) : Decoding :=
  ⟨d.result.map ({ · with configuration := c }), d.events⟩

/-- Of two configurations in `naming`, one after the other, the last one stays. -/
theorem Decoding.naming_naming (d : Decoding) (c c' : Configuration) :
    (d.naming c).naming c' = d.naming c' := by
  obtain ⟨result, events⟩ := d
  cases result <;> rfl

namespace Module

variable (bytes : Bytes) (c : Configuration) (schema : Schema) (limits : Limits)

/-- Under the normal form, `decode` ends alike, with the normal form named in the module. -/
theorem decode_normalize : decode bytes c.normalize schema limits =
    (decode bytes c schema limits).naming c.normalize := by
  have h := follows_moduleOf c schema limits (.start c bytes)
  simp only [Assembly.start] at h
  unfold decode
  dsimp only
  rw [show (⟨.ofBytes c.normalize.toWireFormat "module" bytes, #[]⟩ : Assembly) =
    Assembly.normalize ⟨.ofBytes c.toWireFormat "module" bytes, #[]⟩ from rfl, h]
  cases Assemble.moduleOf c schema limits ⟨.ofBytes c.toWireFormat "module" bytes, #[]⟩ <;> rfl

/-- A module that `decode` gives names the configuration that it was decoded under. -/
theorem naming_decode : (decode bytes c schema limits).naming c = decode bytes c schema limits := by
  cases hdecode : decode bytes c schema limits with
  | mk result events =>
      cases result with
      | error e => rfl
      | ok m =>
          obtain ⟨l, -, hdescribes, -⟩ := decode_eq_ok_iff.mp hdecode
          obtain rfl := hdescribes.configuration
          rfl

/-- Configurations with one normal form (`normalize`) decode every container alike: with the same
error, or with modules that differ in the configuration that they name and in nothing else, and with
the same events. -/
theorem decode_of_normalize_eq {c d : Configuration} (h : c.normalize = d.normalize)
    (bytes : Bytes) (schema : Schema) (limits : Limits) :
    decode bytes c schema limits = (decode bytes d schema limits).naming c :=
  calc decode bytes c schema limits
      = ((decode bytes c schema limits).naming c.normalize).naming c := by
        rw [Decoding.naming_naming, naming_decode]
    _ = ((decode bytes d schema limits).naming d.normalize).naming c := by
        rw [← decode_normalize, h, decode_normalize]
    _ = (decode bytes d schema limits).naming c := Decoding.naming_naming _ _ _

end Module

/-- The configuration of the tree with switches on that say nothing beside its others: its
flags are not packed, and it has no value streams. -/
def idleConfiguration : Configuration :=
  { treeConfiguration with
    packedIndexStream := true, partitionedInlining := true, noOverridingPrimitiveStream := true }

/-- The switches of `idleConfiguration` that are idle change the configuration that is named, and
nothing else. -/
theorem Module.decode_of_normalize_eq_treeContainer :
    idleConfiguration ≠ treeConfiguration ∧
      idleConfiguration.normalize = treeConfiguration.normalize ∧
      decode treeContainer idleConfiguration treeSchema {} =
        ⟨.ok { treeModule with configuration := idleConfiguration }, treeEvents⟩ := by
  have hnormal : idleConfiguration.normalize = treeConfiguration.normalize := by decide
  refine ⟨by decide, hnormal, ?_⟩
  rw [decode_of_normalize_eq hnormal treeContainer treeSchema {}, decode_treeContainer]
  rfl

end BinaryAst
