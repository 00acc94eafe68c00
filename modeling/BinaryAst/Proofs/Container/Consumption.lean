import BinaryAst.Proofs.Container.Assembly
import BinaryAst.Proofs.Limits.Decoders
/-!
# BinaryAst.Proofs.Container.Consumption

What is decoded from a container is no larger than the container (`Module.size_le_consumed`).

The tag table pays for the tags, and the logs of the two sections pay for the objects and the
root. The logs take from the streams of the container, and what they take from a stream is what
is marked as consumed of it. The streams lie one behind the other in the container, so no byte
of it pays twice.

Before that, the same of the single decoder, as `State.Bounds`: from wherever it starts, what it
gives is paid for by the bytes ahead, and so is the recursion.
-/

namespace BinaryAst.Decode

/-! ### Decoders -/

/-- How the bytes ahead of a state bound what is decoded from it. -/
structure State.Bounds {n : Nat} (ctx : Context n) (s : State n) : Prop where
  /-- A value takes a byte at least, and as many bytes as it is large. -/
  value : ∀ levels source tag v t, Decode.value ctx levels source tag s = .ok v t →
    t.remaining < s.remaining ∧ v.size + t.remaining ≤ s.remaining
  /-- So does an object of the object table. -/
  object : ∀ levels v t, tableObject ctx (innerAt ctx levels) .own s = .ok v t →
    t.remaining < s.remaining ∧ v.size + t.remaining ≤ s.remaining
  /-- No more levels are used than there are bytes, whether decoding succeeds or not. -/
  levels : ∀ levels source tag, s.remaining ≤ levels →
    Decode.value ctx levels source tag s = Decode.value ctx s.remaining source tag s

/-- A step that `Recognises` values of a `size` that is never zero takes a byte at least. -/
theorem Recognises.takes {n : Nat} {site : Site} {α : Type} {step : Step n α}
    {language : Language α} (hstep : Recognises site step language) {size : α → Nat}
    (hpos : ∀ v, 0 < size v) (hsize : ∀ v log, language v log → size v ≤ log.size)
    {s t : State n} (hs : s.Fits site) {v : α} (h : step s = .ok v t) :
    t.remaining < s.remaining ∧ size v + t.remaining ≤ s.remaining := by
  have hpaid := hstep.remaining_add_le hsize hs h
  have hone := hpos v
  exact ⟨by omega, hpaid⟩

theorem State.Fits.bounds {n : Nat} {ctx : Context n} {describe : Lane → String} {s : State n}
    (hs : s.Fits (ctx.site describe)) : s.Bounds ctx where
  value levels source tag _ _ h := (recognises_value ctx describe levels source tag).takes
    Value.size_pos (fun _ _ hvalue => hvalue.1.size_le) hs h
  object levels _ _ h := (recognises_tableObject ctx describe levels fun inner _ =>
    recognises_value ctx describe inner).takes Object.size_pos
      (fun _ _ hobject => hobject.1.size_le) hs h
  levels _ source tag hle := value_of_remaining_le ctx describe hs hle source tag

/-! ### The tag table -/

theorem costs_tagName (index : Nat) :
    Read.Costs (tagName index) fun name => 1 + name.utf8ByteSize := by
  refine Read.costs_string.bind fun text => ?_
  cases text with
  | none => exact .throw _ _
  | some name => exact .pure (Nat.sub_self _)

theorem costs_tagNames : Read.Costs Assemble.tagNames Module.sizeOfTags := by
  have hnames : ∀ left position,
      Read.Costs (collectFrom tagName left position []) Module.sizeOfTags := by
    intro left
    induction left with
    | zero => exact fun _ => .pure rfl
    | succ left ih =>
        intro position
        rw [collectFrom_succ]
        refine (costs_tagName position).bind fun name => ((ih (position + 1)).bind fun names =>
          .pure ?_)
        simp [Module.sizeOfTags]
  rw [tagNames_eq]
  exact (Read.costs_unsigned 4).bind fun count => (hnames count 0).mono fun _ => Nat.sub_le _ _

/-! ### The parts -/

theorem Section.sum_optional (s : Option Section) (f : Section → Nat) :
    ((Section.optional s).map fun part => f part.toSection).sum = (s.map f).getD 0 := by
  cases s <;> simp [Section.optional, Section.part]

/-- `Shared.taken` adds up to the same, stream by stream over `sharedLanes` or part by part. -/
theorem Shared.sum_taken (l : Shared) :
    ((sharedLanes l.values.length).map fun lane => (l.taken lane).length).sum =
      (l.parts.map fun part => part.taken.length).sum := by
  have hlength : ∀ s : Option Section, ((s.map (·.taken)).getD []).length =
      (s.map (·.taken.length)).getD 0 := fun s => by cases s <;> rfl
  have hvalues : ((List.range l.values.length).map fun i => (l.taken (.values i)).length) =
      l.values.map fun entry => entry.2.taken.length := by
    refine List.ext_getElem (by simp) fun i hi _ => ?_
    have hi : i < l.values.length := by simpa using hi
    simp [taken, section?, hi]
  have hside : ∀ s : Option Section, ((Section.optional s).map fun part => part.taken.length).sum =
      (s.map (·.taken.length)).getD 0 := fun s => Section.sum_optional s (·.taken.length)
  simp only [sharedLanes, parts, SideSections.parts, List.map_append, List.sum_append, hside,
    List.map_map, List.map_cons, List.map_nil, List.sum_cons, List.sum_nil]
  simp only [Function.comp_def, hvalues]
  simp only [taken, section?, hlength]
  omega

/-- The logs by which the sections decode (`Layout.Decodes`) take no more bytes than `Part.taken`
marks in the parts of the layout. -/
theorem Layout.Decodes.size_le {schema : Schema} {l : Layout} {m : Module}
    {objectsLog rootLog : Log} (h : l.Decodes schema m objectsLog rootLog) :
    (objectsLog ++ rootLog).size ≤ l.objects.taken.length + l.root.taken.length +
      (l.toShared.parts.map fun part => part.taken.length).sum := by
  have hlanes : ∀ lane, lane ∉ State.lanes l.values.length →
      (objectsLog ++ rootLog).taken lane = [] := by
    intro lane hlane
    obtain ⟨i, rfl, hi⟩ := State.exists_values_of_not_mem hlane
    rw [← h.taken _ (by simp), Shared.taken, Shared.section?, List.getElem?_eq_none hi]
    rfl
  have hshared : ((sharedLanes l.values.length).map fun lane =>
      ((objectsLog ++ rootLog).taken lane).length) =
        (sharedLanes l.values.length).map fun lane => (l.taken lane).length := by
    refine List.map_congr_left fun lane hlane => ?_
    rw [h.taken lane]
    rintro rfl
    simp [sharedLanes] at hlane
  calc (objectsLog ++ rootLog).size
      ≤ ((State.lanes l.values.length).map fun lane =>
          ((objectsLog ++ rootLog).taken lane).length).sum := Log.size_le_sum hlanes
    _ = _ := by
        rw [State.lanes, List.map_cons, List.sum_cons, hshared, Shared.sum_taken,
          Log.taken_append, List.length_append, ← h.objects_taken, ← h.root_taken]

/-! ### The streams of a module -/

namespace Part

theorem sum_consumed_uses (offset : Nat) (parts : List Part) :
    ((eachFrom use offset parts).map StreamUse.consumed).sum =
      (parts.map fun part => part.taken.length).sum := by
  induction parts generalizing offset with
  | nil => rfl
  | cons part parts ih => simp [ih, use]

/-- The range of `Part.use` lies within the bytes of its part. -/
theorem use_within (part : Part) (offset : Nat) : offset ≤ (part.use offset).offset ∧
    (part.use offset).offset + (part.use offset).length ≤ offset + part.bytes.length := by
  simp only [use, bytes, List.length_append, Frame.length_bytes]
  omega

/-- The ranges of `Part.use`, over parts that stand at an offset, lie within the bytes of the parts.
-/
theorem uses_within {stream : StreamUse} {offset : Nat} {parts : List Part}
    (h : stream ∈ eachFrom use offset parts) : offset ≤ stream.offset ∧
      stream.offset + stream.length ≤ offset + (bytesOf parts).length := by
  induction parts generalizing offset with
  | nil => cases h
  | cons part parts ih =>
      rw [bytesOf_cons, List.length_append]
      rcases List.mem_cons.mp h with rfl | h
      · have := part.use_within offset
        omega
      · have := ih h
        omega

/-- No stream of a described module has a `consumed` beyond its `length`. -/
theorem consumed_le_length {format : WireFormat} {stream : StreamUse} {offset : Nat}
    {parts : List Part} (hparts : ∀ part ∈ parts, part.Valid format)
    (h : stream ∈ eachFrom use offset parts) : stream.consumed ≤ stream.length := by
  induction parts generalizing offset with
  | nil => cases h
  | cons part parts ih =>
      obtain ⟨hpart, hrest⟩ := List.forall_mem_cons.mp hparts
      rcases List.mem_cons.mp h with rfl | h
      · exact hpart.taken.length_le
      · exact ih hrest h

/-- No two ranges of `Part.use` overlap, since each lies within the bytes of a part of its own. -/
theorem uses_disjoint (offset : Nat) (parts : List Part) :
    (eachFrom use offset parts).Pairwise fun s t => s.offset + s.length ≤ t.offset := by
  induction parts generalizing offset with
  | nil => exact .nil
  | cons part parts ih =>
      refine .cons (fun stream h => ?_) (ih _)
      exact (part.use_within offset).2.trans (uses_within h).1

theorem sum_taken_le {format : WireFormat} {parts : List Part}
    (h : ∀ part ∈ parts, part.Valid format) :
    (parts.map fun part => part.taken.length).sum ≤ (bytesOf parts).length := by
  induction parts with
  | nil => exact Nat.le_refl _
  | cons part parts ih =>
      obtain ⟨hpart, hparts⟩ := List.forall_mem_cons.mp h
      have hfirst : part.taken.length ≤ part.bytes.length := by
        have := hpart.taken.length_le
        simp only [bytes, List.length_append, Frame.length_bytes]
        omega
      rw [List.map_cons, List.sum_cons, bytesOf_cons, List.length_append]
      exact Nat.add_le_add hfirst (ih hparts)

end Part

variable {c : Configuration} {schema : Schema} {offset : Nat} {l : Layout} {m : Module}
  {events : List Event}

theorem Layout.Describes.consumed_eq (h : l.Describes c schema offset m events) :
    m.consumed = l.tags.taken.length + (l.objects.taken.length + l.root.taken.length +
      (l.toShared.parts.map fun part => part.taken.length).sum) := by
  rw [Module.consumed, h.streams, Part.sum_consumed_uses]
  simp only [Layout.parts, Layout.beforeRoot, List.map_append, List.sum_append, List.map_cons,
    List.map_nil, List.sum_cons, List.sum_nil, Section.part]
  omega

/-- `Module.size` is paid for in three parts: the tags by the tag table, and the objects and the
root by what the two sections take. -/
theorem Layout.Describes.size_le (h : l.Describes c schema offset m events) :
    m.size ≤ m.consumed := by
  obtain ⟨objectsLog, rootLog, hdecodes, -⟩ := h.sections
  have hlogs := hdecodes.size_le
  rw [Log.size_append] at hlogs
  have htags := costs_tagNames.le_length h.tags
  have hobjects := hdecodes.objects.size_le
  have hroot := hdecodes.root.size_le
  rw [Module.size, h.consumed_eq]
  omega

theorem Layout.Describes.consumed_le (h : l.Describes c schema offset m events) :
    m.consumed ≤ l.bytes.length := by
  rw [Module.consumed, h.streams, Part.sum_consumed_uses, Layout.bytes, List.length_append]
  exact (Part.sum_taken_le h.parts).trans (Nat.le_add_left _ _)

end BinaryAst.Decode

namespace BinaryAst

open Decode

/-- No container decodes to more than it holds, whatever the limits. `Module.size` counts all
objects, values and tags, with the texts in them, and it is at most the sum of `StreamUse.consumed`,
which are bytes of the container: every stream lies in it, no further read than it is long, and no
two of them overlap. The same holds of each decoder, from whatever state of a section it starts
(`State.Bounds`): what it gives is paid for by the bytes ahead, and they bound the recursion. -/
theorem Module.size_le_consumed {bytes : Bytes} {c : Configuration} {schema : Schema}
    {limits : Limits} {m : Module} {events : List Event}
    (h : decode bytes c schema limits = ⟨.ok m, events⟩) :
    m.size ≤ m.consumed ∧ m.consumed ≤ bytes.length ∧
      (∀ stream ∈ m.streams, stream.consumed ≤ stream.length ∧
        stream.offset + stream.length ≤ bytes.length) ∧
      (m.streams.Pairwise fun s t => s.offset + s.length ≤ t.offset) ∧
      ∀ (n : Nat) (ctx : Context n) (describe : Lane → String) (s : State n),
        s.Fits (ctx.site describe) → s.Bounds ctx := by
  obtain ⟨l, -, hdescribes, hbytes, -⟩ := decode_eq_ok_iff.mp h
  have hlength := hbytes.length_le
  refine ⟨hdescribes.size_le, hdescribes.consumed_le.trans hlength, fun stream hstream => ?_,
    hdescribes.streams ▸ Part.uses_disjoint _ _, fun n ctx describe s hs => hs.bounds⟩
  rw [hdescribes.streams] at hstream
  refine ⟨Part.consumed_le_length hdescribes.parts hstream, ?_⟩
  have hend := (Part.uses_within hstream).2
  rw [Layout.bytes, List.length_append, Header.length_bytes] at hlength
  omega

/-- What the sections of the tree's container are decoded with. -/
def treeContext : Context 0 :=
  Assemble.contextOf treeConfiguration treeSchema {} treeModule.header treeModule.tags #[]

/-- The state before the root of the tree, with a type tag and a reference ahead. -/
def treeRootState : State 0 where
  own := ⟨.ofBytes 158 [1, 0, 0, 0], {}, "root"⟩
  values := #v[]
  side :=
    { inlining := some (.skip ⟨.ofBytes 60 [1], {}, "inlining"⟩ 1)
      typeTags := some ⟨.ofBytes 93 [1, 0, 0, 0], {}, "typeTags"⟩
      packedIndices := none }
  events := #[]

/-- The streams of the state, by their names. -/
def treeStream : Lane → String
  | .inlining => "inlining"
  | .typeTags => "typeTags"
  | _ => "root"

theorem fits_treeRootState : treeRootState.Fits (treeContext.site treeStream) := by
  refine ⟨fun lane r hr => ?_, rfl, rfl, rfl⟩
  cases lane with
  | own | inlining | typeTags =>
      cases hr
      exact ⟨rfl, rfl⟩
  | packedIndices | values i => cases hr

/-- In `treeContainer` the tree and its child make up 18 with their texts, their root and their tag,
and 59 bytes are read for them. Before its root there are eight bytes ahead, which bound what it can
be. -/
theorem Module.size_le_consumed_treeContainer :
    decode treeContainer treeConfiguration treeSchema {} = ⟨.ok treeModule, treeEvents⟩ ∧
      (treeModule.size = 18 ∧ treeModule.consumed = 59 ∧ treeRootState.remaining = 8) ∧
      treeModule.size ≤ treeModule.consumed ∧ treeModule.consumed ≤ treeContainer.length ∧
      treeRootState.Bounds treeContext := by
  obtain ⟨hsize, hlength, -, -, hbounds⟩ := size_le_consumed decode_treeContainer
  exact ⟨decode_treeContainer, by decide, hsize, hlength,
    hbounds 0 treeContext treeStream treeRootState fits_treeRootState⟩

end BinaryAst
