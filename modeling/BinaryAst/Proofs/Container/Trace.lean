import BinaryAst.Proofs.Container.Assembly
import BinaryAst.Proofs.Decode.Narration
/-!
# BinaryAst.Proofs.Container.Trace

What is told of an accepted container (`Module.events_of_decode`).

The events come in the order of the container: the openings of all streams up to the object
table, what is told of the table, the opening of the root, and what is told of the root. Less
streams and type tags, they are the visit of the module, `Module.visits`.
-/

namespace BinaryAst.Decode

/-! ### Openings -/

/-- `opening` of a part tells the place that its summary, `use`, has. -/
theorem Part.opening_eq (format : WireFormat) (p : Part) (offset : Nat) :
    p.opening format offset = (p.use offset).opening := by
  simp [Part.opening, opened, StreamUse.opening, Part.use, Part.reader]

theorem Part.openings_eq (format : WireFormat) (offset : Nat) (parts : List Part) :
    eachFrom (opening format) offset parts = (eachFrom use offset parts).map StreamUse.opening := by
  induction parts generalizing offset with
  | nil => rfl
  | cons part parts ih =>
      rw [eachFrom_cons, eachFrom_cons, List.map_cons, opening_eq, ih]

/-- The `opening` of streams is no part of a visit. -/
theorem visits_openings (streams : List StreamUse) :
    (streams.map StreamUse.opening).filterMap Event.visit? = [] := by
  induction streams with
  | nil => rfl
  | cons stream streams ih => exact ih

theorem streams_openings (streams : List StreamUse) :
    (streams.map StreamUse.opening).filterMap Event.stream? =
      streams.map fun s => (s.description, s.offset, s.length) := by
  rw [List.filterMap_map]
  exact congrFun List.filterMap_eq_map streams

/-! ### Both sections -/

variable {c : Configuration} {schema : Schema} {offset : Nat} {l : Layout} {m : Module}
  {events : List Event}

/-- The events that a layout `Describes`, cut at the openings of its two sections. -/
theorem Layout.Describes.exists_sections_told (h : l.Describes c schema offset m events) :
    ∃ front table root between behind, m.streams = front ++ [table, root] ∧
      events = front.map StreamUse.opening ++
        table.opening :: (between ++ root.opening :: behind) ∧
      between.filterMap Event.visit? = visitsOfSlots 0 m.objects ∧
      (∀ event ∈ between, event.stream? = none) ∧
      behind.filterMap Event.visit? = m.root.visits ∧ ∀ event ∈ behind, event.IsInner := by
  obtain ⟨objectsLog, rootLog, hdecodes, htold⟩ := h.sections
  have hstreams := h.streams
  simp only [Layout.parts, Layout.beforeRoot, Part.eachFrom_append, Part.eachFrom_cons,
    Part.eachFrom_nil] at hstreams
  simp only [Layout.openings, Layout.rootOpening, Layout.beforeRoot, Part.openings_eq,
    Part.opening_eq, Part.eachFrom_append, Part.eachFrom_cons, Part.eachFrom_nil] at htold
  have hroot := hdecodes.root.narrates
  exact ⟨_, _, _, objectsLog.told, rootLog.told, by rw [hstreams, List.append_assoc]; rfl,
    by rw [htold]; simp, hdecodes.objects.visits_told, hdecodes.objects.stream?_told,
    hroot.visits_eq, hroot.inner⟩

end BinaryAst.Decode

namespace BinaryAst

open Decode

/-- What `decode` tells of a container that it accepts. The parts of values make up the `visits` of
the module. The `streams` are told in container order, each with its place. The events between the
openings of the object table and of the root, which are the last two streams, are about no stream;
those behind the opening of the root are about no stream and no slot, so every slot is told between
the two. -/
theorem Module.events_of_decode {bytes : Bytes} {c : Configuration} {schema : Schema}
    {limits : Limits} {m : Module} {events : List Event}
    (h : decode bytes c schema limits = ⟨.ok m, events⟩) :
    events.filterMap Event.visit? = m.visits ∧
      events.filterMap Event.stream? =
        m.streams.map (fun s => (s.description, s.offset, s.length)) ∧
      ∃ front table root between behind, m.streams = front ++ [table, root] ∧
        events = front.map StreamUse.opening ++
          table.opening :: (between ++ root.opening :: behind) ∧
        (∀ event ∈ between ++ behind, event.stream? = none) ∧
        ∀ event ∈ behind, ∀ index shape, event ≠ .slot index shape := by
  obtain ⟨l, -, hdescribes, -, -⟩ := decode_eq_ok_iff.mp h
  obtain ⟨front, table, root, between, behind, hstreams, hevents, hobjects, hbetween, hroot,
    hbehind⟩ := hdescribes.exists_sections_told
  have hquiet : ∀ event ∈ between ++ behind, event.stream? = none :=
    List.forall_mem_append.mpr ⟨hbetween, fun event hmem => (hbehind event hmem).stream?_eq_none⟩
  refine ⟨?_, ?_, front, table, root, between, behind, hstreams, hevents, hquiet,
    fun event hmem => (hbehind event hmem).ne_slot⟩
  · calc events.filterMap Event.visit?
        = between.filterMap Event.visit? ++ behind.filterMap Event.visit? := by
          rw [hevents, List.filterMap_append, visits_openings, List.nil_append,
            List.filterMap_cons_none table.visit?_opening, List.filterMap_append,
            List.filterMap_cons_none root.visit?_opening]
      _ = m.visits := by rw [hobjects, hroot, visits]
  · have hnone := List.filterMap_eq_nil_iff.mpr hquiet
    rw [List.filterMap_append, List.append_eq_nil_iff] at hnone
    rw [hevents, hstreams, List.map_append, List.filterMap_append, streams_openings,
      List.filterMap_cons_some table.stream?_opening, List.filterMap_append,
      List.filterMap_cons_some root.stream?_opening, hnone.1, hnone.2]
    rfl

/-- In `treeContainer` the tree is visited before its slot, and its child within its children. -/
theorem Module.events_of_decode_treeContainer :
    decode treeContainer treeConfiguration treeSchema {} = ⟨.ok treeModule, treeEvents⟩ ∧
      treeEvents.filterMap Event.visit? =
        [.field "Tree" "label", .field "Tree" "children", .inline "Tree", .field "Tree" "label",
          .field "Tree" "children", .slot 0 "Tree"] :=
  ⟨decode_treeContainer, (events_of_decode decode_treeContainer).1⟩

end BinaryAst
