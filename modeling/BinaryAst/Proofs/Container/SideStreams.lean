import BinaryAst.Proofs.Container.Streams
import BinaryAst.Proofs.Container.Trace
import BinaryAst.Proofs.Decode.Accounts
/-!
# BinaryAst.Proofs.Container.SideStreams

What the side streams of an accepted container hold (`Module.sideStreams_of_decode`).

The accounts of the two sections are joined: their logs, one after the other, take from a side
stream what is marked in its part, and the part stands in the container where the summary of the
stream says. So the accounts can be checked against the bytes of the container, the events that
are told, and the module (`StreamRoles.Accounted`).
-/

namespace BinaryAst

open Decode

/-- Each side stream is read for its own kind of data and for nothing else. -/
structure StreamRoles.Accounted (bytes : Bytes) (m : Module) (events : List Event)
    (roles : StreamRoles) : Prop where
  /-- The stream of type tags is read as indices of the tags that are told, in order, and to
  the end of the last; and every tag is told of this stream. -/
  typeTags : ∀ s, roles.typeTags = some s → ∃ (indices : List Nat) (names : List String),
    Read.indices indices.length (s.reader m.configuration.toWireFormat bytes) =
        .ok (indices.map some)
          ((s.reader m.configuration.toWireFormat bytes).skip s.consumed) ∧
      indices.map (m.tags[·]?) = names.map some ∧
      events.filterMap Event.tag? = names.map fun name => (s.description, name)
  /-- In what is read of the stream of flags there is one byte for each inline object that is
  neither zero nor `0xFF`. -/
  inlining : ∀ s, roles.inlining = some s →
    (s.taken bytes).countP isInlineFlag = m.inlineObjects.length
  /-- The stream of packed indices is read as indices, to the end of the last. Those with the
  low bit set are the tags of the inline objects, in order; the others are slots. -/
  packedIndices : m.configuration.conditionalInlining = true →
    ∀ s, roles.packedIndices = some s → ∃ packed : List (Option Nat),
      Read.indices packed.length (s.reader m.configuration.toWireFormat bytes) =
          .ok packed ((s.reader m.configuration.toWireFormat bytes).skip s.consumed) ∧
        (unpackedTags packed).map (m.tags[·]?) =
          (events.filterMap Event.inlineShape?).map some ∧
        ∀ slot ∈ unpackedSlots packed, slot < m.objects.length
  /-- Without inline objects the stream of packed indices is not read at all. -/
  unread : m.configuration.conditionalInlining = false →
    ∀ s, roles.packedIndices = some s → s.consumed = 0

namespace Decode

variable {c : Configuration} {schema : Schema} {l : Layout} {m : Module} {events : List Event}
  {bytes : Bytes}

namespace Layout

/-- Less the openings of streams, the events that `Describes` admits are those `told` in the logs of
the two sections. -/
theorem Describes.exists_logs {offset : Nat} (h : l.Describes c schema offset m events) :
    ∃ objectsLog rootLog, l.Decodes schema m objectsLog rootLog ∧
      ∀ {α : Type} (f : Event → Option α),
        (∀ description start length, f (.stream description start length) = none) →
          events.filterMap f = (objectsLog ++ rootLog).told.filterMap f := by
  obtain ⟨objectsLog, rootLog, hdecodes, htold⟩ := h.sections
  refine ⟨objectsLog, rootLog, hdecodes, fun f hf => ?_⟩
  have hopenings : (l.openings c.toWireFormat offset).filterMap f = [] := by
    rw [openings, Part.openings_eq, List.filterMap_eq_nil_iff]
    simp [StreamUse.opening, hf]
  have hroot : f (l.rootOpening c.toWireFormat offset) = none := by
    rw [rootOpening, Part.opening_eq]
    exact hf ..
  rw [htold, List.filterMap_append, List.filterMap_append, hopenings, List.nil_append,
    List.filterMap_cons_none hroot, Log.told_append, List.filterMap_append]

/-- What a section of a side stream has `taken` is what both logs take from its lane. -/
theorem Decodes.section_taken {objectsLog rootLog : Log}
    (h : l.Decodes schema m objectsLog rootLog) {lane : Lane} {sec : Section}
    (hsec : l.section? lane = some sec) (hlane : lane ≠ .own) :
    sec.taken = (objectsLog ++ rootLog).taken lane := by
  rw [← h.taken lane hlane, Shared.taken, hsec]
  rfl

/-- `describe` gives a side stream the description that its type tags are told with, whatever the
section's own is. -/
theorem describe_eq {sec : Section} {lane : Lane} (hsec : l.section? lane = some sec)
    (hlane : lane ≠ .own) (own : String) : l.describe own lane = sec.frame.description := by
  cases lane with
  | own => exact absurd rfl hlane
  | _ => simp [Shared.describe, hsec]

/-- The inline objects that are told are the `inlineObjects` of the module, in order. -/
theorem Describes.inlineShapes_told {offset : Nat} (h : l.Describes c schema offset m events) :
    events.filterMap Event.inlineShape? = m.inlineObjects.map Object.shape := by
  obtain ⟨objectsLog, rootLog, hdecodes, hevents⟩ := h.exists_logs
  have htold : (objectsLog ++ rootLog).told.filterMap Event.visit? = m.visits := by
    rw [Log.told_append, List.filterMap_append, hdecodes.objects.visits_told,
      hdecodes.root.narrates.visits_eq, Module.visits]
  rw [hevents Event.inlineShape? fun _ _ _ => rfl, inlineShapes_of_visits htold,
    m.inlineShapes_visits]

variable {s : StreamUse} (h : l.Describes c schema Header.size m events) (hp : l.bytes <+: bytes)
include h hp

/-- The account of the stream of type tags: `Read.indices` takes all of it, the indices name entries
of `m.tags`, and these are the tags told. -/
theorem Describes.typeTags_accounted (hs : (l.roles Header.size).typeTags = some s) :
    ∃ (indices : List Nat) (names : List String),
      Read.indices indices.length (s.reader m.configuration.toWireFormat bytes) =
          .ok (indices.map some)
            ((s.reader m.configuration.toWireFormat bytes).skip s.consumed) ∧
        indices.map (m.tags[·]?) = names.map some ∧
        events.filterMap Event.tag? = names.map fun name => (s.description, name) := by
  obtain ⟨objectsLog, rootLog, hdecodes, hevents⟩ := h.exists_logs
  obtain rfl := h.configuration
  obtain ⟨sec, hsec, hmem, hstands⟩ := exists_stands_typeTags hp hs
  have hstream : m.configuration.typeTagStream = true := by
    rw [← h.fits_roles.typeTags, hs]
    rfl
  obtain ⟨indices, names, hspells, hnames, htold⟩ :=
    (hdecodes.objects.pieces.carriesTags hstream).append
      (hdecodes.root.pieces.carriesTags hstream)
  rw [← hdecodes.section_taken hsec (by simp)] at hspells
  have hread := hstands.read_eq (h.parts _ hmem) hspells.spells
  rw [List.length_map] at hread
  refine ⟨indices, names, hread, hnames, ?_⟩
  have hdescription : l.describe l.objects.frame.description .typeTags = s.description :=
    (describe_eq hsec (by simp) _).trans hstands.description_eq.symm
  rw [hevents Event.tag? fun _ _ _ => rfl, htold, ← hdescription]
  rfl

/-- The account of the stream of flags: as many bytes have `isInlineFlag` as the module has inline
objects. -/
theorem Describes.inlining_accounted (hs : (l.roles Header.size).inlining = some s) :
    (s.taken bytes).countP isInlineFlag = m.inlineObjects.length := by
  obtain ⟨objectsLog, rootLog, hdecodes, hevents⟩ := h.exists_logs
  obtain ⟨sec, hsec, hmem, hstands⟩ := exists_stands_inlining hp hs
  have hflags : m.configuration.separatesInliningFlags = true := by
    rw [← h.fits_roles.inlining, hs]
    rfl
  have hcount := (hdecodes.objects.pieces.carriesFlags hflags).append
    (hdecodes.root.pieces.carriesFlags hflags)
  rw [Log.CarriesFlags, ← hdecodes.section_taken hsec (by simp),
    ← hevents Event.inlineShape? fun _ _ _ => rfl, h.inlineShapes_told, List.length_map]
    at hcount
  rw [hstands.taken_eq (h.parts _ hmem)]
  exact hcount

/-- The account of the stream of packed indices: `Read.indices` takes all of it, its `unpackedTags`
are the shapes of the inline objects that are told, and its `unpackedSlots` are slots of the table.
-/
theorem Describes.packedIndices_accounted
    (hinlining : m.configuration.conditionalInlining = true)
    (hs : (l.roles Header.size).packedIndices = some s) :
    ∃ packed : List (Option Nat),
      Read.indices packed.length (s.reader m.configuration.toWireFormat bytes) =
          .ok packed ((s.reader m.configuration.toWireFormat bytes).skip s.consumed) ∧
        (unpackedTags packed).map (m.tags[·]?) =
          (events.filterMap Event.inlineShape?).map some ∧
        ∀ slot ∈ unpackedSlots packed, slot < m.objects.length := by
  obtain ⟨objectsLog, rootLog, hdecodes, hevents⟩ := h.exists_logs
  obtain rfl := h.configuration
  obtain ⟨sec, hsec, hmem, hstands⟩ := exists_stands_packedIndices hp hs
  obtain ⟨hpacked, hstream⟩ : m.configuration.packedInliningFlags = true ∧
      m.configuration.packedIndexStream = true := by
    rw [← Bool.and_eq_true, ← Configuration.separatesPackedIndices, ← h.fits_roles.packedIndices,
      hs]
    rfl
  obtain ⟨packed, hspells, htags, hslots⟩ :=
    (hdecodes.objects.pieces.carriesIndices hinlining hpacked hstream).append
      (hdecodes.root.pieces.carriesIndices hinlining hpacked hstream)
  rw [← hdecodes.section_taken hsec (by simp)] at hspells
  rw [← hevents Event.inlineShape? fun _ _ _ => rfl] at htags
  exact ⟨packed, hstands.read_eq (h.parts _ hmem) hspells.spells, htags, hslots⟩

theorem Describes.packedIndices_unread (hinlining : m.configuration.conditionalInlining = false)
    (hs : (l.roles Header.size).packedIndices = some s) : s.consumed = 0 := by
  obtain ⟨objectsLog, rootLog, hdecodes, -⟩ := h.exists_logs
  obtain ⟨sec, hsec, -, hstands⟩ := exists_stands_packedIndices hp hs
  have htaken : sec.taken = [] := by
    rw [hdecodes.section_taken hsec (by simp), Log.taken_append,
      hdecodes.objects.pieces.taken_packedIndices hinlining,
      hdecodes.root.pieces.taken_packedIndices hinlining, List.append_nil]
  rw [hstands.consumed_eq]
  exact List.length_eq_zero_iff.mpr htaken

end Layout

end Decode

/-- The side streams of a container that `decode` accepts are each read for one kind of data: the
type tags, the flags of inline objects, and the packed indices (`StreamRoles.Accounted`). The inline
objects that are told are those of the module, in order. -/
theorem Module.sideStreams_of_decode {bytes : Bytes} {c : Configuration} {schema : Schema}
    {limits : Limits} {m : Module} {events : List Event}
    (h : decode bytes c schema limits = ⟨.ok m, events⟩) :
    m.configuration = c ∧ events.filterMap Event.inlineShape? = m.inlineObjects.map Object.shape ∧
      ∃ roles : StreamRoles, roles.Fits m ∧ roles.Accounted bytes m events := by
  obtain ⟨l, -, hdescribes, hp, -⟩ := decode_eq_ok_iff.mp h
  exact ⟨hdescribes.configuration, hdescribes.inlineShapes_told, _, hdescribes.fits_roles,
    { typeTags := fun _ => hdescribes.typeTags_accounted hp
      inlining := fun _ => hdescribes.inlining_accounted hp
      packedIndices := fun hinlining _ => hdescribes.packedIndices_accounted hp hinlining
      unread := fun hinlining _ => hdescribes.packedIndices_unread hp hinlining }⟩

/-- In `groveContainer` the inline tree has its tag from the packed index that is read for it: three
type tags are told, of the tree in the table, of the items of its array, and of the root. -/
theorem Module.sideStreams_of_decode_groveContainer :
    decode groveContainer groveConfiguration treeSchema {} = ⟨.ok groveModule, groveEvents⟩ ∧
      groveEvents.filterMap Event.tag? = List.replicate 3 ("typeTags", "Tree") ∧
      groveModule.inlineObjects.map Object.shape = ["Tree"] ∧
      ∃ roles : StreamRoles, roles.Fits groveModule ∧
        roles.Accounted groveContainer groveModule groveEvents := by
  obtain ⟨-, hinline, hroles⟩ := sideStreams_of_decode decode_groveContainer
  exact ⟨decode_groveContainer, rfl, hinline.symm, hroles⟩

end BinaryAst
