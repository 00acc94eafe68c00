import BinaryAst.Proofs.Container.Assembly
import BinaryAst.Proofs.Decode.Soundness
/-!
# BinaryAst.Proofs.Container.Contents

What an accepted container holds: objects that conform to their shapes, and a root that conforms
to a tag of its own (`Module.conforms_of_decode`).

Conformance is read off the layout. The logs of the two sections are in the grammar, and
whatever the grammar encodes conforms.
-/

namespace BinaryAst.Decode

variable {c : Configuration} {schema : Schema} {offset : Nat} {l : Layout} {m : Module}
  {events : List Event}

/-- The objects that a layout `Describes` conform (`ObjectConforms`), and so do those inside them.
-/
theorem Layout.Describes.objectConforms (h : l.Describes c schema offset m events) :
    ∀ object ∈ Value.objectsWithin m.objects, ObjectConforms (m.setting schema) object := by
  obtain ⟨objectsLog, rootLog, hdecodes, -⟩ := h.sections
  have htable := hdecodes.objects.objectConforms.2
  intro object hmem
  rcases List.mem_append.mp hmem with hmem | hmem
  · exact htable object hmem
  · obtain ⟨outer, houter, hinner⟩ := List.mem_flatMap.mp hmem
    exact (htable outer houter).within hinner

/-- The root that a layout `Describes` conforms to a tag of its own, and is not null. -/
theorem Layout.Describes.rootConforms (h : l.Describes c schema offset m events) :
    Conforms (m.setting schema) Tag.any m.root ∧ m.root.isNull = false := by
  obtain ⟨objectsLog, rootLog, hdecodes, -⟩ := h.sections
  exact hdecodes.root.conforms

end BinaryAst.Decode

namespace BinaryAst

open Decode

/-- A module that `decode` gives has as many objects as its header says; each of them, and each
inline object at any depth, conforms to its shape (`ObjectConforms`); and the root is a value other
than null that conforms to a tag of its own (`Tag.any`). -/
theorem Module.conforms_of_decode {bytes : Bytes} {c : Configuration} {schema : Schema}
    {limits : Limits} {m : Module}
    (h : (Module.decode bytes c schema limits).result = .ok m) :
    m.configuration = c ∧ m.objects.length = m.header.objectCount ∧
      (∀ object ∈ Value.objectsWithin m.objects ++ m.root.inlineObjects,
        ObjectConforms (m.setting schema) object) ∧
      Conforms (m.setting schema) Tag.any m.root ∧ m.root.isNull = false := by
  have hdecode : Module.decode bytes c schema limits =
      ⟨.ok m, (Module.decode bytes c schema limits).events⟩ := by
    rw [← h]
  obtain ⟨l, -, hdescribes, -, -⟩ := Module.decode_eq_ok_iff.mp hdecode
  refine ⟨hdescribes.configuration, hdescribes.objectCount, fun object hmem => ?_,
    hdescribes.rootConforms⟩
  rcases List.mem_append.mp hmem with hmem | hmem
  · exact hdescribes.objectConforms object hmem
  · exact hdescribes.rootConforms.1.objectConforms object hmem

/-- `loopContainer` decodes to `loopModule`, whose objects conform. -/
theorem loopModule_conforms :
    (Module.decode (loopContainer 1 0) {} loopSchema {}).result = .ok (loopModule 1) ∧
      ∀ object ∈ Value.objectsWithin (loopModule 1).objects ++ (loopModule 1).root.inlineObjects,
        ObjectConforms ((loopModule 1).setting loopSchema) object := by
  have hdecode : (Module.decode (loopContainer 1 0) {} loopSchema {}).result =
      .ok (loopModule 1) := by
    rw [decode_loopContainer]
  exact ⟨hdecode, (Module.conforms_of_decode hdecode).2.2.1⟩

end BinaryAst
