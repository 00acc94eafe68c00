import BinaryAst.Proofs.Container.Steps
import BinaryAst.Proofs.Encode.Encoder
/-!
# BinaryAst.Proofs.Encode.Program

The container of a graph, as a program of writing steps.

The parts come in container order: the header, the tag table, the side streams that the
configuration calls for, one value stream for each tag where values are kept by tag, the
object table and the root. The payloads are what the encoder puts in each stream.

`Encoding.layout` is the same container cut into its parts, with everything in it to be
read.
-/

namespace BinaryAst

/-- A graph that is to be encoded, and what for. -/
structure Encoding where
  configuration : Configuration
  schema : Schema
  tags : List String
  drafts : Graph Draft

namespace Encoding

open Decode

variable (e : Encoding)

/-- The layout of primitives. -/
def format : WireFormat := e.configuration.toWireFormat

/-- What the values are relative to. A tag has the value stream at its last position in the
tag table. -/
def routing : Routing where
  configuration := e.configuration
  schema := e.schema
  tags := e.tags
  slots := e.drafts.objects.length
  route tag :=
    if e.configuration.valueStreamPerType then e.tags.zipIdx.reverse.lookup tag else none

/-- What is put for the object table. -/
def tablePuts : List Put := e.routing.putTable e.drafts.objects

/-- What is put for the root. -/
def rootPuts : List Put := e.routing.putRoot e.drafts.root

/-- The steps that both sections put in a stream that they share. -/
def sharedSteps (lane : Lane) : List WriteStep := Put.stepsOn lane (e.tablePuts ++ e.rootPuts)

/-- A stream that the container may be without. -/
def optional (present : Bool) (description : String) (lane : Lane) : List WriteStep :=
  if present then [.substream description (e.sharedSteps lane)] else []

/-- The description of the value stream of a tag. -/
def valuesDescription (tag : String) : String := "values:" ++ tag

/-- The value stream of a tag, behind the index of the tag. -/
def valueStream (entry : String × Nat) : List WriteStep :=
  [.index (some entry.2),
    .substream (valuesDescription entry.1) (e.sharedSteps (.values entry.2))]

/-- The container, step by step. -/
def program : List WriteStep :=
  [.header e.tags.length e.drafts.objects.length, .tagTable e.tags] ++
    e.optional e.configuration.separatesInliningFlags "inlining" .inlining ++
    e.optional e.configuration.typeTagStream "typeTags" .typeTags ++
    e.optional e.configuration.separatesPackedIndices "packedIndices" .packedIndices ++
    (if e.configuration.valueStreamPerType then e.tags.zipIdx.flatMap e.valueStream else []) ++
    [.substream "objects" (Put.stepsOn .own e.tablePuts),
      .substream "root" (Put.stepsOn .own e.rootPuts)]

/-- The bytes of the container. -/
def bytes : Bytes := WriteStep.bytesAll e.format e.program

/-- Everything that is written has room in the format. -/
def Fits : Prop := WriteStep.AllFit e.format e.program

instance : Decidable e.Fits := inferInstanceAs (Decidable (WriteStep.AllFit e.format e.program))

end Encoding

/-! ### Parts that are read to their ends -/

namespace Decode

/-- A stream that is written around a payload and read to its end. -/
def Section.whole (format : WireFormat) (description : String) (payload : Bytes) : Section where
  frame :=
    { name := Write.string format (some description)
      before := Write.uint32 payload.length
      payload := payload
      after := Write.uint32 payload.length
      description := description }
  taken := payload

variable {format : WireFormat} {description : String} {payload : Bytes}

theorem Section.bytes_whole :
    (whole format description payload).frame.bytes =
      Write.substream format description payload := by
  simp [whole, Frame.bytes, Frame.lead, Write.substream]

theorem Section.bytes_part_whole :
    (whole format description payload).part.bytes = Write.substream format description payload := by
  rw [Part.bytes, ← bytes_whole]
  rfl

/-- A stream that is written `whole` is in order when the format `Holds` its description and its
length has room. -/
theorem Section.valid_whole (hname : format.Holds (some description))
    (hlength : payload.length < 2 ^ 32) : (whole format description payload).frame.Valid format :=
  ⟨⟨some description, Write.spells_string hname, rfl⟩, Write.spells_uint32 hlength,
    Write.spells_uint32 hlength⟩

/-- The part has been read to its end. -/
def Part.Exhausted (p : Part) : Prop := p.taken = p.frame.payload

theorem Part.Exhausted.leftover_use {p : Part} (h : p.Exhausted) (offset : Nat) :
    (p.use offset).leftover = 0 := by
  rw [use, StreamUse.leftover, h]
  exact Nat.sub_self _

/-- `Write.tagNames` spells names that are put in a tag table. -/
theorem spells_tagNames {tags : List String} (hcount : tags.length < 2 ^ 32)
    (htags : ∀ tag ∈ tags, format.Holds (some tag)) :
    Read.Spells format Assemble.tagNames (Write.tagNames format tags) tags := by
  have hnames : ∀ position, Read.Spells format (collectFrom tagName tags.length position [])
      (tags.flatMap fun tag => Write.string format (some tag)) tags := by
    induction tags with
    | nil => exact fun _ => .pure []
    | cons tag tags ih =>
        intro position
        rw [List.forall_mem_cons] at htags
        rw [List.length_cons, collectFrom_succ, List.flatMap_cons]
        have hname : Read.Spells format (tagName position)
            (Write.string format (some tag) ++ []) tag :=
          (Write.spells_string htags.1).bind (.pure tag)
        rw [List.append_nil] at hname
        have hrest := Read.Spells.bind (f := fun names => pure (tag :: names))
          (ih (by simp only [List.length_cons] at hcount; omega) htags.2 (position + 1))
          (.pure (tag :: tags))
        rw [List.append_nil] at hrest
        exact hname.bind hrest
  rw [tagNames_eq]
  exact (Write.spells_uint32 hcount).bind (hnames 0)

end Decode

namespace Encoding

open Decode

variable (e : Encoding)

/-! ### The layout -/

/-- A stream that both sections share. -/
def sharedSection (description : String) (lane : Lane) : Section :=
  .whole e.format description (WriteStep.bytesAll e.format (e.sharedSteps lane))

/-- A stream that the container may be without. -/
def optionalSection (present : Bool) (description : String) (lane : Lane) : Option Section :=
  if present then some (e.sharedSection description lane) else none

/-- The value stream of a tag, with its tag. -/
def valueEntry (entry : String × Nat) : String × Part :=
  (entry.1, { e.sharedSection (valuesDescription entry.1) (.values entry.2) with
    preface := Write.index e.format (some entry.2) })

/-- The container, cut into its parts. -/
def layout : Layout where
  header := ⟨e.tags.length, e.drafts.objects.length⟩
  tags := .whole e.format "tags" (Write.tagNames e.format e.tags)
  side :=
    { inlining := e.optionalSection e.configuration.separatesInliningFlags "inlining" .inlining
      typeTags := e.optionalSection e.configuration.typeTagStream "typeTags" .typeTags
      packedIndices := e.optionalSection e.configuration.separatesPackedIndices "packedIndices"
        .packedIndices }
  values := if e.configuration.valueStreamPerType then e.tags.zipIdx.map e.valueEntry else []
  objects := .whole e.format "objects" (WriteStep.bytesAll e.format (Put.stepsOn .own e.tablePuts))
  root := .whole e.format "root" (WriteStep.bytesAll e.format (Put.stepsOn .own e.rootPuts))

theorem isSome_optionalSection (present : Bool) (description : String) (lane : Lane) :
    (e.optionalSection present description lane).isSome = present := by
  cases present <;> rfl

theorem bytes_optional (present : Bool) (description : String) (lane : Lane) :
    WriteStep.bytesAll e.format (e.optional present description lane) =
      Part.bytesOf (Section.optional (e.optionalSection present description lane)) := by
  cases present with
  | false => rfl
  | true =>
      simp [optional, optionalSection, Section.optional, sharedSection, WriteStep.bytesAll,
        WriteStep.bytes, Part.bytes, Section.part, Section.bytes_whole]

theorem bytes_values (entries : List (String × Nat)) :
    WriteStep.bytesAll e.format (entries.flatMap e.valueStream) =
      Part.bytesOf ((entries.map e.valueEntry).map (·.2)) := by
  induction entries with
  | nil => rfl
  | cons entry entries ih =>
      simp only [List.flatMap_cons, WriteStep.bytesAll_append, List.map_cons, Part.bytesOf_cons, ih]
      simp [valueStream, valueEntry, sharedSection, WriteStep.bytesAll, WriteStep.bytes, Part.bytes,
        Section.bytes_whole]

/-- The parts of the `layout` take the bytes that the program writes. -/
theorem bytes_layout : e.layout.bytes = e.bytes := by
  have hvalues : WriteStep.bytesAll e.format (if e.configuration.valueStreamPerType then
      e.tags.zipIdx.flatMap e.valueStream else []) =
        Part.bytesOf (e.layout.values.map (·.2)) := by
    cases h : e.configuration.valueStreamPerType with
    | true => simpa [layout, h] using e.bytes_values e.tags.zipIdx
    | false => simp [layout, h, WriteStep.bytesAll]
  simp only [bytes, program, WriteStep.bytesAll_append, hvalues, bytes_optional]
  simp [Layout.bytes, Layout.parts, Layout.beforeRoot, Shared.parts, SideSections.parts,
    Header.bytes, WriteStep.bytesAll, WriteStep.bytes, layout, Section.bytes_part_whole,
    Write.tagTable]

end Encoding

end BinaryAst
