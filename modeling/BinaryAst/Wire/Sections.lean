import BinaryAst.Wire.Writer
/-!
# BinaryAst.Wire.Sections

The payloads of a container's sections, and the container they make.

An optional section is written only when its payload is given, so the sections
have to match the configuration that the container is read with.
-/

namespace BinaryAst

/-- The payloads of one container. -/
structure Sections where
  /-- The layout of every section. -/
  format : WireFormat := {}
  /-- The tag table. -/
  tags : List String := []
  /-- The tag count of the header; the length of the tag table when absent. -/
  tagCount : Option Nat := none
  /-- The object count of the header. -/
  objectCount : Nat := 0
  /-- The inlining flags. -/
  inlining : Option Bytes := none
  /-- The type tags. -/
  typeTags : Option Bytes := none
  /-- The packed indices. -/
  packedIndices : Option Bytes := none
  /-- A position in the tag table and the values of that tag. -/
  values : List (Nat × Bytes) := []
  /-- The object table with its count; a zero count is written when it is empty. -/
  objects : Bytes := []
  /-- The root value. -/
  root : Bytes := []
  deriving Repr

namespace Sections

/-- A tag that a tag table does not hold. -/
structure MissingTag where
  tag : String
  deriving DecidableEq, Repr

/-- The report of a missing tag. -/
def MissingTag.message (missing : MissingTag) : String :=
  s!"tag {missing.tag} missing from fixture tag table"

/-- The first position of a tag in the tag table. -/
def tagIndex (s : Sections) (tag : String) : Except MissingTag Nat :=
  match s.tags.findIdx? (· == tag) with
  | some index => .ok index
  | none => .error ⟨tag⟩

/-- A section that may be absent. -/
def optional (s : Sections) (description : String) : Option Bytes → Bytes
  | none => []
  | some payload => Write.substream s.format description payload

/-- The description of the stream that holds the values of a tag. -/
def valuesDescription (s : Sections) (tag : Nat) : String :=
  "values:" ++ s.tags[tag]?.getD ""

/-- The index of a tag, then the stream of its values. -/
def valueStream (s : Sections) (entry : Nat × Bytes) : Bytes :=
  Write.index s.format (some entry.1) ++
    Write.substream s.format (s.valuesDescription entry.1) entry.2

/-- The payload of the object table. -/
def objectTable (s : Sections) : Bytes :=
  if s.objects.isEmpty then Write.uint32 0 else s.objects

/-- The container: header, tag table, side streams, object table, root. -/
def toBytes (s : Sections) : Bytes :=
  Write.header (s.tagCount.getD s.tags.length) s.objectCount ++
    Write.tagTable s.format s.tags ++
    s.optional "inlining" s.inlining ++
    s.optional "typeTags" s.typeTags ++
    s.optional "packedIndices" s.packedIndices ++
    s.values.flatMap s.valueStream ++
    Write.substream s.format "objects" s.objectTable ++
    Write.substream s.format "root" s.root

end Sections

end BinaryAst
