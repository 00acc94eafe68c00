import BinaryAst.Proofs.Decode.Grammar
import BinaryAst.Proofs.Encode.Draft
import BinaryAst.Proofs.Wire.Written
/-!
# BinaryAst.Proofs.Encode.Encoder

Encoding drafts.

The encoder goes over a draft from front to back and puts each part at the end of the stream
that is due, with one step of writing for each (`Put`). What it puts is a list: the bytes of a
stream are those of the steps that were put there, in this order.
-/

namespace BinaryAst.Decode

/-- A step of writing, and the stream that it is put in. -/
structure Put where
  lane : Lane
  step : WriteStep

namespace Put

/-- The steps that are put in one stream. -/
def stepsOn (lane : Lane) (puts : List Put) : List WriteStep :=
  (puts.filter (·.lane = lane)).map (·.step)

/-- What a decoder takes for what was put. -/
def log (format : WireFormat) (puts : List Put) : Log :=
  puts.map fun put => .take put.lane (put.step.bytes format)

/-- Every step fits the format. -/
def Fit (format : WireFormat) (puts : List Put) : Prop := ∀ put ∈ puts, put.step.Fits format

end Put

namespace Routing

variable (routing : Routing)

/-- The first position of a tag in the tag table. -/
def tagIndex (tag : String) : Nat := routing.tags.idxOf tag

/-- The declared fields of a shape. -/
def declsOf (shape : String) : List FieldDecl :=
  ((routing.schema.shape? shape).map (·.fields)).getD []

/-- Puts a type tag. -/
def putTag (source : Lane) (tag : String) : List Put :=
  [⟨routing.typeTagLane source, .index (some (routing.tagIndex tag))⟩]

/-- Puts a reference that is a plain index. -/
def putPlain (source : Lane) : Reference → List Put
  | .null | .inline _ => [⟨source, .index none⟩]
  | .slot slot => [⟨source, .index (some slot)⟩]

/-- Puts a reference with a flag byte before it. -/
def putFlagged (source : Lane) : Reference → List Put
  | .null => [⟨routing.inliningLane source, .byte nullMarker⟩]
  | .slot slot => [⟨routing.inliningLane source, .byte 0⟩, ⟨source, .index (some slot)⟩]
  | .inline shape => ⟨routing.inliningLane source, .byte 1⟩ :: routing.putTag source shape

/-- Puts a reference with its flag in the low bit of an index. -/
def putPacked (source : Lane) : Reference → List Put
  | .null => [⟨routing.packedLane source, .index none⟩]
  | .slot slot => [⟨routing.packedLane source, .index (some (2 * slot))⟩]
  | .inline shape =>
    [⟨routing.packedLane source, .index (some (2 * routing.tagIndex shape + 1))⟩]

/-- Puts a reference. Behind a tag of its own it is always a plain index. -/
def putReference (source : Lane) (viaAny : Bool) (reference : Reference) : List Put :=
  if viaAny then putPlain source reference
  else
    match routing.configuration.referenceEncoding with
    | .plain => putPlain source reference
    | .flagged => routing.putFlagged source reference
    | .packed _ => routing.putPacked source reference

/-- Puts a null, which looks as its tag says. -/
def putNull (source : Lane) (viaAny : Bool) (tag : String) : List Put :=
  match Tag.kind tag with
  | .object => routing.putReference source viaAny .null
  | .symbol =>
    if routing.configuration.internedSymbols then [⟨source, .index none⟩]
    else [⟨source, .string none⟩]
  | _ => [⟨source, .string none⟩]

/-- Puts a value that holds no other. -/
def putAtom (source : Lane) (viaAny : Bool) (tag : String) : Atom → List Put
  | .null => routing.putNull source viaAny tag
  | .bool value => [⟨source, .byte (if value then 1 else 0)⟩]
  | .integer value => [⟨source, .int32 value⟩]
  | .double value => [⟨source, .binary64 value⟩]
  | .string text | .symbol text => [⟨source, .string (some text)⟩]
  | .internedSymbol index => [⟨source, .index (some index)⟩]
  | .ref slot => routing.putReference source viaAny (.slot slot)

mutual

/-- Puts a value in the place of a tag, which may be a tag of the value's own. -/
def putValue (source : Lane) (viaAny : Bool) (tag : String) : Draft → List Put
  | .atom a => routing.putAtom source viaAny tag a
  | .array inner items =>
    ⟨source, .varUInt32 items.length⟩ ::
      (if items.isEmpty then [] else routing.putTag source inner ++ putItems source inner items)
  | .announced inner draft => routing.putTag source inner ++ putValue source true inner draft
  | .inline ⟨shape, fields⟩ =>
    routing.putReference source viaAny (.inline shape) ++
      putFields ((routing.inlineLane source shape).getD source)
        routing.configuration.separatesInlineObjects (routing.declsOf shape) fields

/-- Puts the items of an array. -/
def putItems (source : Lane) (tag : String) : List Draft → List Put
  | [] => []
  | item :: items => putValue source false tag item ++ putItems source tag items

/-- Puts the values of fields, each where its declaration says. -/
def putFields (active : Lane) (pinned : Bool) :
    (decls : List FieldDecl) → List (Field Draft) → List Put
  | decl :: decls, ⟨_, draft⟩ :: fields =>
    putValue ((routing.fieldLane active pinned (routing.schema.fieldTag decl)).getD active) false
        (routing.schema.fieldTag decl) draft ++
      putFields active pinned decls fields
  | _, _ => []

end

/-- Puts an object of the object table. -/
def putObject (object : Object Draft) : List Put :=
  routing.putTag .own object.shape ++
    routing.putFields .own false (routing.declsOf object.shape) object.fields

/-- Puts an object table. -/
def putTable (objects : List (Object Draft)) : List Put :=
  ⟨.own, .uint32 objects.length⟩ :: objects.flatMap routing.putObject

/-- Puts a root. -/
def putRoot (root : Draft) : List Put := routing.putValue .own false Tag.any root

/-! ### Streams that are there

Nothing is put in a stream that the container is without. -/

/-- The container has the stream. -/
def Has : Lane → Prop
  | .own => True
  | .values i => ∃ tag, routing.route tag = some i
  | .inlining => routing.configuration.separatesInliningFlags = true
  | .typeTags => routing.configuration.typeTagStream = true
  | .packedIndices => routing.configuration.separatesPackedIndices = true

variable {routing} {source : Lane}

theorem has_typeTagLane (h : routing.Has source) : routing.Has (routing.typeTagLane source) := by
  unfold typeTagLane
  split
  case isTrue hstream => exact hstream
  case isFalse => exact h

theorem has_inliningLane (h : routing.Has source) : routing.Has (routing.inliningLane source) := by
  unfold inliningLane
  split
  case isTrue hstream => exact hstream
  case isFalse => exact h

theorem has_packedLane (h : routing.Has source) : routing.Has (routing.packedLane source) := by
  unfold packedLane
  split
  case isTrue hstream => exact hstream
  case isFalse => exact h

/-- A lane that was looked up is there (`Has`), and so is the one that stands in for it. -/
theorem has_getD {lane : Option Lane} (hlane : ∀ found, lane = some found → routing.Has found)
    (h : routing.Has source) : routing.Has (lane.getD source) := by
  cases lane with
  | none => exact h
  | some found => exact hlane found rfl

theorem has_valueLane {tag : String} {found : Lane} (h : routing.valueLane tag = some found) :
    routing.Has found := by
  obtain ⟨i, hi, rfl⟩ := Option.map_eq_some_iff.mp h
  exact ⟨tag, hi⟩

theorem has_inlineLane {shape : String} (h : routing.Has source) {found : Lane}
    (hfound : routing.inlineLane source shape = some found) : routing.Has found := by
  unfold inlineLane at hfound
  split at hfound
  · exact has_valueLane hfound
  · exact Option.some.inj hfound ▸ h

theorem has_fieldLane {active : Lane} {pinned : Bool} {tag : String} (h : routing.Has active)
    {found : Lane} (hfound : routing.fieldLane active pinned tag = some found) :
    routing.Has found := by
  unfold fieldLane at hfound
  split at hfound
  · exact Option.some.inj hfound ▸ h
  split at hfound
  · exact has_valueLane hfound
  · exact Option.some.inj hfound ▸ h

theorem has_putTag (h : routing.Has source) (tag : String) :
    ∀ put ∈ routing.putTag source tag, routing.Has put.lane := by
  simpa [putTag] using has_typeTagLane h

theorem has_putPlain (h : routing.Has source) (reference : Reference) :
    ∀ put ∈ putPlain source reference, routing.Has put.lane := by
  cases reference <;> simpa [putPlain] using h

theorem has_putReference (h : routing.Has source) (viaAny : Bool) (reference : Reference) :
    ∀ put ∈ routing.putReference source viaAny reference, routing.Has put.lane := by
  have hflag := has_inliningLane h
  unfold putReference
  split
  · exact has_putPlain h reference
  split
  · exact has_putPlain h reference
  · cases reference with
    | null => simpa [putFlagged] using hflag
    | slot slot => simpa [putFlagged] using ⟨hflag, h⟩
    | inline shape =>
        rw [putFlagged, List.forall_mem_cons]
        exact ⟨hflag, has_putTag h shape⟩
  · cases reference <;> simpa [putPacked] using has_packedLane h

theorem has_putNull (h : routing.Has source) (viaAny : Bool) (tag : String) :
    ∀ put ∈ routing.putNull source viaAny tag, routing.Has put.lane := by
  unfold putNull
  split
  · exact has_putReference h viaAny .null
  · split <;> simpa using h
  · simpa using h

theorem has_putAtom (h : routing.Has source) (viaAny : Bool) (tag : String) (a : Atom) :
    ∀ put ∈ routing.putAtom source viaAny tag a, routing.Has put.lane := by
  cases a with
  | null => exact has_putNull h viaAny tag
  | ref slot => exact has_putReference h viaAny (.slot slot)
  | bool | integer | double | string | symbol | internedSymbol => simpa [putAtom] using h

mutual

/-- All that `putValue` puts is put in lanes that are there. -/
theorem has_putValue : ∀ (draft : Draft) {source : Lane} {viaAny : Bool} {tag : String},
    routing.Has source → ∀ put ∈ routing.putValue source viaAny tag draft, routing.Has put.lane
  | .atom a, _, viaAny, tag, h => has_putAtom h viaAny tag a
  | .array inner items, source, viaAny, tag, h => by
      rw [putValue, List.forall_mem_cons]
      refine ⟨h, ?_⟩
      split
      · simp
      · rw [List.forall_mem_append]
        exact ⟨has_putTag h inner, has_putItems items h⟩
  | .announced inner draft, source, viaAny, tag, h => by
      rw [putValue, List.forall_mem_append]
      exact ⟨has_putTag h inner, has_putValue draft h⟩
  | .inline ⟨shape, fields⟩, source, viaAny, tag, h => by
      rw [putValue, List.forall_mem_append]
      exact ⟨has_putReference h viaAny (.inline shape), has_putFields fields
        (has_getD (fun _ hfound => has_inlineLane h hfound) h)⟩

/-- All that `putItems` puts is put in lanes that are there. -/
theorem has_putItems : ∀ (items : List Draft) {source : Lane} {tag : String},
    routing.Has source → ∀ put ∈ routing.putItems source tag items, routing.Has put.lane
  | [], _, _, _ => by simp [putItems]
  | item :: items, source, tag, h => by
      rw [putItems, List.forall_mem_append]
      exact ⟨has_putValue item h, has_putItems items h⟩

/-- All that `putFields` puts is put in lanes that are there. -/
theorem has_putFields : ∀ (fields : List (Field Draft)) {active : Lane} {pinned : Bool}
    {decls : List FieldDecl}, routing.Has active →
      ∀ put ∈ routing.putFields active pinned decls fields, routing.Has put.lane
  | [], _, _, decls, _ => by cases decls <;> simp [putFields]
  | ⟨_, draft⟩ :: fields, active, pinned, [], h => by simp [putFields]
  | ⟨_, draft⟩ :: fields, active, pinned, decl :: decls, h => by
      rw [putFields, List.forall_mem_append]
      exact ⟨has_putValue draft (has_getD (fun _ hfound => has_fieldLane h hfound) h),
        has_putFields fields h⟩

end

theorem has_putTable (objects : List (Object Draft)) :
    ∀ put ∈ routing.putTable objects, routing.Has put.lane := by
  rw [putTable, List.forall_mem_cons]
  refine ⟨trivial, fun put hput => ?_⟩
  obtain ⟨object, -, hput⟩ := List.mem_flatMap.mp hput
  have hown : routing.Has .own := trivial
  rcases List.mem_append.mp hput with hput | hput
  · exact has_putTag hown _ put hput
  · exact has_putFields _ hown put hput

theorem has_putRoot (root : Draft) : ∀ put ∈ routing.putRoot root, routing.Has put.lane :=
  has_putValue root trivial

end Routing

end BinaryAst.Decode
