import BinaryAst.Configuration
import BinaryAst.Schema
import BinaryAst.Value
import BinaryAst.Decode.Streams
import BinaryAst.Decode.Repeat
import BinaryAst.Decode.Limits
/-!
# BinaryAst.Decode.Object

Decoding values and objects, driven by shapes.

Each decoder here is given the decoder for one nesting level further in, or none
where nesting is at its limit (`Inner`). So a decoder is written without
recursion, a law about all of them is one step, and the recursion is on the number
of levels left, in `value`.
-/

namespace BinaryAst.Decode

variable {n : Nat}

/-- What stays fixed while the sections of a container are decoded. -/
structure Context (n : Nat) where
  configuration : Configuration
  limits : Limits
  schema : Schema
  /-- The tag table. -/
  tags : Array String
  /-- The value stream of each tag, latest registration first. -/
  routes : List (String × Fin n)
  /-- Length of the object table. -/
  objectCount : Nat

/-- The decoder of a value one level further in, by source and tag; `none` where
nothing may nest any further. -/
abbrev Inner (n : Nat) := Option (Source n → String → Step n Value)

/-! ### Tags -/

/-- The tag at an index of the tag table. -/
def tagAt (tags : Array String) (index : Option Nat) : Except DecodeError String :=
  match index.bind (tags[·]?) with
  | some tag => .ok tag
  | none => .error (.invalidTagIndex index tags.size)

/-- The tag at an index of the tag table, as a step. -/
def lookUpTag (ctx : Context n) (index : Option Nat) : Step n String :=
  match tagAt ctx.tags index with
  | .ok tag => pure tag
  | .error e => throw e

/-- A type tag, from the stream of type tags. -/
def typeTag (ctx : Context n) (source : Source n) : Step n String := do
  let (index, stream) ← Step.fromTypeTags source (do return (← Read.index, (← get).description))
  let tag ← lookUpTag ctx index
  Step.tell (.tag stream tag)
  pure tag

/-! ### Object references -/

/-- How an object reference is encoded where it stands. -/
inductive Reference
  /-- No object. -/
  | null
  /-- The object itself, of a known shape. -/
  | inline (shape : String)
  /-- A slot of the object table. -/
  | slot (index : Nat)
  deriving DecidableEq, Repr

/-- The reference that a plain index stands for. -/
def Reference.ofIndex : Option Nat → Reference
  | none => .null
  | some index => .slot index

/-- A reference that is never inline. -/
def plainReference (source : Source n) : Step n Reference :=
  Reference.ofIndex <$> Step.fromSource source Read.index

/-- A reference with its flag in the low bit of an index. -/
def packedReference (ctx : Context n) (source : Source n) : Step n Reference := do
  match ← Step.fromPackedIndices source Read.index with
  | none => pure .null
  | some packed =>
    if packed % 2 = 1 then
      .inline <$> lookUpTag ctx (some (packed / 2))
    else
      pure (.slot (packed / 2))

/-- A reference with a flag byte before it. -/
def flaggedReference (ctx : Context n) (source : Source n) : Step n Reference := do
  let flag ← Step.fromInlining source Read.byte
  if flag = nullMarker then pure .null
  else if flag = 0 then plainReference source
  else .inline <$> typeTag ctx source

/-- A reference. Behind a tag of its own (`viaAny`) it is always a plain index. -/
def reference (ctx : Context n) (source : Source n) (viaAny : Bool) : Step n Reference :=
  if viaAny then plainReference source
  else
    match ctx.configuration.referenceEncoding with
    | .plain => plainReference source
    | .flagged => flaggedReference ctx source
    | .packed _ => packedReference ctx source

/-! ### Arrays -/

/-- The decoder one level further in, where there may be one. -/
def descend (ctx : Context n) : Inner n → Step n (Source n → String → Step n Value)
  | some inner => pure inner
  | none => throw (.depthExceeded ctx.limits.maxDepth)

/-- An array: a length, then one tag for all items when there are any. -/
def array (ctx : Context n) (inner : Inner n) (source : Source n) : Step n Value := do
  let count ← Step.fromSource source Read.varUInt32
  if ctx.limits.maxArrayLength < count then
    throw (.arrayTooLarge count ctx.limits.maxArrayLength)
  else if count = 0 then
    pure (.array [])
  else
    -- The tag is read before the level counts, as for an object.
    let tag ← typeTag ctx source
    let item ← descend ctx inner
    Value.array <$> collect count fun _ => item source tag

/-! ### Objects -/

/-- The stream of the values of a tag. -/
def valueSource (ctx : Context n) (tag : String) : Step n (Source n) :=
  match ctx.routes.lookup tag with
  | some i => pure (.values i)
  | none => throw (.missingValueStream tag)

/-- The source of a field's value. Where all fields of an object are `pinned` to
its own source, a primitive may still be free to leave it; any other field is read
from the stream of its tag, if values are kept by tag. -/
def fieldSource (ctx : Context n) (active : Source n) (pinned : Bool) (tag : String) :
    Step n (Source n) :=
  if pinned && !(ctx.configuration.noOverridingPrimitiveStream && Tag.isPrimitive tag) then
    pure active
  else if ctx.configuration.valueStreamPerType then valueSource ctx tag
  else pure active

/-- The value of a field. -/
def fieldValue (ctx : Context n) (inner : Source n → String → Step n Value)
    (active : Source n) (pinned : Bool) (shape : Shape) (field : FieldDecl) :
    Step n Value := do
  let tag := ctx.schema.fieldTag field
  let source ← fieldSource ctx active pinned tag
  Step.tell (.field shape.name field.name (← Step.description source) (source != active))
  inner source tag

/-- A step whose failure is put down to a field. -/
def inField {α : Type} (shape field : String) (step : Step n α) : Step n α := fun s =>
  match step s with
  | .ok value s => .ok value s
  | .error e s => .error (.field shape field e) s

/-- The fields of an object, in declared order. -/
def fields (ctx : Context n) (inner : Source n → String → Step n Value) (active : Source n)
    (pinned : Bool) (shape : Shape) : Step n ObjectValue := do
  let fields ← shape.fields.mapM fun field =>
    inField shape.name field.name do
      return ⟨field.name, ← fieldValue ctx inner active pinned shape field⟩
  pure ⟨shape.name, fields⟩

/-- The shape of a tag. -/
def lookUpShape (ctx : Context n) (tag : String) : Step n Shape :=
  match ctx.schema.shape? tag with
  | some shape => pure shape
  | none => throw (.unknownShape tag)

/-- An object in the object table: its type tag, then its fields. -/
def tableObject (ctx : Context n) (inner : Inner n) (source : Source n) :
    Step n ObjectValue := do
  let shape ← lookUpShape ctx (← typeTag ctx source)
  fields ctx (← descend ctx inner) source false shape

/-- An object in the place of a reference to it. Its fields are read where the
reference was, or from the stream of its shape. -/
def inlineObject (ctx : Context n) (inner : Inner n) (source : Source n) (tag : String) :
    Step n ObjectValue := do
  let shape ← lookUpShape ctx tag
  let pinned := ctx.configuration.separatesInlineObjects
  let active ← if pinned then valueSource ctx tag else pure source
  Step.tell (.inline tag (← Step.description active))
  fields ctx (← descend ctx inner) active pinned shape

/-- A reference to a slot, which has to be in the table. -/
def slotValue (ctx : Context n) (index : Nat) : Step n Value :=
  if index < ctx.objectCount then pure (.ref index)
  else throw (.invalidObjectIndex index ctx.objectCount)

/-- A value of an object tag. -/
def objectValue (ctx : Context n) (inner : Inner n) (source : Source n) (tag : String)
    (viaAny : Bool) : Step n Value := do
  -- The declared tag is checked first; an inline object may have another shape.
  if tag ≠ Tag.object ∧ !ctx.schema.contains tag then
    throw (.unknownShape tag)
  else
    match ← reference ctx source viaAny with
    | .null => pure .null
    | .inline shape => Value.inline <$> inlineObject ctx inner source shape
    | .slot index => slotValue ctx index

/-! ### Values -/

/-- A symbol: an index where symbols are interned, else a text. -/
def symbolValue (ctx : Context n) (source : Source n) : Step n Value :=
  if ctx.configuration.internedSymbols then
    (·.elim .null .internedSymbol) <$> Step.fromSource source Read.index
  else
    (·.elim .null .symbol) <$> Step.fromSource source Read.string

/-- A value of a tag other than `any`. -/
def taggedValue (ctx : Context n) (inner : Inner n) (source : Source n) (tag : String)
    (viaAny : Bool) : Step n Value :=
  match Tag.kind tag with
  | .any => throw .nestedAny
  | .symbol => symbolValue ctx source
  | .string => (·.elim .null .string) <$> Step.fromSource source Read.string
  | .boolean => (Value.bool <| · ≠ 0) <$> Step.fromSource source Read.byte
  | .integer => .integer <$> Step.fromSource source Read.int32
  | .double => .double <$> Step.fromSource source Read.binary64
  | .array => array ctx inner source
  | .object => objectValue ctx inner source tag viaAny

/-- A value of any tag, given the decoder one level further in. The tag `any` is
replaced by the type tag that precedes the value. -/
def valueWithin (ctx : Context n) (inner : Inner n) (source : Source n) (tag : String) :
    Step n Value := do
  if Tag.kind tag = .any then
    taggedValue ctx inner source (← typeTag ctx source) true
  else
    taggedValue ctx inner source tag false

/-- A value around which `levels` more objects and arrays may nest. -/
def value (ctx : Context n) : (levels : Nat) → Source n → String → Step n Value
  | 0 => valueWithin ctx none
  | levels + 1 => valueWithin ctx (some (value ctx levels))

/-- The decoder for what lies one level further in, with `levels` left. -/
def innerAt (ctx : Context n) : (levels : Nat) → Inner n
  | 0 => none
  | levels + 1 => some (value ctx levels)

/-! ### Sections -/

/-- The object table: its length, then its objects in the order of their slots. -/
def objectTable (ctx : Context n) : Step n (List ObjectValue) := do
  let count ← Step.fromSource .own Read.uint32
  if count = ctx.objectCount then
    collect count fun slot => do
      let object ← tableObject ctx (innerAt ctx ctx.limits.maxDepth) .own
      Step.tell (.slot slot object.shape)
      pure object
  else
    throw (.objectCountMismatch count ctx.objectCount)

/-- The root: a value that brings its own tag and is not null. -/
def root (ctx : Context n) : Step n Value := do
  let root ← value ctx ctx.limits.maxDepth .own Tag.any
  if root.isNull then throw .nullRoot else pure root

end BinaryAst.Decode
