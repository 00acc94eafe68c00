import BinaryAst.Decode.Object
import BinaryAst.Proofs.Conformance
import BinaryAst.Proofs.Decode.Log
/-!
# BinaryAst.Proofs.Decode.Grammar

The grammar of encoded values, `Encodes`: which log a value has, given its tag and the stream it
is read from.

The rules know nothing of readers or of the order in which streams are advanced; a rule names
the bytes that each part of a value is spelled by, and the stream they are in. Limits are no
part of the grammar either: a value has its logs however deeply it nests.
-/

namespace BinaryAst.Decode

/-- What decides in which stream each part of a value is. -/
structure Routing extends Setting where
  /-- The value stream of a tag. -/
  route : String → Option Nat

namespace Routing

variable (routing : Routing)

/-- The layout of primitives. -/
def format : WireFormat := routing.configuration.toWireFormat

/-- Where type tags are. -/
def typeTagLane (source : Lane) : Lane :=
  if routing.configuration.typeTagStream then .typeTags else source

/-- Where the flags of object references are. -/
def inliningLane (source : Lane) : Lane :=
  if routing.configuration.separatesInliningFlags then .inlining else source

/-- Where packed indices are. -/
def packedLane (source : Lane) : Lane :=
  if routing.configuration.separatesPackedIndices then .packedIndices else source

/-- The value stream of a tag, where it has one. -/
def valueLane (tag : String) : Option Lane := (routing.route tag).map .values

/-- Where the fields of an inline object are. -/
def inlineLane (source : Lane) (shape : String) : Option Lane :=
  if routing.configuration.separatesInlineObjects then routing.valueLane shape else some source

/-- Where the value of a field is. -/
def fieldLane (active : Lane) (pinned : Bool) (tag : String) : Option Lane :=
  if pinned && !(routing.configuration.noOverridingPrimitiveStream && Tag.isPrimitive tag) then
    some active
  else if routing.configuration.valueStreamPerType then routing.valueLane tag
  else some active

end Routing

/-- What the encoding of a value is relative to. -/
structure Site extends Routing where
  /-- The description of each stream. -/
  describe : Lane → String

namespace Site

variable (site : Site)

/-- An index is spelled by these bytes. -/
def SpellsIndex (bytes : Bytes) (index : Option Nat) : Prop :=
  Read.Spells site.format Read.index bytes index

/-- The event of a type tag. -/
def tagEvent (source : Lane) (tag : String) : Event :=
  .tag (site.describe (site.typeTagLane source)) tag

/-- The event of an inline object. -/
def inlineEvent (active : Lane) (shape : String) : Event :=
  .inline shape (site.describe active)

/-- The event of a field. -/
def fieldEvent (shape field : String) (active source : Lane) : Event :=
  .field shape field (site.describe source) (source != active)

/-- A type tag: an index of the tag table. -/
inductive TypeTag (source : Lane) : String → Log → Prop
  | intro {index bytes tag} : site.SpellsIndex bytes (some index) →
      site.tags[index]? = some tag →
      TypeTag source tag [.take (site.typeTagLane source) bytes, .tell (site.tagEvent source tag)]

/-- A reference that is a plain index. -/
inductive PlainReference (source : Lane) : Reference → Log → Prop
  | intro {index bytes} : site.SpellsIndex bytes index →
      PlainReference source (.ofIndex index) [.take source bytes]

/-- A reference with its flag in the low bit of an index. -/
inductive PackedReference (source : Lane) : Reference → Log → Prop
  | null {bytes} : site.SpellsIndex bytes none →
      PackedReference source .null [.take (site.packedLane source) bytes]
  | inline {packed bytes shape} : site.SpellsIndex bytes (some packed) → packed % 2 = 1 →
      site.tags[packed / 2]? = some shape →
      PackedReference source (.inline shape) [.take (site.packedLane source) bytes]
  | slot {packed bytes} : site.SpellsIndex bytes (some packed) → packed % 2 ≠ 1 →
      PackedReference source (.slot (packed / 2)) [.take (site.packedLane source) bytes]

/-- A reference with a flag byte before it. -/
inductive FlaggedReference (source : Lane) : Reference → Log → Prop
  | null : FlaggedReference source .null [.take (site.inliningLane source) [nullMarker]]
  | plain {reference log} : PlainReference site source reference log →
      FlaggedReference source reference (.take (site.inliningLane source) [0] :: log)
  | inline {flag shape log} : flag ≠ nullMarker → flag ≠ 0 → TypeTag site source shape log →
      FlaggedReference source (.inline shape) (.take (site.inliningLane source) [flag] :: log)

/-- A reference; behind a tag of its own it is a plain index. -/
def EncodesReference (source : Lane) (viaAny : Bool) (reference : Reference) (log : Log) : Prop :=
  if viaAny then site.PlainReference source reference log
  else
    match site.configuration.referenceEncoding with
    | .plain => site.PlainReference source reference log
    | .flagged => site.FlaggedReference source reference log
    | .packed _ => site.PackedReference source reference log

/-- A symbol, by its index or as a text. -/
inductive SpellsSymbol : Value → Bytes → Prop
  | interned {bytes index} : site.configuration.internedSymbols = true →
      site.SpellsIndex bytes index → SpellsSymbol (index.elim .null .internedSymbol) bytes
  | text {bytes text} : site.configuration.internedSymbols = false →
      Read.Spells site.format Read.string bytes text →
      SpellsSymbol (text.elim .null .symbol) bytes

/-- A single scalar, by the bytes that spell it. -/
inductive SpellsScalar : Tag.Kind → Value → Bytes → Prop
  | symbol {value bytes} : site.SpellsSymbol value bytes → SpellsScalar .symbol value bytes
  | string {bytes text} : Read.Spells site.format Read.string bytes text →
      SpellsScalar .string (text.elim .null .string) bytes
  | boolean {bytes} {byte : UInt8} : Read.Spells site.format Read.byte bytes byte →
      SpellsScalar .boolean (.bool (byte ≠ 0)) bytes
  | integer {bytes value} : Read.Spells site.format Read.int32 bytes value →
      SpellsScalar .integer (.integer value) bytes
  | double {bytes value} : Read.Spells site.format Read.binary64 bytes value →
      SpellsScalar .double (.double value) bytes

end Site

mutual

/-- A value in the place of a tag. The tag `any` is replaced by a tag of the value's
own. -/
inductive Encodes (site : Site) : Lane → String → Value → Log → Prop
  | any {source tag inner value log more} : Tag.kind tag = .any →
      site.TypeTag source inner log → EncodesAs site true source inner value more →
      Encodes site source tag value (log ++ more)
  | declared {source tag value log} : Tag.kind tag ≠ .any →
      EncodesAs site false source tag value log → Encodes site source tag value log

/-- A value of a tag other than `any`, which may come from the value itself. -/
inductive EncodesAs (site : Site) : Bool → Lane → String → Value → Log → Prop
  | scalar {viaAny source tag value bytes} : site.SpellsScalar (Tag.kind tag) value bytes →
      EncodesAs site viaAny source tag value [.take source bytes]
  | emptyArray {viaAny source tag bytes} : Tag.kind tag = .array →
      Read.Spells site.format Read.varUInt32 bytes 0 →
      EncodesAs site viaAny source tag (.array []) [.take source bytes]
  /-- A length, then one tag for all items. -/
  | array {viaAny source tag inner items bytes log more} : Tag.kind tag = .array →
      items ≠ [] → Read.Spells site.format Read.varUInt32 bytes items.length →
      site.TypeTag source inner log → EncodesItems site source inner items more →
      EncodesAs site viaAny source tag (.array items) (.take source bytes :: (log ++ more))
  | null {viaAny source tag log} : site.IsReferenceTag tag →
      site.EncodesReference source viaAny .null log →
      EncodesAs site viaAny source tag .null log
  | ref {viaAny source tag slot log} : site.IsReferenceTag tag →
      site.EncodesReference source viaAny (.slot slot) log → slot < site.slots →
      EncodesAs site viaAny source tag (.ref slot) log
  | inline {viaAny source tag name shape active fields log more} : site.IsReferenceTag tag →
      site.EncodesReference source viaAny (.inline name) log →
      site.schema.shape? name = some shape → site.inlineLane source name = some active →
      EncodesFields site active site.configuration.separatesInlineObjects shape.name
        shape.fields fields more →
      EncodesAs site viaAny source tag (.inline ⟨shape.name, fields⟩)
        (log ++ .tell (site.inlineEvent active name) :: more)

/-- The items of an array, all in the place of one tag. -/
inductive EncodesItems (site : Site) : Lane → String → List Value → Log → Prop
  | nil {source tag} : EncodesItems site source tag [] []
  | cons {source tag item items log more} : Encodes site source tag item log →
      EncodesItems site source tag items more →
      EncodesItems site source tag (item :: items) (log ++ more)

/-- The fields of an object whose fields are read from `active`, unless a field is kept
elsewhere. -/
inductive EncodesFields (site : Site) :
    Lane → Bool → String → List FieldDecl → List (Field Value) → Log → Prop
  | nil {active pinned shape} : EncodesFields site active pinned shape [] [] []
  | cons {active pinned shape source} {decl : FieldDecl} {decls value fields log more} :
      site.fieldLane active pinned (site.schema.fieldTag decl) = some source →
      Encodes site source (site.schema.fieldTag decl) value log →
      EncodesFields site active pinned shape decls fields more →
      EncodesFields site active pinned shape (decl :: decls) (⟨decl.name, value⟩ :: fields)
        (.tell (site.fieldEvent shape decl.name active source) :: (log ++ more))

end

/-- An object of the object table, which brings its own tag. -/
inductive EncodesObject (site : Site) : ObjectValue → Log → Prop
  | intro {tag shape fields log more} : site.TypeTag .own tag log →
      site.schema.shape? tag = some shape →
      EncodesFields site .own false shape.name shape.fields fields more →
      EncodesObject site ⟨shape.name, fields⟩ (log ++ more)

/-- The objects of an object table from a slot on, each followed by its event. -/
inductive EncodesSlots (site : Site) : Nat → List ObjectValue → Log → Prop
  | nil {slot} : EncodesSlots site slot [] []
  | cons {slot object objects log more} : EncodesObject site object log →
      EncodesSlots site (slot + 1) objects more →
      EncodesSlots site slot (object :: objects) (log ++ .tell (.slot slot object.shape) :: more)

/-- An object table: the number of objects, then the objects. -/
inductive EncodesTable (site : Site) : List ObjectValue → Log → Prop
  | intro {objects bytes log} : Read.Spells site.format Read.uint32 bytes objects.length →
      objects.length = site.slots → EncodesSlots site 0 objects log →
      EncodesTable site objects (.take .own bytes :: log)

/-- A root: a value of a tag of its own that is not null. -/
inductive EncodesRoot (site : Site) : Value → Log → Prop
  | intro {value log} : Encodes site .own Tag.any value log → value.isNull = false →
      EncodesRoot site value log

end BinaryAst.Decode
