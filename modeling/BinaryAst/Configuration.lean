import BinaryAst.Wire.Format
import BinaryAst.Error
/-!
# BinaryAst.Configuration

The eleven switches that a container is read with.

Three of the switches fix the layout of primitives (`WireFormat`); the others
decide what the container holds and which stream each part is read from. The
decisions that are drawn from several switches together have a name each, and
nothing else looks at the switches in combination.
-/

namespace BinaryAst

/-- The switches of a container. -/
structure Configuration extends WireFormat where
  /-- An object reference may hold the object itself. -/
  conditionalInlining : Bool := false
  /-- Whether a reference is inline is the low bit of its index. -/
  packedInliningFlags : Bool := false
  /-- Packed indices have a stream of their own. -/
  packedIndexStream : Bool := false
  /-- Type tags have a stream of their own. -/
  typeTagStream : Bool := false
  /-- Field values are kept in one stream per tag. -/
  valueStreamPerType : Bool := false
  /-- Primitive fields of a partitioned inline object stay in their own stream. -/
  noOverridingPrimitiveStream : Bool := false
  /-- All fields of an inline object are kept in the stream of its shape. -/
  partitionedInlining : Bool := false
  /-- A symbol is an index into an interning table, not a text. -/
  internedSymbols : Bool := false
  deriving DecidableEq, Repr

/-- How an object reference says whether it is inline. -/
inductive ReferenceEncoding
  /-- It never is: a reference is a plain index. -/
  | plain
  /-- A flag byte, then a type tag or an index. -/
  | flagged
  /-- One index whose low bit is the flag; whether it has a stream of its own. -/
  | packed (dedicatedStream : Bool)
  deriving DecidableEq, Repr

namespace Configuration

/-! ### Decisions -/

/-- How an object reference says whether it is inline. -/
def referenceEncoding (c : Configuration) : ReferenceEncoding :=
  if !c.conditionalInlining then .plain
  else if !c.packedInliningFlags then .flagged
  else .packed c.packedIndexStream

/-- The container holds a stream of inlining flags. -/
def separatesInliningFlags (c : Configuration) : Bool :=
  c.conditionalInlining && !c.packedInliningFlags

/-- The container holds a stream of packed indices. -/
def separatesPackedIndices (c : Configuration) : Bool :=
  c.packedInliningFlags && c.packedIndexStream

/-- An inline object is read from the stream of its shape. -/
def separatesInlineObjects (c : Configuration) : Bool :=
  c.valueStreamPerType && c.partitionedInlining

/-! ### Flags by name -/

/-- A switch, as a value. -/
inductive Flag
  | enableVarints
  | threeByteIndices
  | nullTerminatedStrings
  | conditionalInlining
  | packedInliningFlags
  | packedIndexStream
  | typeTagStream
  | valueStreamPerType
  | noOverridingPrimitiveStream
  | partitionedInlining
  | internedSymbols
  deriving DecidableEq, Repr

namespace Flag

/-- All flags, in the order in which they are listed. -/
def all : List Flag :=
  [enableVarints, threeByteIndices, nullTerminatedStrings, conditionalInlining,
    packedInliningFlags, packedIndexStream, typeTagStream, valueStreamPerType,
    noOverridingPrimitiveStream, partitionedInlining, internedSymbols]

/-- The name of a flag in configuration files and options. -/
def name : Flag → String
  | enableVarints => "EnableVarints"
  | threeByteIndices => "ThreeByteIndices"
  | nullTerminatedStrings => "NullTerminatedStrings"
  | conditionalInlining => "ConditionalInlining"
  | packedInliningFlags => "PackedInliningFlags"
  | packedIndexStream => "PackedIndexStream"
  | typeTagStream => "TypeTagStream"
  | valueStreamPerType => "ValueStreamPerType"
  | noOverridingPrimitiveStream => "NoOverridingPrimitiveStream"
  | partitionedInlining => "PartitionedInlining"
  | internedSymbols => "InternedSymbols"

/-- The flag of a name. -/
def ofName? (name : String) : Option Flag := all.find? (·.name == name)

theorem mem_all (flag : Flag) : flag ∈ all := by
  cases flag <;> decide

theorem ofName?_name (flag : Flag) : ofName? flag.name = some flag := by
  cases flag <;> decide

theorem name_of_ofName? {name : String} {flag : Flag} (h : ofName? name = some flag) :
    flag.name = name := by
  simpa using List.find?_some h

end Flag

/-- Whether a flag is on. -/
def get (c : Configuration) : Flag → Bool
  | .enableVarints => c.varints
  | .threeByteIndices => c.threeByteIndices
  | .nullTerminatedStrings => c.nullTerminatedStrings
  | .conditionalInlining => c.conditionalInlining
  | .packedInliningFlags => c.packedInliningFlags
  | .packedIndexStream => c.packedIndexStream
  | .typeTagStream => c.typeTagStream
  | .valueStreamPerType => c.valueStreamPerType
  | .noOverridingPrimitiveStream => c.noOverridingPrimitiveStream
  | .partitionedInlining => c.partitionedInlining
  | .internedSymbols => c.internedSymbols

/-- The configuration with one flag turned on or off. -/
def set (c : Configuration) (flag : Flag) (on : Bool) : Configuration :=
  match flag with
  | .enableVarints => { c with varints := on }
  | .threeByteIndices => { c with threeByteIndices := on }
  | .nullTerminatedStrings => { c with nullTerminatedStrings := on }
  | .conditionalInlining => { c with conditionalInlining := on }
  | .packedInliningFlags => { c with packedInliningFlags := on }
  | .packedIndexStream => { c with packedIndexStream := on }
  | .typeTagStream => { c with typeTagStream := on }
  | .valueStreamPerType => { c with valueStreamPerType := on }
  | .noOverridingPrimitiveStream => { c with noOverridingPrimitiveStream := on }
  | .partitionedInlining => { c with partitionedInlining := on }
  | .internedSymbols => { c with internedSymbols := on }

theorem get_set (c : Configuration) (flag other : Flag) (on : Bool) :
    (c.set flag on).get other = if other = flag then on else c.get other := by
  cases flag <;> cases other <;> rfl

theorem get_default (flag : Flag) : ({} : Configuration).get flag = false := by
  cases flag <;> rfl

/-- Two configurations with the same flags on are the same. -/
theorem ext_get {c d : Configuration} (h : ∀ flag, c.get flag = d.get flag) : c = d := by
  obtain ⟨⟨c₁, c₂, c₃⟩, c₄, c₅, c₆, c₇, c₈, c₉, c₁₀, c₁₁⟩ := c
  obtain ⟨⟨d₁, d₂, d₃⟩, d₄, d₅, d₆, d₇, d₈, d₉, d₁₀, d₁₁⟩ := d
  obtain rfl : c₁ = d₁ := h .enableVarints
  obtain rfl : c₂ = d₂ := h .threeByteIndices
  obtain rfl : c₃ = d₃ := h .nullTerminatedStrings
  obtain rfl : c₄ = d₄ := h .conditionalInlining
  obtain rfl : c₅ = d₅ := h .packedInliningFlags
  obtain rfl : c₆ = d₆ := h .packedIndexStream
  obtain rfl : c₇ = d₇ := h .typeTagStream
  obtain rfl : c₈ = d₈ := h .valueStreamPerType
  obtain rfl : c₉ = d₉ := h .noOverridingPrimitiveStream
  obtain rfl : c₁₀ = d₁₀ := h .partitionedInlining
  obtain rfl : c₁₁ = d₁₁ := h .internedSymbols
  rfl

/-- The configuration with the flag of a name turned on or off. -/
def setByName (c : Configuration) (name : String) (on : Bool) :
    Except DecodeError Configuration :=
  match Flag.ofName? name with
  | some flag => .ok (c.set flag on)
  | none => .error (.unknownFlag name)

/-- Turns on the flags of some names, in order. -/
def enableAll (c : Configuration) (names : List String) : Except DecodeError Configuration :=
  names.foldlM (·.setByName · true) c

/-- The names of the flags that are on, in listing order. -/
def flagNames (c : Configuration) : List String := (Flag.all.filter c.get).map Flag.name

end Configuration

end BinaryAst
