import BinaryAst.Configuration
import BinaryAst.Proofs.Normal.Mirror
import BinaryAst.Wire.Header
/-!
# BinaryAst.Proofs.Normal.Format

The normal form of a configuration (`Configuration.normalize`), and of the readers that are made
for it.

Some switches say nothing beside others: the width of indices where they are base-128 groups, a
stream of packed indices where flags are not packed, and so on. The normal form has them off.
Readers carry the layout of primitives with them, and no read can tell a layout from its normal
form (`Read.Blind`).
-/

namespace BinaryAst

/-! ### Normal forms -/

/-- The layout without a width of indices that is overridden. -/
def WireFormat.normalize (format : WireFormat) : WireFormat :=
  { format with threeByteIndices := format.threeByteIndices && !format.varints }

/-- `indexEncoding` looks at the width of indices only where there are no base-128 groups, so
switching it off beside them changes no encoding. -/
@[simp] theorem WireFormat.indexEncoding_normalize (format : WireFormat) :
    format.normalize.indexEncoding = format.indexEncoding := by
  obtain ⟨varints, threeByteIndices, _⟩ := format
  cases varints <;> cases threeByteIndices <;> rfl

@[simp] theorem WireFormat.stringEncoding_normalize (format : WireFormat) :
    format.normalize.stringEncoding = format.stringEncoding := rfl

namespace Configuration

/-- The configuration without the switches that say nothing beside the others: the width of
indices with base-128 groups, a stream of packed indices without packed flags, packed flags
with neither inline objects nor packed indices, partitions without inline objects or without
value streams, and the exception from partitions without partitions. -/
def normalize (c : Configuration) : Configuration where
  toWireFormat := c.toWireFormat.normalize
  conditionalInlining := c.conditionalInlining
  packedInliningFlags :=
    c.packedInliningFlags && (c.conditionalInlining || c.packedIndexStream)
  packedIndexStream := c.packedIndexStream && c.packedInliningFlags
  typeTagStream := c.typeTagStream
  valueStreamPerType := c.valueStreamPerType
  noOverridingPrimitiveStream := c.noOverridingPrimitiveStream &&
    (c.conditionalInlining && c.valueStreamPerType && c.partitionedInlining)
  partitionedInlining :=
    c.partitionedInlining && (c.conditionalInlining && c.valueStreamPerType)
  internedSymbols := c.internedSymbols

variable (c : Configuration)

/-- `referenceEncoding` is what it was: where flags are not packed any more, nothing was read by
them. -/
theorem referenceEncoding_normalize : c.normalize.referenceEncoding = c.referenceEncoding := by
  obtain ⟨_, inlining, packed, stream, _⟩ := c
  cases inlining <;> cases packed <;> cases stream <;> rfl

/-- There is a stream of inlining flags where there was one. -/
theorem separatesInliningFlags_normalize :
    c.normalize.separatesInliningFlags = c.separatesInliningFlags := by
  obtain ⟨_, inlining, packed, _⟩ := c
  cases inlining <;> cases packed <;> rfl

/-- There is a stream of packed indices where there was one. -/
theorem separatesPackedIndices_normalize :
    c.normalize.separatesPackedIndices = c.separatesPackedIndices := by
  obtain ⟨_, inlining, packed, stream, _⟩ := c
  cases inlining <;> cases packed <;> cases stream <;> rfl

variable {c}

/-- With `conditionalInlining`, inline objects are kept apart where they were. -/
theorem separatesInlineObjects_normalize (h : c.conditionalInlining = true) :
    c.normalize.separatesInlineObjects = c.separatesInlineObjects := by
  simp only [separatesInlineObjects, normalize, h]
  cases c.valueStreamPerType <;> cases c.partitionedInlining <;> rfl

/-- With inline objects kept apart, the exception of primitives from that,
`noOverridingPrimitiveStream`, is what it was. -/
theorem noOverridingPrimitiveStream_normalize (h : c.conditionalInlining = true)
    (hpartitions : c.separatesInlineObjects = true) :
    c.normalize.noOverridingPrimitiveStream = c.noOverridingPrimitiveStream := by
  obtain ⟨hvalues, hpartitioned⟩ := Bool.and_eq_true_iff.mp hpartitions
  simp [normalize, h, hvalues, hpartitioned]

end Configuration

/-! ### Reads -/

/-- The reader in the normal form of its layout. -/
def Reader.normalize (r : Reader) : Reader := { r with format := r.format.normalize }

namespace Read

variable {α β γ : Type}

/-- The read does not tell a layout from its normal form: from the normal form of a reader it gives
the image under `g` of what it gives from the reader, which may itself be a reader. -/
abbrev Blind (g : α → β) (x : Read α) (y : Read β) : Prop := Mirrors Reader.normalize g x y

/-- `ofCursor` does not see the layout at all. -/
theorem blind_ofCursor (need : Nat) (op : Cursor → Option (α × Cursor)) :
    Blind id (ofCursor need op) (ofCursor need op) := by
  intro r
  unfold ofCursor
  rw [show r.normalize.cursor = r.cursor from rfl]
  cases op r.cursor <;> rfl

theorem blind_byte : Blind id byte byte := blind_ofCursor _ _

theorem blind_bytes (count : Nat) : Blind id (bytes count) (bytes count) := blind_ofCursor _ _

theorem blind_unsigned (width : Nat) : Blind id (unsigned width) (unsigned width) :=
  (blind_bytes width).map fun _ => rfl

theorem blind_int32 : Blind id int32 int32 := (blind_unsigned 4).map fun _ => rfl

theorem blind_binary64 : Blind id binary64 binary64 := (blind_unsigned 8).map fun _ => rfl

theorem blind_overflow (start : Nat) : Blind id (overflow start : Read α) (overflow start) :=
  .get_bind fun _ => .throw _

theorem blind_unsignedGroups (start left shift sum : Nat) :
    Blind id (unsignedGroups start left shift sum) (unsignedGroups start left shift sum) := by
  induction left generalizing shift sum with
  | zero => exact blind_overflow start
  | succ left ih =>
      exact blind_byte.bind fun group => .ite .rfl (fun _ => blind_overflow start) fun _ =>
        .ite .rfl (fun _ => ih _ _) fun _ => .pure rfl

/-- Counts look at `indexEncoding`, which the normal form keeps. -/
theorem blind_varUInt32 : Blind id varUInt32 varUInt32 := by
  refine .get_bind fun r => ?_
  rw [show r.normalize.format.indexEncoding = r.format.indexEncoding
    from r.format.indexEncoding_normalize]
  cases r.format.indexEncoding with
  | leb128 => exact .get_bind fun _ => blind_unsignedGroups _ _ _ _
  | fixed24 => exact blind_unsigned 3
  | fixed32 => exact blind_unsigned 4

theorem blind_index : Blind id index index := blind_varUInt32.map fun _ => rfl

/-- Payloads look at `stringEncoding`, which the normal form keeps. -/
theorem blind_stringPayload : Blind id stringPayload stringPayload := by
  refine .get_bind fun r => ?_
  rw [show r.normalize.format.stringEncoding = r.format.stringEncoding
    from r.format.stringEncoding_normalize]
  cases r.format.stringEncoding with
  | lengthPrefixed =>
      refine blind_index.bind fun length => ?_
      cases length with
      | none => exact .pure rfl
      | some length => exact (blind_bytes length).map fun _ => rfl
  | nullTerminated =>
      exact .get_bind fun r => .ite .rfl (fun _ => (blind_ofCursor _ _).bind fun _ => .pure rfl)
        fun _ => (blind_ofCursor _ _).map fun _ => rfl

theorem blind_string : Blind id string string := by
  refine .get_bind fun _ => blind_stringPayload.bind fun payload => ?_
  cases payload with
  | none => exact .pure rfl
  | some payload =>
      dsimp only [id]
      cases Bytes.toText? payload with
      | some text => exact .pure rfl
      | none => exact .get_bind fun _ => .throw _

theorem blind_header : Blind id Header.read Header.read :=
  .get_bind fun _ => (blind_bytes _).bind fun _ => .ite .rfl
    (fun _ => (blind_unsigned 4).bind fun _ => (blind_unsigned 4).bind fun _ => .pure rfl)
    fun _ => .throw _

/-- `substream` gives its reader the layout of the reader around it, and so its normal form. -/
theorem blind_substream : Blind Reader.normalize substream substream :=
  blind_string.bind fun _ => (blind_unsigned 4).bind fun _ => .get_bind fun _ =>
    (blind_bytes _).bind fun _ => (blind_unsigned 4).bind fun _ =>
      .ite .rfl (fun _ => .get_bind fun _ => .pure rfl) fun _ => .throw _

end Read

end BinaryAst
