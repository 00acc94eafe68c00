import BinaryAst.Proofs.Wire.Header
import Mathlib.Tactic.Ring
/-!
# BinaryAst.Proofs.Wire.Written

What is written is read back.

Each primitive is spelled, for the read that goes with it, by the bytes that are written
for it. A number has to fit its encoding, and a text that ends at a zero byte has to be
without one; `WriteStep.Fits` collects these conditions for a whole program.
-/

namespace BinaryAst

namespace WireFormat

/-- The numbers that an index encoding has room for lie below this one. -/
def indexBound (format : WireFormat) : Nat :=
  match format.indexEncoding with
  | .fixed24 => 2 ^ 24
  | .leb128 | .fixed32 => 2 ^ 32

/-- A string can be laid out in the format: its length fits the index in front of it, or it has no
zero character in it. The null string always can. -/
def Holds (format : WireFormat) : Option String → Prop
  | none => True
  | some text =>
    match format.stringEncoding with
    | .lengthPrefixed => (Bytes.ofText text).length + 1 < format.indexBound
    | .nullTerminated => Char.ofNat 0 ∉ text.toList

instance (format : WireFormat) : (value : Option String) → Decidable (format.Holds value)
  | none => inferInstanceAs (Decidable True)
  | some text =>
    match h : format.stringEncoding with
    | .lengthPrefixed =>
      decidable_of_iff ((Bytes.ofText text).length + 1 < format.indexBound) (by rw [Holds, h])
    | .nullTerminated => decidable_of_iff (Char.ofNat 0 ∉ text.toList) (by rw [Holds, h])

/-- Every format `Holds` a short text without a zero character. -/
theorem holds_of_short (format : WireFormat) {text : String}
    (hlength : (Bytes.ofText text).length + 1 < 2 ^ 24) (hzero : Char.ofNat 0 ∉ text.toList) :
    format.Holds (some text) := by
  unfold Holds indexBound
  dsimp only
  split
  · split <;> omega
  · exact hzero

/-- Every format `Holds` the description of the tag table. -/
theorem holds_tags (format : WireFormat) : format.Holds (some "tags") :=
  format.holds_of_short (by decide) (by decide)

end WireFormat

/-! ### Text in UTF-8 -/

namespace Bytes

/-- `ofText` is the encoding of the characters, one after the other. -/
theorem ofText_eq (text : String) : ofText text = text.toList.flatMap String.utf8EncodeChar := by
  rw [ofText, ← String.utf8Encode_toList, List.utf8Encode]
  simp

theorem ofNat_ne_nullMarker {value : Nat} (h : value < 255) : UInt8.ofNat value ≠ nullMarker := by
  intro heq
  have : value % 256 = 255 := by
    simpa [nullMarker] using congrArg UInt8.toNat heq
  omega

theorem ofNat_ne_zero {value : Nat} (hpos : 0 < value) (h : value < 256) :
    UInt8.ofNat value ≠ 0 := by
  intro heq
  have : value % 256 = 0 := by
    simpa using congrArg UInt8.toNat heq
  omega

/-- No byte of a character in UTF-8 is the `nullMarker`, and only the zero character has a zero
byte. -/
theorem of_mem_utf8EncodeChar {char : Char} {byte : UInt8}
    (h : byte ∈ String.utf8EncodeChar char) :
    byte ≠ nullMarker ∧ (byte = 0 → char = Char.ofNat 0) := by
  -- each byte of a longer sequence has a marker `low` above its share of the bits
  have hlong : ∀ value bound low, byte = UInt8.ofNat (value % bound + low) → 0 < bound → 0 < low →
      bound + low ≤ 255 → byte ≠ nullMarker ∧ (byte = 0 → char = Char.ofNat 0) := by
    rintro value bound low rfl hbound hlow hle
    have := Nat.mod_lt value hbound
    exact ⟨ofNat_ne_nullMarker (by omega), fun h => absurd h (ofNat_ne_zero (by omega) (by omega))⟩
  unfold String.utf8EncodeChar at h
  dsimp only at h
  split at h
  · obtain rfl := List.mem_singleton.mp h
    refine ⟨ofNat_ne_nullMarker (by omega), fun hzero => ?_⟩
    by_cases hval : char.val.toNat = 0
    · exact Char.ext (UInt32.toNat_inj.mp hval)
    · exact absurd hzero (ofNat_ne_zero (by omega) (by omega))
  split at h
  · simp only [List.mem_cons, List.not_mem_nil, or_false] at h
    rcases h with h | h <;> exact hlong _ _ _ h (by decide) (by decide) (by decide)
  split at h
  · simp only [List.mem_cons, List.not_mem_nil, or_false] at h
    rcases h with h | h | h <;> exact hlong _ _ _ h (by decide) (by decide) (by decide)
  · simp only [List.mem_cons, List.not_mem_nil, or_false] at h
    rcases h with h | h | h | h <;> exact hlong _ _ _ h (by decide) (by decide) (by decide)

/-- A text without the zero character has no zero byte in `ofText`, so it may be ended by one. -/
theorem zero_notMem_ofText {text : String} (h : Char.ofNat 0 ∉ text.toList) : 0 ∉ ofText text := by
  rw [ofText_eq]
  intro hmem
  obtain ⟨char, hchar, hzero⟩ := List.mem_flatMap.mp hmem
  obtain rfl := (of_mem_utf8EncodeChar hzero).2 rfl
  exact h hchar

/-- No text has `nullMarker` in it, so none starts like the null string. -/
theorem nullMarker_notMem_ofText (text : String) : nullMarker ∉ ofText text := by
  rw [ofText_eq]
  intro hmem
  obtain ⟨char, -, hmark⟩ := List.mem_flatMap.mp hmem
  exact (of_mem_utf8EncodeChar hmark).1 rfl

end Bytes

namespace Write

variable {format : WireFormat}

/-! ### Integers -/

theorem spells_byte (value : UInt8) : Read.Spells format Read.byte [value] value :=
  Read.spells_byte_iff.mpr rfl

/-- A number that fits its width is spelled by its `Bytes.ofNat` of that width. -/
theorem spells_unsigned {width value : Nat} (h : value < 256 ^ width) :
    Read.Spells format (Read.unsigned width) (Bytes.ofNat width value) value :=
  Read.spells_unsigned_iff.mpr
    ⟨Bytes.length_ofNat width value, by rw [Bytes.toNat_ofNat, Nat.mod_eq_of_lt h]⟩

/-- `int32` spells a signed number, as the word with its bits. -/
theorem spells_int32 (value : Int32) : Read.Spells format Read.int32 (int32 value) value := by
  have hbits : Read.Spells format (Read.unsigned 4) (int32 value) value.toUInt32.toNat :=
    spells_unsigned value.toUInt32.toNat_lt
  have h := hbits.map fun value => (UInt32.ofNat value).toInt32
  rwa [UInt32.ofNat_toNat] at h

theorem spells_binary64 (value : Binary64) :
    Read.Spells format Read.binary64 (binary64 value) value := by
  have hbits : Read.Spells format (Read.unsigned 8) (binary64 value) value.bits.toNat :=
    spells_unsigned value.bits.toNat_lt
  have h := hbits.map fun value => (⟨UInt64.ofNat value⟩ : Binary64)
  rwa [UInt64.ofNat_toNat] at h

/-- `lebUnsigned` of a number below 128 is a single group. -/
theorem lebUnsigned_of_lt {value : Nat} (h : value < 128) :
    lebUnsigned value = [UInt8.ofNat value] := by
  rw [lebUnsigned, if_pos h]

/-- `lebUnsigned` of any other number starts with its low seven bits, and goes on with the rest. -/
theorem lebUnsigned_of_le {value : Nat} (h : 128 ≤ value) :
    lebUnsigned value = continued (value % 128) :: lebUnsigned (value / 128) := by
  rw [lebUnsigned, if_neg (by omega)]

/-- The last group of a number, for `unsignedGroups`. Where no further group is allowed (`left =
0`), it has room for four bits only. -/
theorem spells_lastGroup {start left shift sum value : Nat} (h : value < 128)
    (hroom : left = 0 → value ≤ 15) :
    Read.Spells format (Read.unsignedGroups start (left + 1) shift sum) [UInt8.ofNat value]
      (sum + value * 2 ^ shift) := by
  have hnat : (UInt8.ofNat value).toNat = value := by
    rw [UInt8.toNat_ofNat']
    omega
  refine (spells_byte (UInt8.ofNat value)).bind ?_
  dsimp only
  rw [hnat, Nat.mod_eq_of_lt h, if_neg (by omega), if_neg]
  · rw [Nat.shiftLeft_eq]
    exact .pure _
  · simp only [Read.continues, decide_eq_true_eq, UInt8.le_iff_toNat_le, hnat]
    exact Nat.not_le.mpr h

/-- A group that `continued` marks: `unsignedGroups` reads the rest on top of it, seven bits up. -/
theorem spells_continued {start left shift sum bits value : Nat} {rest : Bytes} (h : bits < 128)
    (hrest : Read.Spells format
      (Read.unsignedGroups start (left + 1) (shift + 7) (sum + bits * 2 ^ shift)) rest value) :
    Read.Spells format (Read.unsignedGroups start (left + 2) shift sum) (continued bits :: rest)
      value := by
  have hnat : (continued bits).toNat = bits + 128 := by
    rw [continued, UInt8.toNat_ofNat']
    omega
  refine (spells_byte (continued bits)).bind ?_
  dsimp only
  rw [hnat, Nat.add_mod_right, Nat.mod_eq_of_lt h, if_neg (by omega), if_pos]
  · rw [Nat.shiftLeft_eq]
    exact hrest
  · simp only [Read.continues, decide_eq_true_eq, UInt8.le_iff_toNat_le, hnat]
    exact Nat.le_add_left 128 bits

/-- The groups of `Write.lebUnsigned`, read on top of what was read before. With `left` groups to
follow there are seven bits for each but the last, which has room for four. By induction on `left`.
-/
theorem spells_unsignedGroups {start left shift sum value : Nat} (h : value < 2 ^ (7 * left + 4)) :
    Read.Spells format (Read.unsignedGroups start (left + 1) shift sum) (lebUnsigned value)
      (sum + value * 2 ^ shift) := by
  induction left generalizing shift sum value with
  | zero =>
      rw [lebUnsigned_of_lt (by omega)]
      exact spells_lastGroup (by omega) (by omega)
  | succ left ih =>
      -- seven bits go into this group, the others are left to the next ones
      by_cases hlast : value < 128
      · rw [lebUnsigned_of_lt hlast]
        exact spells_lastGroup hlast (by omega)
      · rw [lebUnsigned_of_le (by omega)]
        have hpow : 2 ^ (7 * (left + 1) + 4) = 128 * 2 ^ (7 * left + 4) := by
          rw [show 7 * (left + 1) + 4 = 7 + (7 * left + 4) by omega, Nat.pow_add]
        have hsum : sum + value * 2 ^ shift =
            sum + value % 128 * 2 ^ shift + value / 128 * 2 ^ (shift + 7) := by
          have hvalue := Nat.mod_add_div value 128
          calc sum + value * 2 ^ shift
              = sum + (value % 128 + 128 * (value / 128)) * 2 ^ shift := by rw [hvalue]
            _ = sum + value % 128 * 2 ^ shift + value / 128 * 2 ^ (shift + 7) := by
                ring
        rw [hsum]
        exact spells_continued (Nat.mod_lt _ (by decide)) (ih (by omega))

/-- `lebUnsigned` spells any number of 32 bits; its groups are five at most. -/
theorem spells_lebUnsigned {value : Nat} (h : value < 2 ^ 32) :
    Read.Spells format Read.lebUnsigned (lebUnsigned value) value := by
  intro r hr hp
  have hgroups : Read.Spells format (Read.unsignedGroups r.offset Read.maxGroups 0 0)
      (lebUnsigned value) (0 + value * 2 ^ 0) := spells_unsignedGroups h
  rw [Nat.zero_add, Nat.pow_zero, Nat.mul_one] at hgroups
  rw [Read.lebUnsigned, get_bind_eq]
  exact hgroups r hr hp

/-! ### Counts, indices and strings -/

/-- A count below `WireFormat.indexBound` is spelled in the layout of the format. -/
theorem spells_varUInt32 {value : Nat} (h : value < format.indexBound) :
    Read.Spells format Read.varUInt32 (varUInt32 format value) value := by
  intro r hr hp
  rw [Read.varUInt32_eq hr]
  unfold WireFormat.indexBound at h
  unfold varUInt32 at hp ⊢
  unfold Read.varUInt32In
  cases hf : format.indexEncoding with
  | leb128 =>
      simp only [hf] at h hp ⊢
      exact spells_lebUnsigned h r hr hp
  | fixed24 =>
      simp only [hf] at h hp ⊢
      exact spells_unsigned h r hr hp
  | fixed32 =>
      simp only [hf] at h hp ⊢
      exact spells_unsigned h r hr hp

/-- `indexOf` undoes `wireOf`: an index survives the shift by one that makes room for the null
index. -/
theorem indexOf_wireOf (value : Option Nat) : Read.indexOf (wireOf value) = value := by
  cases value <;> rfl

/-- An index is spelled if `wireOf` of it, shift included, is below the `indexBound`. -/
theorem spells_index {value : Option Nat} (h : wireOf value < format.indexBound) :
    Read.Spells format Read.index (index format value) value := by
  have := (spells_varUInt32 h).map Read.indexOf
  rwa [indexOf_wireOf] at this

theorem indexBound_pos (format : WireFormat) : 0 < format.indexBound := by
  unfold WireFormat.indexBound
  split <;> decide

/-- The payload of a string that the format `Holds` is spelled in its framing. -/
theorem spells_stringPayload {value : Option String} (h : format.Holds value) :
    Read.Spells format Read.stringPayload (string format value) (value.map Bytes.ofText) := by
  intro r hr hp
  rw [Read.stringPayload_eq hr]
  unfold string at hp ⊢
  cases hf : format.stringEncoding with
  | lengthPrefixed =>
      cases value with
      | none =>
          simp only [hf] at hp ⊢
          have hfits : wireOf none < format.indexBound := indexBound_pos format
          have hnull : Read.Spells format Read.prefixedPayload (index format none ++ []) none :=
            (spells_index hfits).bind (.pure none)
          rw [List.append_nil] at hnull
          exact hnull r hr hp
      | some text =>
          simp only [hf] at hp ⊢
          simp only [WireFormat.Holds, hf] at h
          have hfits : wireOf (some (Bytes.ofText text).length) < format.indexBound := h
          have htext : Read.Spells format Read.prefixedPayload
              (index format (some (Bytes.ofText text).length) ++ Bytes.ofText text)
                (some (Bytes.ofText text)) :=
            (spells_index hfits).bind
              ((Read.spells_ofCursor (Cursor.takes_take (Bytes.ofText text))).map some)
          exact htext r hr hp
  | nullTerminated =>
      cases value with
      | none =>
          simp only [hf] at hp ⊢
          exact Read.spells_nullMarker r hr hp
      | some text =>
          simp only [hf] at hp ⊢
          simp only [WireFormat.Holds, hf] at h
          have hzero := Bytes.zero_notMem_ofText h
          -- the marker of a null is no byte of any text, nor is it the zero byte
          refine Read.spells_terminated hzero ?_ r hr hp
          intro hhead
          have hmem := List.mem_of_head? hhead
          rcases List.mem_append.mp hmem with hmem | hmem
          · exact Bytes.nullMarker_notMem_ofText text hmem
          · exact absurd hmem (by decide)

/-- A string that the format `Holds` is spelled by what `Write.string` writes, null strings
included. -/
theorem spells_string {value : Option String} (h : format.Holds value) :
    Read.Spells format Read.string (string format value) value := by
  have hfrom : ∀ start, Read.Spells format (Read.stringFrom start) (string format value) value := by
    intro start
    rw [← List.append_nil (string format value)]
    refine (spells_stringPayload h).bind ?_
    cases value with
    | none => exact .pure none
    | some text =>
        simp only [Option.map_some, Bytes.toText?_ofText]
        exact .pure (some text)
  intro r hr hp
  rw [Read.string_eq, get_bind_eq]
  exact hfrom r.offset r hr hp

end Write

/-! ### Programs -/

mutual

/-- What a step writes has room in the format, and so has what the steps of a substream write. -/
def WriteStep.Fits (format : WireFormat) : WriteStep → Prop
  | .raw _ | .byte _ | .int32 _ | .binary64 _ | .lebSigned _ => True
  | .uint32 value | .lebUnsigned value => value < 2 ^ 32
  | .uint24 value => value < 2 ^ 24
  | .varUInt32 value => value < format.indexBound
  | .index value => Write.wireOf value < format.indexBound
  | .string value => format.Holds value
  | .substream description steps =>
    format.Holds (some description) ∧ WriteStep.AllFit format steps ∧
      (WriteStep.bytesAll format steps).length < 2 ^ 32
  | .framed description payload => format.Holds (some description) ∧ payload.length < 2 ^ 32
  | .header tagCount objectCount => tagCount < 2 ^ 32 ∧ objectCount < 2 ^ 32
  | .tagTable tags =>
    tags.length < 2 ^ 32 ∧ (∀ tag ∈ tags, format.Holds (some tag)) ∧
      (Write.tagNames format tags).length < 2 ^ 32

/-- What each step writes has room in the format. -/
def WriteStep.AllFit (format : WireFormat) : List WriteStep → Prop
  | [] => True
  | step :: steps => step.Fits format ∧ WriteStep.AllFit format steps

end

/-- `AllFit` asks of each step what `Fits` does. -/
theorem WriteStep.allFit_iff {format : WireFormat} {steps : List WriteStep} :
    AllFit format steps ↔ ∀ step ∈ steps, step.Fits format := by
  induction steps with
  | nil => simp [AllFit]
  | cons step steps ih => simp [AllFit, ih]

mutual

/-- Whether what a step writes has room can be decided. -/
def WriteStep.decideFits (format : WireFormat) : (step : WriteStep) → Decidable (step.Fits format)
  | .raw _ | .byte _ | .int32 _ | .binary64 _ | .lebSigned _ => inferInstanceAs (Decidable True)
  | .uint32 value | .lebUnsigned value => inferInstanceAs (Decidable (value < 2 ^ 32))
  | .uint24 value => inferInstanceAs (Decidable (value < 2 ^ 24))
  | .varUInt32 value => inferInstanceAs (Decidable (value < format.indexBound))
  | .index value => inferInstanceAs (Decidable (Write.wireOf value < format.indexBound))
  | .string value => inferInstanceAs (Decidable (format.Holds value))
  | .substream _ steps =>
    have := decideAllFit format steps
    inferInstanceAs (Decidable (_ ∧ WriteStep.AllFit format steps ∧ _ < _))
  | .framed _ _ => inferInstanceAs (Decidable (_ ∧ _))
  | .header _ _ => inferInstanceAs (Decidable (_ ∧ _))
  | .tagTable tags =>
    inferInstanceAs (Decidable (_ < _ ∧ (∀ tag ∈ tags, format.Holds (some tag)) ∧ _ < _))

/-- Whether what each step writes has room can be decided. -/
def WriteStep.decideAllFit (format : WireFormat) :
    (steps : List WriteStep) → Decidable (WriteStep.AllFit format steps)
  | [] => inferInstanceAs (Decidable True)
  | step :: steps =>
    have := decideFits format step
    have := decideAllFit format steps
    inferInstanceAs (Decidable (_ ∧ WriteStep.AllFit format steps))

end

instance (format : WireFormat) (steps : List WriteStep) :
    Decidable (WriteStep.AllFit format steps) := WriteStep.decideAllFit format steps

end BinaryAst
