import BinaryAst.Proofs.Wire.Written
/-!
# BinaryAst.Proofs.Wire.SignedGroups

A signed integer in base-128 groups is read back.

The writer cuts seven bits off a number until what is left is the sign alone, and the reader
puts them together from the low end. What is left of the number counts with the weight of the
next group all along; in the last group bit 6 is the sign, so that group counts as a number
from `-64` to `63`.
-/

namespace BinaryAst.Write

variable {format : WireFormat}

theorem lebSigned_of_small {value : Int} (h : -64 ≤ value ∧ value < 64) :
    lebSigned value = [UInt8.ofNat (value % 128).toNat] := by
  rw [lebSigned, if_pos h]

theorem lebSigned_of_large {value : Int} (h : ¬(-64 ≤ value ∧ value < 64)) :
    lebSigned value = continued (value % 128).toNat :: lebSigned (value / 128) := by
  rw [lebSigned, if_neg h]

/-- `signExtend` puts seven bits in two's complement on top of what was read before. -/
theorem signExtend_eq {sum shift : Nat} {value : Int} (h : -64 ≤ value ∧ value < 64) :
    Read.signExtend (sum + ((value % 128).toNat <<< shift)) (shift + 7)
      (64 ≤ (value % 128).toNat) = sum + value * 2 ^ shift := by
  have hpow : ((1 <<< (shift + 7) : Nat) : Int) = 128 * 2 ^ shift := by
    rw [Nat.shiftLeft_eq, Nat.pow_add]
    push_cast
    ring
  have hbits : ((value % 128).toNat : Int) = value % 128 := Int.toNat_of_nonneg (by omega)
  unfold Read.signExtend
  rw [hpow, Nat.shiftLeft_eq]
  push_cast
  rw [hbits]
  by_cases hneg : value < 0
  · rw [if_pos (decide_eq_true (by omega)), show value % 128 = value + 128 by omega]
    ring
  · rw [if_neg (by simpa using (by omega : (value % 128).toNat < 64)),
      show value % 128 = value by omega]

/-- The number of a group of which the low seven bits are known. -/
theorem toNat_group (value : Int) : (UInt8.ofNat (value % 128).toNat).toNat = (value % 128).toNat ∧
    (continued (value % 128).toNat).toNat = (value % 128).toNat + 128 := by
  have hbits : (value % 128).toNat < 128 := by omega
  rw [continued, UInt8.toNat_ofNat', UInt8.toNat_ofNat']
  omega

/-- The last group of a number that fits 32 bits, for `signedGroups`. -/
theorem spells_lastSignedGroup {start left shift sum : Nat} {value : Int}
    (h : -64 ≤ value ∧ value < 64)
    (hfits : -2 ^ 31 ≤ sum + value * 2 ^ shift ∧ sum + value * 2 ^ shift < 2 ^ 31) :
    Read.Spells format (Read.signedGroups start (left + 1) shift sum)
      [UInt8.ofNat (value % 128).toNat] (Int32.ofInt (sum + value * 2 ^ shift)) := by
  obtain ⟨hnat, -⟩ := toNat_group value
  have hbits : (value % 128).toNat < 128 := by omega
  have hsign : (64 ≤ UInt8.ofNat (value % 128).toNat) = (64 ≤ (value % 128).toNat) := by
    rw [UInt8.le_iff_toNat_le, hnat]
    rfl
  refine (spells_byte _).bind ?_
  dsimp only
  rw [hnat, Nat.mod_eq_of_lt hbits, if_neg]
  · simp only [hsign, signExtend_eq h]
    rw [if_pos (by exact hfits)]
    exact .pure _
  · simp only [Read.continues, decide_eq_true_eq, UInt8.le_iff_toNat_le, hnat]
    exact Nat.not_le.mpr hbits

/-- A group that `continued` marks: `signedGroups` reads the rest on top of it. -/
theorem spells_signedContinued {start left shift sum : Nat} {value : Int} {rest : Bytes}
    {result : Int32}
    (hrest : Read.Spells format (Read.signedGroups start (left + 1) (shift + 7)
      (sum + (value % 128).toNat * 2 ^ shift)) rest result) :
    Read.Spells format (Read.signedGroups start (left + 2) shift sum)
      (continued (value % 128).toNat :: rest) result := by
  obtain ⟨-, hnat⟩ := toNat_group value
  have hbits : (value % 128).toNat < 128 := by omega
  refine (spells_byte _).bind ?_
  dsimp only
  rw [hnat, Nat.add_mod_right, Nat.mod_eq_of_lt hbits, if_pos, Nat.shiftLeft_eq]
  · exact hrest
  · simp only [Read.continues, decide_eq_true_eq, UInt8.le_iff_toNat_le, hnat]
    exact Nat.le_add_left 128 _

/-- The groups of a number are read on top of what was read before. With `left` groups to
follow there are seven bits for each of them and for this one, the sign among them. -/
theorem spells_signedGroups {start left shift sum : Nat} {value : Int}
    (h : -2 ^ (7 * left + 6) ≤ value ∧ value < 2 ^ (7 * left + 6))
    (hfits : -2 ^ 31 ≤ sum + value * 2 ^ shift ∧ sum + value * 2 ^ shift < 2 ^ 31) :
    Read.Spells format (Read.signedGroups start (left + 1) shift sum) (lebSigned value)
      (Int32.ofInt (sum + value * 2 ^ shift)) := by
  induction left generalizing shift sum value with
  | zero =>
      have hsmall : -64 ≤ value ∧ value < 64 := by simpa using h
      rw [lebSigned_of_small hsmall]
      exact spells_lastSignedGroup hsmall hfits
  | succ left ih =>
      by_cases hsmall : -64 ≤ value ∧ value < 64
      · rw [lebSigned_of_small hsmall]
        exact spells_lastSignedGroup hsmall hfits
      · rw [lebSigned_of_large hsmall]
        have hpow : (2 : Int) ^ (7 * (left + 1) + 6) = 128 * 2 ^ (7 * left + 6) := by
          rw [show 7 * (left + 1) + 6 = 7 + (7 * left + 6) by omega, Int.pow_add]
          rfl
        have hbits : ((value % 128).toNat : Int) = value % 128 := Int.toNat_of_nonneg (by omega)
        -- The low seven bits go into the sum, and the rest of the number moves up by seven.
        have hsum : (sum : Int) + value * 2 ^ shift =
            (sum + (value % 128).toNat * 2 ^ shift : Nat) + value / 128 * 2 ^ (shift + 7) := by
          push_cast
          rw [hbits]
          calc (sum : Int) + value * 2 ^ shift
              = sum + (value % 128 + 128 * (value / 128)) * 2 ^ shift := by
                rw [Int.emod_add_mul_ediv]
            _ = sum + value % 128 * 2 ^ shift + value / 128 * 2 ^ (shift + 7) := by ring
        rw [hsum] at hfits ⊢
        exact spells_signedContinued (ih (by omega) hfits)

theorem spells_lebSigned (value : Int32) :
    Read.Spells format Read.lebSigned (lebSigned value.toInt) value := by
  have hlow := value.le_toInt
  have hhigh := value.toInt_lt
  intro r hr hp
  have hgroups : Read.Spells format (Read.signedGroups r.offset Read.maxGroups 0 0)
      (lebSigned value.toInt) (Int32.ofInt ((0 : Nat) + value.toInt * 2 ^ 0)) :=
    spells_signedGroups (by omega) (by omega)
  have hvalue : ((0 : Nat) : Int) + value.toInt * 2 ^ 0 = value.toInt := by omega
  rw [hvalue, Int32.ofInt_toInt] at hgroups
  rw [Read.lebSigned, get_bind_eq]
  exact hgroups r hr hp

end BinaryAst.Write
