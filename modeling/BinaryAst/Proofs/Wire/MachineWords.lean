import Mathlib.Data.Nat.Bitwise
import Mathlib.Data.UInt
import BinaryAst.Proofs.Wire.Groups
/-!
# BinaryAst.Proofs.Wire.MachineWords

Base-128 integers in words of a fixed width.

The loops that read the groups compute with numbers of any size. `wordUnsigned` and
`wordSigned` are the same loops on 32 and 64 bits: groups are joined by or, the sign is
extended by ones, and a shift or a sum that loses something is `none`. They give what the
loops on numbers give, so nothing is lost.
-/

namespace BinaryAst.Read

variable {width : Nat}

/-! ### Checked operations -/

/-- The sum of two words, where it fits. -/
def add? (x y : BitVec width) : Option (BitVec width) :=
  if x.toNat + y.toNat < 2 ^ width then some (x + y) else none

/-- An unsigned word moved up, where the distance is one and no bit is lost. -/
def shiftLeft? (x : BitVec width) (distance : BitVec 32) : Option (BitVec width) :=
  if distance.toNat < width ∧ (x <<< distance.toNat).toNat = x.toNat * 2 ^ distance.toNat then
    some (x <<< distance.toNat)
  else none

/-- A signed word moved up, where the distance is one and the product fits. -/
def shiftLeftSigned? (x : BitVec width) (distance : BitVec 32) : Option (BitVec width) :=
  if distance.toNat < width ∧ (x <<< distance.toNat).toInt = x.toInt * 2 ^ distance.toNat then
    some (x <<< distance.toNat)
  else none

/-- The low seven bits of a group, as a word. -/
def bitsOf (width : Nat) (group : UInt8) : BitVec width := (group &&& 0x7F).toBitVec.setWidth width

/-- A word of `shift` bits in two's complement, extended to the whole width. -/
def extendSign? (word : BitVec 64) (shift : BitVec 32) (negative : Bool) : Option (BitVec 64) :=
  if shift.toNat < 64 ∧ negative then (word ||| ·) <$> shiftLeftSigned? (-1) shift else some word

/-! ### The loops on words -/

/-- Reads the groups of an unsigned integer into 32 bits. -/
def wordUnsignedGroups (start : Nat) :
    (left : Nat) → (shift word : BitVec 32) → Read (Option (BitVec 32))
  | 0, _, _ => overflow start
  | left + 1, shift, word => do
    let group ← byte
    let bits := bitsOf 32 group
    if left = 0 ∧ 15 < bits then
      overflow start
    else
      match shiftLeft? bits shift, add? shift 7 with
      | some bits, some next =>
        if group &&& 0x80 = 0 then pure (some (word ||| bits))
        else wordUnsignedGroups start left next (word ||| bits)
      | _, _ => pure none

/-- An unsigned 32-bit integer in base-128 groups, computed in 32 bits. -/
def wordUnsigned : Read (Option (BitVec 32)) := do
  wordUnsignedGroups (← get).offset maxGroups 0 0

/-- Gives a 64-bit number as one of 32 bits, where it fits. -/
def narrow (start : Nat) (word : BitVec 64) : Read Int32 :=
  if -2 ^ 31 ≤ word.toInt ∧ word.toInt < 2 ^ 31 then pure (Int32.ofInt word.toInt)
  else overflow start

/-- Reads the groups of a signed integer into 64 bits. -/
def wordSignedGroups (start : Nat) :
    (left : Nat) → (shift : BitVec 32) → (word : BitVec 64) → Read (Option Int32)
  | 0, _, _ => overflow start
  | left + 1, shift, word => do
    let group ← byte
    match shiftLeftSigned? (bitsOf 64 group) shift, add? shift 7 with
    | some bits, some next =>
      if group &&& 0x80 = 0 then
        match extendSign? (word ||| bits) next (group &&& 0x40 ≠ 0) with
        | some value => some <$> narrow start value
        | none => pure none
      else wordSignedGroups start left next (word ||| bits)
    | _, _ => pure none

/-- A signed 32-bit integer in base-128 groups, computed in 64 bits. -/
def wordSigned : Read (Option Int32) := do
  wordSignedGroups (← get).offset maxGroups 0 0

/-! ### Where nothing is lost -/

theorem toNat_bitsOf (group : UInt8) (h : 8 ≤ width) :
    (bitsOf width group).toNat = group.toNat % 128 := by
  have hbits : (group &&& 0x7F).toNat = group.toNat % 128 := by
    rw [UInt8.toNat_and]
    exact Nat.and_two_pow_sub_one_eq_mod group.toNat 7
  have hwidth : 2 ^ 8 ≤ 2 ^ width := Nat.pow_le_pow_right (by decide) h
  rw [bitsOf, BitVec.toNat_setWidth, UInt8.toNat_toBitVec, hbits]
  exact Nat.mod_eq_of_lt (by omega)

/-- A mask of one bit takes that bit out of a group: the result is zero exactly where `testBit` says
so. -/
theorem and_mask_eq_zero_iff {group mask : UInt8} {bit : Nat} (hmask : mask.toNat = 2 ^ bit) :
    group &&& mask = 0 ↔ group.toNat.testBit bit = false := by
  rw [← UInt8.toNat_inj, UInt8.toNat_and, hmask, Nat.and_two_pow]
  cases group.toNat.testBit bit <;> simp

theorem and_highBit (group : UInt8) : group &&& 0x80 = 0 ↔ continues group = false := by
  have hlt := group.toNat_lt
  have hmask : (0x80 : UInt8).toNat = 2 ^ 7 := rfl
  rw [and_mask_eq_zero_iff hmask, Nat.testBit_eq_decide_div_mod_eq, continues]
  simp only [decide_eq_false_iff_not, UInt8.le_iff_toNat_le]
  change ¬group.toNat / 128 % 2 = 1 ↔ ¬128 ≤ group.toNat
  omega

theorem and_signBit (group : UInt8) :
    decide (group &&& 0x40 ≠ 0) = group.toNat.testBit 6 := by
  have hmask : (0x40 : UInt8).toNat = 2 ^ 6 := rfl
  simp [and_mask_eq_zero_iff hmask]

theorem add?_seven {shift : BitVec 32} (h : shift.toNat + 7 < 2 ^ 32) :
    ∃ next, add? shift 7 = some next ∧ next.toNat = shift.toNat + 7 :=
  ⟨shift + 7, if_pos h, by rw [BitVec.toNat_add]; exact Nat.mod_eq_of_lt h⟩

/-- For bits above a word that is smaller than their place, `|||` is a sum. -/
theorem toNat_or_shiftLeft {word bits : BitVec width} {distance : Nat}
    (hword : word.toNat < 2 ^ distance) (hfits : bits.toNat * 2 ^ distance < 2 ^ width) :
    (word ||| bits <<< distance).toNat = word.toNat + bits.toNat * 2 ^ distance := by
  rw [BitVec.toNat_or, BitVec.toNat_shiftLeft, Nat.shiftLeft_eq, Nat.mod_eq_of_lt hfits,
    Nat.or_comm, Nat.mul_comm, ← Nat.two_pow_add_eq_or_of_lt hword, Nat.add_comm]

theorem shiftLeft?_eq {bits : BitVec width} {distance : BitVec 32} (hd : distance.toNat < width)
    (hfits : bits.toNat * 2 ^ distance.toNat < 2 ^ width) :
    shiftLeft? bits distance = some (bits <<< distance.toNat) := by
  refine if_pos ⟨hd, ?_⟩
  rw [BitVec.toNat_shiftLeft, Nat.shiftLeft_eq, Nat.mod_eq_of_lt hfits]

theorem shiftLeftSigned?_eq {bits : BitVec width} {distance : BitVec 32}
    (hd : distance.toNat < width) (hfits : 2 * (bits.toNat * 2 ^ distance.toNat) < 2 ^ width) :
    shiftLeftSigned? bits distance = some (bits <<< distance.toNat) := by
  have hpow : 0 < 2 ^ distance.toNat := Nat.two_pow_pos _
  have hbits : 2 * bits.toNat < 2 ^ width := by
    have := Nat.le_mul_of_pos_right bits.toNat hpow
    omega
  have hnat : (bits <<< distance.toNat).toNat = bits.toNat * 2 ^ distance.toNat := by
    rw [BitVec.toNat_shiftLeft, Nat.shiftLeft_eq, Nat.mod_eq_of_lt (by omega)]
  refine if_pos ⟨hd, ?_⟩
  rw [BitVec.toInt_eq_toNat_of_lt (by rw [hnat]; exact hfits), BitVec.toInt_eq_toNat_of_lt hbits,
    hnat]
  push_cast
  rfl

/-! ### The same result -/

/-- The groups read so far fill `shift` bits of the word, and there is room for those left. -/
theorem wordUnsignedGroups_eq (start : Nat) {left : Nat} {shift word : BitVec 32}
    (hshift : shift.toNat + 7 * left = 35) (hword : word.toNat < 2 ^ shift.toNat) :
    Option.map BitVec.toNat <$> wordUnsignedGroups start left shift word =
      some <$> unsignedGroups start left shift.toNat word.toNat := by
  induction left generalizing shift word with
  | zero => rfl
  | succ left ih =>
      rw [wordUnsignedGroups, unsignedGroups, map_bind, map_bind]
      refine congrArg (byte >>= ·) (funext fun group => ?_)
      have hbits : (bitsOf 32 group).toNat = group.toNat % 128 := toNat_bitsOf group (by decide)
      have hlarge : (left = 0 ∧ 15 < bitsOf 32 group) ↔ (left = 0 ∧ 15 < group.toNat % 128) := by
        rw [BitVec.lt_def, hbits]
        rfl
      simp only [hlarge]
      by_cases hover : left = 0 ∧ 15 < group.toNat % 128
      · rw [if_pos hover, if_pos hover]
        rfl
      -- Only the fifth group can reach beyond the word, and that one was checked above.
      have hfits : (bitsOf 32 group).toNat * 2 ^ shift.toNat < 2 ^ 32 := by
        rw [hbits]
        cases left with
        | zero =>
            rw [show shift.toNat = 28 by omega]
            omega
        | succ left =>
            have hweight : 2 ^ shift.toNat ≤ 2 ^ 21 := Nat.pow_le_pow_right (by decide) (by omega)
            have := Nat.mul_le_mul (show group.toNat % 128 ≤ 127 by omega) hweight
            omega
      have hlt : shift.toNat + 7 < 2 ^ 32 := by omega
      obtain ⟨next, hnext, hnext7⟩ := add?_seven hlt
      have hsum := toNat_or_shiftLeft hword hfits
      rw [if_neg hover, if_neg hover, shiftLeft?_eq (by omega) hfits, hnext, Nat.shiftLeft_eq,
        ← hbits, ← hsum]
      dsimp only
      cases hgroup : continues group with
      | false =>
          rw [if_pos ((and_highBit group).mpr hgroup), if_neg Bool.false_ne_true]
          rfl
      | true =>
          rw [if_neg (by simp [and_highBit, hgroup]), if_pos rfl, ← hnext7]
          refine ih (by omega) ?_
          rw [hsum, hbits, hnext7, Nat.pow_add]
          have := Nat.mul_le_mul_right (2 ^ shift.toNat) (show group.toNat % 128 ≤ 127 by omega)
          omega

theorem wordUnsigned_eq : Option.map BitVec.toNat <$> wordUnsigned = some <$> lebUnsigned := by
  rw [wordUnsigned, lebUnsigned, map_bind, map_bind]
  exact congrArg (get >>= ·) (funext fun r => wordUnsignedGroups_eq r.offset rfl (by decide))

/-- Ones from some place up. -/
theorem toNat_allOnes_shiftLeft {distance : Nat} (h : distance ≤ 64) :
    ((-1 : BitVec 64) <<< distance).toNat = 2 ^ 64 - 2 ^ distance := by
  have hpow : 2 ^ distance * 2 ^ (64 - distance) = 2 ^ 64 := by
    rw [← Nat.pow_add, show distance + (64 - distance) = 64 by omega]
  have hpos : 0 < 2 ^ distance := Nat.two_pow_pos _
  have hle : 2 ^ distance ≤ 2 ^ 64 := Nat.pow_le_pow_right (by decide) h
  have hsplit : (2 ^ 64 - 1) * 2 ^ distance =
      2 ^ 64 - 2 ^ distance + (2 ^ distance - 1) * 2 ^ 64 := by
    rw [Nat.sub_mul, Nat.sub_mul, Nat.one_mul, Nat.one_mul, Nat.mul_comm (2 ^ 64)]
    have := Nat.mul_le_mul_right (2 ^ 64) hpos
    omega
  rw [BitVec.toNat_shiftLeft, Nat.shiftLeft_eq]
  change (2 ^ 64 - 1) * 2 ^ distance % 2 ^ 64 = _
  rw [hsplit, Nat.add_mul_mod_self_right, Nat.mod_eq_of_lt (by omega)]

/-- A word below some place, with ones from there up, counts down from zero as `toInt`. -/
theorem toInt_of_toNat_eq {value : BitVec 64} {sum distance : Nat} (h : distance ≤ 35)
    (hsum : sum < 2 ^ distance) (hvalue : value.toNat = 2 ^ 64 - 2 ^ distance + sum) :
    value.toInt = sum - 2 ^ distance := by
  have hle : 2 ^ distance ≤ 2 ^ 35 := Nat.pow_le_pow_right (by decide) h
  have hcast : ((2 ^ distance : Nat) : Int) = 2 ^ distance := by push_cast; rfl
  rw [BitVec.toInt_eq_toNat_cond, hvalue, if_neg (by omega), ← hcast]
  omega

theorem shiftLeftSigned?_allOnes {distance : BitVec 32} (h : distance.toNat ≤ 35) :
    shiftLeftSigned? (-1) distance = some ((-1 : BitVec 64) <<< distance.toNat) := by
  refine if_pos ⟨by omega, ?_⟩
  have hzero : 0 < 2 ^ distance.toNat := Nat.two_pow_pos _
  rw [toInt_of_toNat_eq h hzero (toNat_allOnes_shiftLeft (by omega))]
  change ((0 : Nat) : Int) - 2 ^ distance.toNat = -1 * 2 ^ distance.toNat
  omega

/-- `extendSign?` extends the sign of a word as `signExtend` does that of a number, and never fails
on the shifts of an integer. -/
theorem extendSign?_eq {word : BitVec 64} {shift : BitVec 32} (negative : Bool)
    (hshift : shift.toNat ≤ 35) (hword : word.toNat < 2 ^ shift.toNat) :
    ∃ value, extendSign? word shift negative = some value ∧
      value.toInt = signExtend word.toNat shift.toNat negative := by
  have hsmall : 2 ^ shift.toNat ≤ 2 ^ 35 := Nat.pow_le_pow_right (by decide) hshift
  cases negative with
  | false =>
      refine ⟨word, if_neg (by simp), ?_⟩
      rw [signExtend, if_neg Bool.false_ne_true, BitVec.toInt_eq_toNat_of_lt (by omega)]
  | true =>
      refine ⟨word ||| (-1 : BitVec 64) <<< shift.toNat, ?_, ?_⟩
      · rw [extendSign?, if_pos ⟨by omega, rfl⟩, shiftLeftSigned?_allOnes hshift]
        rfl
      · have hpow : 2 ^ 64 - 2 ^ shift.toNat = 2 ^ shift.toNat * (2 ^ (64 - shift.toNat) - 1) := by
          rw [Nat.mul_sub, ← Nat.pow_add, show shift.toNat + (64 - shift.toNat) = 64 by omega,
            Nat.mul_one]
        have hvalue : (word ||| (-1 : BitVec 64) <<< shift.toNat).toNat =
            2 ^ 64 - 2 ^ shift.toNat + word.toNat := by
          rw [BitVec.toNat_or, toNat_allOnes_shiftLeft (by omega), hpow, Nat.or_comm,
            Nat.two_pow_add_eq_or_of_lt hword]
        rw [toInt_of_toNat_eq hshift hword hvalue, signExtend, if_pos rfl, Nat.shiftLeft_eq,
          Nat.one_mul]
        push_cast
        rfl

/-- The groups read so far fill `shift` bits of the word, and the sign has room above them. -/
theorem wordSignedGroups_eq (start : Nat) {left : Nat} {shift : BitVec 32} {word : BitVec 64}
    (hshift : shift.toNat + 7 * left = 35) (hword : word.toNat < 2 ^ shift.toNat) :
    wordSignedGroups start left shift word =
      some <$> signedGroups start left shift.toNat word.toNat := by
  induction left generalizing shift word with
  | zero => rfl
  | succ left ih =>
      rw [wordSignedGroups, signedGroups, map_bind]
      refine congrArg (byte >>= ·) (funext fun group => ?_)
      have hbits : (bitsOf 64 group).toNat = group.toNat % 128 := toNat_bitsOf group (by decide)
      have hweight : 2 ^ shift.toNat ≤ 2 ^ 28 := Nat.pow_le_pow_right (by decide) (by omega)
      have hfits := Nat.mul_le_mul (show group.toNat % 128 ≤ 127 by omega) hweight
      rw [← hbits] at hfits
      have hlt : shift.toNat + 7 < 2 ^ 32 := by omega
      obtain ⟨next, hnext, hnext7⟩ := add?_seven hlt
      have hsum := toNat_or_shiftLeft hword
        (show (bitsOf 64 group).toNat * 2 ^ shift.toNat < 2 ^ 64 by omega)
      have hroom : (word ||| bitsOf 64 group <<< shift.toNat).toNat < 2 ^ next.toNat := by
        rw [hsum, hbits, hnext7, Nat.pow_add]
        have := Nat.mul_le_mul_right (2 ^ shift.toNat) (show group.toNat % 128 ≤ 127 by omega)
        omega
      rw [shiftLeftSigned?_eq (by omega) (by omega), hnext, Nat.shiftLeft_eq, ← hbits, ← hsum]
      dsimp only
      cases hgroup : continues group with
      | false =>
          -- The last group: its sign fills the word from here up.
          obtain ⟨value, hvalue, hint⟩ :=
            extendSign?_eq (decide (group &&& 0x40 ≠ 0)) (by omega) hroom
          rw [and_signBit, testBit_six hgroup, hnext7] at hint
          rw [if_pos ((and_highBit group).mpr hgroup), if_neg Bool.false_ne_true, hvalue, ← hint]
          rfl
      | true =>
          rw [if_neg (by simp [and_highBit, hgroup]), if_pos rfl, ← hnext7]
          exact ih (by omega) hroom

theorem wordSigned_eq : wordSigned = some <$> lebSigned := by
  rw [wordSigned, lebSigned, map_bind]
  exact congrArg (get >>= ·) (funext fun r => wordSignedGroups_eq r.offset rfl (by decide))

/-! ### The law of base-128 integers -/

variable {α β : Type}

theorem map_congr_at {x y : Read α} {f : α → β} {r : Reader} (h : x r = y r) :
    (f <$> y) r = (f <$> x) r := by
  change EStateM.map f y r = EStateM.map f x r
  rw [EStateM.map, EStateM.map, h]

theorem varUInt32_of_varints {r : Reader} (hr : r.format.varints = true) :
    varUInt32 r = lebUnsigned r := by
  simp [varUInt32, get_bind_eq, WireFormat.indexEncoding, hr]

theorem varInt32_of_varints {r : Reader} (hr : r.format.varints = true) :
    varInt32 r = lebSigned r := by
  simp [varInt32, get_bind_eq, WireFormat.indexEncoding, hr]

/-- Whatever bytes an integer starts with, `varUInt32` and `varInt32` read it as the exact value of
its groups (`unsignedValue`, `signedValue`), however many of them are zero at the high end, if the
value fits 32 bits. Else it is reported where it starts, with all five groups taken; and so is one
whose fifth group goes on. One that the range cuts off is reported at the end. `wordUnsigned` and
`wordSigned` do the same on machine words: no word is too narrow on the way. -/
theorem varints_are_exact {r : Reader} (hr : r.format.varints = true) :
    (∀ position, lastGroup? r.unread = some position →
      (unsignedValue (r.unread.take (position + 1)) < 2 ^ 32 →
        varUInt32 r =
          .ok (unsignedValue (r.unread.take (position + 1))) (r.skip (position + 1))) ∧
      (¬unsignedValue (r.unread.take (position + 1)) < 2 ^ 32 → position + 1 = 5 ∧
        varUInt32 r = .error (.varintOverflow r.description r.offset) (r.skip 5)) ∧
      (-2 ^ 31 ≤ signedValue (r.unread.take (position + 1)) ∧
          signedValue (r.unread.take (position + 1)) < 2 ^ 31 →
        ∃ value : Int32, value.toInt = signedValue (r.unread.take (position + 1)) ∧
          varInt32 r = .ok value (r.skip (position + 1))) ∧
      (¬(-2 ^ 31 ≤ signedValue (r.unread.take (position + 1)) ∧
          signedValue (r.unread.take (position + 1)) < 2 ^ 31) → position + 1 = 5 ∧
        varInt32 r = .error (.varintOverflow r.description r.offset) (r.skip 5))) ∧
    (lastGroup? r.unread = none → r.unread.length < 5 →
      varUInt32 r =
        .error (.truncated r.description (r.base + r.length) 1 0) (r.skip r.unread.length) ∧
      varInt32 r =
        .error (.truncated r.description (r.base + r.length) 1 0) (r.skip r.unread.length)) ∧
    (lastGroup? r.unread = none → ¬r.unread.length < 5 →
      varUInt32 r = .error (.varintOverflow r.description r.offset) (r.skip 5) ∧
      varInt32 r = .error (.varintOverflow r.description r.offset) (r.skip 5)) ∧
    (Option.map BitVec.toNat <$> wordUnsigned) r = (some <$> varUInt32) r ∧
    wordSigned r = (some <$> varInt32) r := by
  have hunsigned := varUInt32_of_varints hr
  have hsigned := varInt32_of_varints hr
  refine ⟨fun position h => ⟨fun hfits => ?_, fun hlarge => ⟨?_, ?_⟩, fun hfits => ?_,
    fun hlarge => ⟨?_, ?_⟩⟩, fun h hshort => ?_, fun h hlong => ?_, ?_, ?_⟩
  · rw [hunsigned, lebUnsigned_of_lastGroup? h, if_pos hfits]
  · rw [position_of_unsignedValue_ge h hlarge]
  · rw [hunsigned, lebUnsigned_of_lastGroup? h, if_neg hlarge]
    rfl
  · refine ⟨_, Int32.toInt_ofInt_of_le hfits.1 hfits.2, ?_⟩
    rw [hsigned, lebSigned_of_lastGroup? h, if_pos hfits]
  · rw [position_of_signedValue h hlarge]
  · rw [hsigned, lebSigned_of_lastGroup? h, if_neg hlarge]
    rfl
  · rw [hunsigned, hsigned]
    have hu := (loops_unsignedGroups r.offset).eq_of_lastGroup?_eq_none h
    have hs := (loops_signedGroups r.offset).eq_of_lastGroup?_eq_none h
    rw [if_pos (show r.unread.length < maxGroups from hshort)] at hu hs
    exact ⟨hu, hs⟩
  · rw [hunsigned, hsigned]
    have hu := (loops_unsignedGroups r.offset).eq_of_lastGroup?_eq_none h
    have hs := (loops_signedGroups r.offset).eq_of_lastGroup?_eq_none h
    rw [if_neg (show ¬r.unread.length < maxGroups from hlong)] at hu hs
    exact ⟨hu, hs⟩
  · rw [wordUnsigned_eq, map_congr_at hunsigned]
  · rw [wordSigned_eq, map_congr_at hsigned]

/-- 32 ones are an integer for `varUInt32`, and too large for `varInt32`. -/
theorem varints_are_exact_of_ones :
    varUInt32 ⟨.ofBytes 7 [0xFF, 0xFF, 0xFF, 0xFF, 0x0F], ⟨true, false, false⟩, "side"⟩ =
      .ok 0xFFFFFFFF ⟨⟨7, 5, []⟩, ⟨true, false, false⟩, "side"⟩ ∧
    varInt32 ⟨.ofBytes 7 [0xFF, 0xFF, 0xFF, 0xFF, 0x0F], ⟨true, false, false⟩, "side"⟩ =
      .error (.varintOverflow "side" 7) ⟨⟨7, 5, []⟩, ⟨true, false, false⟩, "side"⟩ := by
  have h := (varints_are_exact
    (r := ⟨.ofBytes 7 [0xFF, 0xFF, 0xFF, 0xFF, 0x0F], ⟨true, false, false⟩, "side"⟩) rfl).1 4
    (by decide)
  exact ⟨h.1 (by decide), (h.2.2.2 (by decide)).2⟩

end BinaryAst.Read
