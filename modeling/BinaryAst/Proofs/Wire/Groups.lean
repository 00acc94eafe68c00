import Mathlib.Data.Nat.Digits.Lemmas
import Mathlib.Tactic.Ring
import BinaryAst.Proofs.Wire.Primitives
/-!
# BinaryAst.Proofs.Wire.Groups

What a base-128 integer reads as, whatever bytes it starts with.

The exact value of some groups is the number with their low seven bits as digits
(`unsignedValue`), or that number in two's complement (`signedValue`). Both loops go over
the groups in the same way until they come to the last (`LoopsOverGroups`), so where the
groups run out of bytes, and where there are too many of them, is settled once. What the
last group does is one equation for each loop.
-/

namespace BinaryAst.Read

variable {α : Type}

/-! ### Exact values -/

/-- The position of the last group of the integer at the start of some bytes: the first
byte without the high bit, if it is among as many as an integer may have. -/
def lastGroup? (bytes : Bytes) : Option Nat :=
  (bytes.take maxGroups).findIdx? fun group => !continues group

/-- The number whose base-128 digits the groups hold, least significant first. -/
def unsignedValue (groups : Bytes) : Nat := Nat.ofDigits 128 (groups.map (·.toNat % 128))

/-- The number that the groups hold in two's complement; bit 6 of the last is the sign. -/
def signedValue (groups : Bytes) : Int :=
  if (groups.getLastD 0).toNat.testBit 6 then unsignedValue groups - 2 ^ (7 * groups.length)
  else unsignedValue groups

theorem two_pow_seven_mul (count : Nat) : 2 ^ (7 * count) = 128 ^ count := by
  rw [Nat.pow_mul]

/-- The first group is the lowest digit of `unsignedValue`, to the base 128. -/
theorem unsignedValue_cons (group : UInt8) (groups : Bytes) :
    unsignedValue (group :: groups) = group.toNat % 128 + 128 * unsignedValue groups := by
  rw [unsignedValue, List.map_cons, Nat.ofDigits_cons]
  rfl

/-- The last group is the highest digit of `unsignedValue`. -/
theorem unsignedValue_concat (groups : Bytes) (last : UInt8) :
    unsignedValue (groups ++ [last]) =
      unsignedValue groups + last.toNat % 128 * 2 ^ (7 * groups.length) := by
  rw [unsignedValue, List.map_append, Nat.ofDigits_append, List.map_singleton,
    Nat.ofDigits_singleton, List.length_map, two_pow_seven_mul, Nat.mul_comm]
  rfl

/-- So many groups hold seven bits each, and `unsignedValue` fits them. -/
theorem unsignedValue_lt (groups : Bytes) : unsignedValue groups < 2 ^ (7 * groups.length) := by
  have hlength : (groups.map (·.toNat % 128)).length = groups.length := List.length_map _
  rw [two_pow_seven_mul, ← hlength]
  refine Nat.ofDigits_lt_base_pow_length (by decide) fun digit hdigit => ?_
  obtain ⟨group, -, rfl⟩ := List.mem_map.mp hdigit
  exact Nat.mod_lt _ (by decide)

/-- `signedValue` is in two's complement: it lies on either side of zero within the bits of its
groups. -/
theorem signedValue_bounds (groups : Bytes) :
    -2 ^ (7 * groups.length) ≤ signedValue groups ∧
      signedValue groups < 2 ^ (7 * groups.length) := by
  have hlt : (unsignedValue groups : Int) < 2 ^ (7 * groups.length) := by
    exact_mod_cast unsignedValue_lt groups
  have hpow : (0 : Int) < 2 ^ (7 * groups.length) := Int.pow_pos (by decide)
  unfold signedValue
  split <;> omega

/-- `lastGroup?` cuts the bytes at the last group: those before it go on (`continues`), it does not,
and there are at most `maxGroups` in all. -/
theorem exists_of_lastGroup? {bytes : Bytes} {position : Nat}
    (h : lastGroup? bytes = some position) :
    ∃ front last rest, bytes = front ++ last :: rest ∧ front.length = position ∧
      position < maxGroups ∧ (∀ group ∈ front, continues group = true) ∧
        continues last = false := by
  obtain ⟨hlt, hlast, hfront⟩ := List.findIdx?_eq_some_iff_getElem.mp h
  obtain ⟨hgroups, hbytes⟩ : position < maxGroups ∧ position < bytes.length := by
    simpa using hlt
  refine ⟨bytes.take position, bytes[position], bytes.drop (position + 1), by simp,
    List.length_take_of_le hbytes.le, hgroups, fun group hgroup => ?_, by simpa using hlast⟩
  obtain ⟨i, hi, rfl⟩ := List.mem_iff_getElem.mp hgroup
  have hbefore : i < position := by
    rw [List.length_take] at hi
    omega
  simpa using hfront i hbefore

/-- Where `lastGroup?` finds nothing, all the groups that an integer may have go on. -/
theorem continues_of_lastGroup?_eq_none {bytes : Bytes} (h : lastGroup? bytes = none) :
    ∀ group ∈ bytes.take maxGroups, continues group = true := by
  simpa using List.findIdx?_eq_none_iff.mp h

/-! ### Both loops -/

theorem byte_of_cons {r : Reader} {group : UInt8} {rest : Bytes} (h : r.unread = group :: rest) :
    byte r = .ok group (r.skip 1) :=
  spells_byte_iff.mpr rfl r rfl ⟨rest, h.symm⟩

theorem byte_of_nil {r : Reader} (h : r.unread = []) : byte r = .error (r.truncated 1) r := by
  have hread : r.cursor.read = none := by
    unfold Cursor.read
    rw [show r.cursor.unread = [] from h]
  simp [byte, ofCursor, hread]

/-- The loop reads one group after another: `left` more at most, the next one with weight `2 ^
shift`, on top of `sum`. As long as groups go on, it does nothing but add them up. -/
structure LoopsOverGroups (start : Nat) (loop : (left shift sum : Nat) → Read α) : Prop where
  exhausted : ∀ shift sum, loop 0 shift sum = overflow start
  starved : ∀ left shift sum (r : Reader), r.unread = [] →
    loop (left + 1) shift sum r = .error (r.truncated 1) r
  next : ∀ left shift sum (r : Reader) group rest, r.unread = group :: rest →
    continues group = true →
      loop (left + 1) shift sum r =
        loop left (shift + 7) (sum + group.toNat % 128 * 2 ^ shift) (r.skip 1)

namespace LoopsOverGroups

variable {start : Nat} {loop : (left shift sum : Nat) → Read α}

/-- Groups that go on are added up: the loop has shifted by seven bits for each, and its sum has
grown by their `unsignedValue`. -/
theorem advance (h : LoopsOverGroups start loop) {front : Bytes}
    (hfront : ∀ group ∈ front, continues group = true) {r : Reader} (hr : front <+: r.unread)
    (left shift sum : Nat) :
    loop (front.length + left) shift sum r =
      loop left (shift + 7 * front.length) (sum + unsignedValue front * 2 ^ shift)
        (r.skip front.length) := by
  induction front generalizing r shift sum with
  | nil => simp [unsignedValue]
  | cons group front ih =>
      obtain ⟨hgroup, hrest⟩ := List.forall_mem_cons.mp hfront
      obtain ⟨rest, hr⟩ := hr
      have hnext : front <+: (r.skip 1).unread := ⟨rest, by rw [Reader.unread_skip, ← hr]; rfl⟩
      have hsum : sum + group.toNat % 128 * 2 ^ shift + unsignedValue front * 2 ^ (shift + 7) =
          sum + unsignedValue (group :: front) * 2 ^ shift := by
        rw [unsignedValue_cons, Nat.pow_add]
        ring
      rw [List.length_cons, Nat.add_right_comm, h.next _ _ _ _ _ _ hr.symm hgroup, ih hrest hnext,
        hsum, Reader.skip_skip, Nat.add_comm 1, Nat.mul_succ, Nat.add_assoc, Nat.add_comm 7]

/-- If the bytes end before the last group, the loop has read them all and reports `truncated` with
one byte missing. -/
theorem runs_short (h : LoopsOverGroups start loop) {r : Reader} {left : Nat}
    (hr : ∀ group ∈ r.unread, continues group = true) (hshort : r.unread.length < left) :
    loop left 0 0 r =
      .error ((r.skip r.unread.length).truncated 1) (r.skip r.unread.length) := by
  obtain ⟨more, rfl⟩ := Nat.exists_eq_add_of_lt hshort
  rw [Nat.add_assoc, h.advance hr List.prefix_rfl, h.starved]
  simp

/-- If none of as many groups as are allowed is the last, the loop reports an overflow at `start`,
behind all of them. -/
theorem runs_over (h : LoopsOverGroups start loop) {r : Reader} {front : Bytes}
    (hfront : ∀ group ∈ front, continues group = true) (hr : front <+: r.unread) :
    loop front.length 0 0 r =
      .error (.varintOverflow r.description start) (r.skip front.length) := by
  have hrun := h.advance hfront hr 0 0 0
  rw [Nat.add_zero, h.exhausted] at hrun
  exact hrun

end LoopsOverGroups

/-- `unsignedGroups` runs over groups that go on. Its check of the fifth one changes nothing here: a
fifth group that goes on is one too many anyway. -/
theorem loops_unsignedGroups (start : Nat) : LoopsOverGroups start (unsignedGroups start) := by
  refine ⟨fun _ _ => rfl, fun left shift sum r hr => ?_,
    fun left shift sum r group rest hr hgroup => ?_⟩
  · exact bind_of_error (byte_of_nil hr)
  · rw [unsignedGroups, bind_of_ok (byte_of_cons hr)]
    dsimp only
    by_cases hlarge : left = 0 ∧ 15 < group.toNat % 128
    · rw [if_pos hlarge, hlarge.1]
      rfl
    · rw [if_neg hlarge, if_pos hgroup, Nat.shiftLeft_eq]

/-- `signedGroups` does with groups that go on what `unsignedGroups` does. -/
theorem loops_signedGroups (start : Nat) : LoopsOverGroups start (signedGroups start) := by
  refine ⟨fun _ _ => rfl, fun left shift sum r hr => ?_,
    fun left shift sum r group rest hr hgroup => ?_⟩
  · exact bind_of_error (byte_of_nil hr)
  · rw [signedGroups, bind_of_ok (byte_of_cons hr)]
    dsimp only
    rw [if_pos hgroup, Nat.shiftLeft_eq]

/-! ### The last group -/

/-- The step of `unsignedGroups` at the last group: only a fifth one (`left = 0`) can be too large,
and then the number does not fit 32 bits. -/
theorem unsignedGroups_last {start left shift sum : Nat} {r : Reader} {last : UInt8}
    {rest : Bytes} (hr : r.unread = last :: rest) (hlast : continues last = false) :
    unsignedGroups start (left + 1) shift sum r =
      if left = 0 ∧ 15 < last.toNat % 128 then
        .error (.varintOverflow r.description start) (r.skip 1)
      else .ok (sum + last.toNat % 128 * 2 ^ shift) (r.skip 1) := by
  have hstop : ¬continues last = true := by simp [hlast]
  rw [unsignedGroups, bind_of_ok (byte_of_cons hr)]
  dsimp only
  by_cases hlarge : left = 0 ∧ 15 < last.toNat % 128
  · rw [if_pos hlarge, if_pos hlarge]
    rfl
  · rw [if_neg hlarge, if_neg hlarge, if_neg hstop, Nat.shiftLeft_eq]
    rfl

theorem testBit_six {group : UInt8} (h : continues group = false) :
    group.toNat.testBit 6 = decide (64 ≤ group) := by
  have hsmall : group.toNat < 128 := by
    simpa [continues, UInt8.le_iff_toNat_le] using h
  rw [Nat.testBit_eq_decide_div_mod_eq, decide_eq_decide, UInt8.le_iff_toNat_le]
  change group.toNat / 64 % 2 = 1 ↔ 64 ≤ group.toNat
  omega

/-- The step of `signedGroups` at the last group: the sum is extended by its sign (`signExtend`),
and has to fit 32 bits. -/
theorem signedGroups_last {start left shift sum : Nat} {r : Reader} {last : UInt8}
    {rest : Bytes} (hr : r.unread = last :: rest) (hlast : continues last = false) :
    signedGroups start (left + 1) shift sum r =
      (let value := signExtend (sum + last.toNat % 128 * 2 ^ shift) (shift + 7)
        (last.toNat.testBit 6)
      if -2 ^ 31 ≤ value ∧ value < 2 ^ 31 then .ok (Int32.ofInt value) (r.skip 1)
      else .error (.varintOverflow r.description start) (r.skip 1)) := by
  have hstop : ¬continues last = true := by simp [hlast]
  rw [signedGroups, bind_of_ok (byte_of_cons hr)]
  dsimp only
  rw [if_neg hstop, Nat.shiftLeft_eq, testBit_six hlast]
  generalize signExtend _ _ _ = value
  by_cases hfits : -2 ^ 31 ≤ value ∧ value < 2 ^ 31
  · rw [if_pos hfits]
    exact congrFun (if_pos hfits) _
  · rw [if_neg hfits]
    exact congrFun (if_neg hfits) _

/-! ### What a read gives -/

section Values

variable {r : Reader} {position : Nat}

/-- A loop over groups decides nothing up to the group that `lastGroup?` finds: it stands in front
of that one with the `unsignedValue` of those before it. -/
theorem LoopsOverGroups.reaches_last {start : Nat} {loop : (left shift sum : Nat) → Read α}
    (hloop : LoopsOverGroups start loop) (h : lastGroup? r.unread = some position) :
    ∃ front last rest, r.unread.take (position + 1) = front ++ [last] ∧
      front.length = position ∧ position < maxGroups ∧ continues last = false ∧
      (r.skip position).unread = last :: rest ∧
      loop maxGroups 0 0 r =
        loop (maxGroups - (position + 1) + 1) (7 * position) (unsignedValue front)
          (r.skip position) := by
  obtain ⟨front, last, rest, hr, rfl, hlt, hfront, hlast⟩ := exists_of_lastGroup? h
  refine ⟨front, last, rest, ?_, rfl, hlt, hlast, ?_, ?_⟩
  · rw [hr, show front ++ last :: rest = (front ++ [last]) ++ rest by simp,
      List.take_left' (by simp)]
  · rw [Reader.unread_skip, hr, List.drop_left]
  · have hrun := hloop.advance hfront ⟨last :: rest, hr.symm⟩ (maxGroups - (front.length + 1) + 1)
      0 0
    rw [show front.length + (maxGroups - (front.length + 1) + 1) = maxGroups by omega] at hrun
    rw [hrun]
    simp

/-- Fewer than `maxGroups` groups hold 28 bits at most, so they fit 32 bits whatever they are. -/
theorem two_pow_le_of_lt_maxGroups {count : Nat} (h : count < maxGroups) :
    2 ^ (7 * count) ≤ 2 ^ 28 :=
  Nat.pow_le_pow_right (by decide) (by unfold maxGroups at h; omega)

/-- An `unsignedValue` of more than 32 bits takes all five groups. -/
theorem position_of_unsignedValue_ge (h : lastGroup? r.unread = some position)
    (hlarge : ¬unsignedValue (r.unread.take (position + 1)) < 2 ^ 32) : position = 4 := by
  obtain ⟨front, last, rest, hr, hlength, hlt, -⟩ := exists_of_lastGroup? h
  by_contra hne
  have hfew : 2 ^ (7 * (position + 1)) ≤ 2 ^ 28 :=
    two_pow_le_of_lt_maxGroups (by unfold maxGroups at hlt ⊢; omega)
  have hsmall := unsignedValue_lt (r.unread.take (position + 1))
  rw [List.length_take_of_le (by rw [hr]; simp; omega)] at hsmall
  omega

/-- With a last group at `position`, `lebUnsigned` gives the `unsignedValue` up to there, or an
overflow if that is no word of 32 bits. -/
theorem lebUnsigned_of_lastGroup? (h : lastGroup? r.unread = some position) :
    lebUnsigned r =
      if unsignedValue (r.unread.take (position + 1)) < 2 ^ 32 then
        .ok (unsignedValue (r.unread.take (position + 1))) (r.skip (position + 1))
      else .error (.varintOverflow r.description r.offset) (r.skip maxGroups) := by
  obtain ⟨front, last, rest, htake, hlength, hlt, hlast, hnext, hrun⟩ :=
    (loops_unsignedGroups r.offset).reaches_last h
  have hvalue : unsignedValue (r.unread.take (position + 1)) =
      unsignedValue front + last.toNat % 128 * 2 ^ (7 * position) := by
    rw [htake, unsignedValue_concat, hlength]
  have hfront : unsignedValue front < 2 ^ (7 * position) := hlength ▸ unsignedValue_lt front
  rw [lebUnsigned, get_bind_eq, hrun, unsignedGroups_last hnext hlast, hvalue, Reader.skip_skip]
  by_cases hfifth : position = 4
  · subst hfifth
    by_cases hlarge : 15 < last.toNat % 128
    · rw [if_pos ⟨rfl, hlarge⟩, if_neg (by omega)]
      rfl
    · rw [if_neg (fun hover => hlarge hover.2), if_pos (by omega)]
  · have hfits := not_imp_comm.mp (position_of_unsignedValue_ge h) hfifth
    have hmore : maxGroups - (position + 1) ≠ 0 := by unfold maxGroups at hlt ⊢; omega
    rw [if_neg (fun hover => hmore hover.1), if_pos (hvalue ▸ hfits)]

/-- What the loop makes of the last group is the `signedValue` of all: the sign is bit 6 of the last
group. -/
theorem signExtend_unsignedValue (front : Bytes) (last : UInt8) :
    signExtend (unsignedValue front + last.toNat % 128 * 2 ^ (7 * front.length))
      (7 * front.length + 7) (last.toNat.testBit 6) = signedValue (front ++ [last]) := by
  have hlast : (front ++ [last]).getLastD 0 = last := by simp
  rw [signExtend, signedValue, hlast, unsignedValue_concat, Nat.shiftLeft_eq, Nat.one_mul,
    List.length_append, List.length_singleton, Nat.mul_succ]
  push_cast
  rfl

/-- A `signedValue` out of the range of 32 bits takes all five groups. -/
theorem position_of_signedValue (h : lastGroup? r.unread = some position)
    (hrange : ¬(-2 ^ 31 ≤ signedValue (r.unread.take (position + 1)) ∧
      signedValue (r.unread.take (position + 1)) < 2 ^ 31)) : position = 4 := by
  obtain ⟨front, last, rest, hr, hlength, hlt, -⟩ := exists_of_lastGroup? h
  by_contra hne
  have hfew : (2 : Int) ^ (7 * (position + 1)) ≤ 2 ^ 28 := by
    exact_mod_cast two_pow_le_of_lt_maxGroups (by unfold maxGroups at hlt ⊢; omega)
  have hsmall := signedValue_bounds (r.unread.take (position + 1))
  rw [List.length_take_of_le (by rw [hr]; simp; omega)] at hsmall
  omega

/-- With a last group at `position`, `lebSigned` gives the `signedValue` up to there, or an overflow
if that does not fit 32 bits. -/
theorem lebSigned_of_lastGroup? (h : lastGroup? r.unread = some position) :
    lebSigned r =
      if -2 ^ 31 ≤ signedValue (r.unread.take (position + 1)) ∧
          signedValue (r.unread.take (position + 1)) < 2 ^ 31 then
        .ok (Int32.ofInt (signedValue (r.unread.take (position + 1)))) (r.skip (position + 1))
      else .error (.varintOverflow r.description r.offset) (r.skip maxGroups) := by
  obtain ⟨front, last, rest, htake, rfl, hlt, hlast, hnext, hrun⟩ :=
    (loops_signedGroups r.offset).reaches_last h
  rw [lebSigned, get_bind_eq, hrun, signedGroups_last hnext hlast, signExtend_unsignedValue,
    ← htake, Reader.skip_skip]
  by_cases hrange : -2 ^ 31 ≤ signedValue (r.unread.take (front.length + 1)) ∧
      signedValue (r.unread.take (front.length + 1)) < 2 ^ 31
  · rw [if_pos hrange, if_pos hrange]
  · rw [if_neg hrange, if_neg hrange, position_of_signedValue h hrange]
    rfl

/-- Without a last group a loop over groups fails, with `truncated` if the bytes end early, and else
with `varintOverflow`. -/
theorem LoopsOverGroups.eq_of_lastGroup?_eq_none {loop : (left shift sum : Nat) → Read α}
    (hloop : LoopsOverGroups r.offset loop) (h : lastGroup? r.unread = none) :
    loop maxGroups 0 0 r =
      if r.unread.length < maxGroups then
        .error (.truncated r.description (r.base + r.length) 1 0) (r.skip r.unread.length)
      else .error (.varintOverflow r.description r.offset) (r.skip maxGroups) := by
  have hgroups := continues_of_lastGroup?_eq_none h
  by_cases hshort : r.unread.length < maxGroups
  · rw [List.take_of_length_le hshort.le] at hgroups
    rw [if_pos hshort, hloop.runs_short hgroups hshort, Reader.truncated, Reader.offset_skip,
      Reader.remaining_eq, Reader.unread_skip, List.drop_length, Reader.length_eq,
      ← Nat.add_assoc]
    rfl
  · have hrun := hloop.runs_over hgroups (List.take_prefix maxGroups r.unread)
    rw [List.length_take_of_le (by omega)] at hrun
    rw [if_neg hshort, hrun]

end Values

end BinaryAst.Read
