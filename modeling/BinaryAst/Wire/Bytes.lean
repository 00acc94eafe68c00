/-!
# BinaryAst.Wire.Bytes

Byte strings, and the two readings the wire format gives them: a little-endian
number and a UTF-8 text.

Bytes are kept as a list, because everything above this module consumes them
from the front. The only index arithmetic on bytes is here (`split?`, `slice`), so a
statement about a read is a statement of the form `bytes = taken ++ rest`.
-/

namespace BinaryAst

/-- A byte string. -/
abbrev Bytes := List UInt8

namespace Bytes

/-! ### Taking from the front -/

/-- The first `count` bytes and the rest; `none` when there are fewer. -/
def split? (count : Nat) (bytes : Bytes) : Option (Bytes × Bytes) :=
  if (bytes.take count).length = count then
    some (bytes.take count, bytes.drop count)
  else
    none

theorem split?_eq_some_iff {count : Nat} {bytes taken rest : Bytes} :
    split? count bytes = some (taken, rest) ↔
      bytes = taken ++ rest ∧ taken.length = count := by
  constructor
  · intro h
    unfold split? at h
    split at h
    · cases h
      exact ⟨(List.take_append_drop count bytes).symm, by assumption⟩
    · cases h
  · rintro ⟨rfl, rfl⟩
    simp [split?]

theorem split?_eq_none_iff {count : Nat} {bytes : Bytes} :
    split? count bytes = none ↔ bytes.length < count := by
  simp only [split?, List.length_take, ite_eq_right_iff, reduceCtorEq, imp_false]
  omega

/-- The bytes before the first zero and the bytes after it; `none` when there is
no zero. -/
def splitAtZero? (bytes : Bytes) : Option (Bytes × Bytes) :=
  match bytes.dropWhile (· != 0) with
  | [] => none
  | _ :: after => some (bytes.takeWhile (· != 0), after)

theorem splitAtZero?_eq_some_iff {bytes before after : Bytes} :
    splitAtZero? bytes = some (before, after) ↔
      bytes = before ++ 0 :: after ∧ 0 ∉ before := by
  constructor
  · intro h
    unfold splitAtZero? at h
    split at h
    · cases h
    · rename_i zero rest dropped
      cases h
      have stop := List.head?_dropWhile_not (· != (0 : UInt8)) bytes
      rw [dropped] at stop
      have zero_eq : zero = 0 := by simpa using stop
      rw [zero_eq] at dropped
      refine ⟨?_, fun mem => ?_⟩
      · rw [← dropped, List.takeWhile_append_dropWhile]
      · simpa using List.all_eq_true.1 List.all_takeWhile 0 mem
  · rintro ⟨rfl, clean⟩
    have nonzero : ∀ byte ∈ before, (byte != 0) = true := fun byte mem => by
      simp only [bne_iff_ne, ne_eq]
      exact fun zero => clean (zero ▸ mem)
    simp only [splitAtZero?, List.dropWhile_append_of_pos nonzero,
      List.takeWhile_append_of_pos nonzero]
    simp

/-! ### Bytes by their place -/

/-- `count` bytes from an offset on. -/
def slice (bytes : Bytes) (offset count : Nat) : Bytes := (bytes.drop offset).take count

theorem slice_append (front middle back : Bytes) :
    slice (front ++ (middle ++ back)) front.length middle.length = middle := by
  rw [slice, List.drop_left, List.take_left]

/-! ### Little-endian numbers -/

/-- The number whose base-256 digits the bytes are, least significant first. -/
def toNat : Bytes → Nat
  | [] => 0
  | byte :: rest => byte.toNat + 256 * toNat rest

/-- The low `count` base-256 digits of a number, least significant first. -/
def ofNat : (count : Nat) → (value : Nat) → Bytes
  | 0, _ => []
  | count + 1, value => UInt8.ofNat value :: ofNat count (value / 256)

@[simp] theorem length_ofNat (count value : Nat) : (ofNat count value).length = count := by
  induction count generalizing value with
  | zero => rfl
  | succ count ih => simp [ofNat, ih]

theorem ofNat_toNat (bytes : Bytes) : ofNat bytes.length (toNat bytes) = bytes := by
  induction bytes with
  | nil => rfl
  | cons byte rest ih =>
    have h := byte.toNat_lt
    have hd : toNat (byte :: rest) / 256 = toNat rest := by simp only [toNat]; omega
    have hm : UInt8.ofNat (toNat (byte :: rest)) = byte := by
      apply UInt8.toNat_inj.1
      simp only [UInt8.toNat_ofNat', toNat]
      omega
    simp only [List.length_cons, ofNat, hd, hm, ih]

/-! ### Text -/

/-- The UTF-8 form of a text. -/
def ofText (text : String) : Bytes := text.toByteArray.data.toList

/-- The text a byte string spells in UTF-8; `none` when it spells none. -/
def toText? (bytes : Bytes) : Option String := String.fromUTF8? ⟨bytes.toArray⟩

theorem toText?_ofText (text : String) : toText? (ofText text) = some text := by
  have h : (⟨(ofText text).toArray⟩ : ByteArray) = text.toByteArray := by simp [ofText]
  rw [toText?, h]
  simp [String.fromUTF8?, text.isValidUTF8, String.fromUTF8]

theorem eq_ofText_of_toText? {bytes : Bytes} {text : String} (h : toText? bytes = some text) :
    bytes = ofText text := by
  unfold toText? String.fromUTF8? at h
  split at h
  · cases h
    simp [ofText, String.fromUTF8]
  · cases h

end Bytes

end BinaryAst
