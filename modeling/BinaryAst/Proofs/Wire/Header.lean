import BinaryAst.Proofs.Wire.Primitives
import BinaryAst.Wire.Header
import BinaryAst.Wire.Writer
import Mathlib.Algebra.Group.Nat.Defs
/-!
# BinaryAst.Proofs.Wire.Header

The header, as the bytes that are written for it (`header_eq_ok_iff`).

A range that is shorter than the magic bytes is taken whole and shown; any longer range is read
like everything else, a fixed number of bytes at a time.
-/

namespace BinaryAst

namespace Bytes

theorem toNat_ofNat (count value : Nat) : toNat (ofNat count value) = value % 256 ^ count := by
  induction count generalizing value with
  | zero => simp [ofNat, toNat, Nat.mod_one]
  | succ count ih =>
    have byte : (UInt8.ofNat value).toNat = value % 256 := UInt8.toNat_ofNat'
    rw [ofNat, toNat, ih, byte, Nat.pow_succ', Nat.mod_mul]

theorem toNat_lt (bytes : Bytes) : toNat bytes < 256 ^ bytes.length := by
  induction bytes with
  | nil => simp [toNat]
  | cons byte rest ih =>
    have := byte.toNat_lt
    simp only [toNat, List.length_cons, Nat.pow_succ']
    omega

end Bytes

/-- The counts fit four bytes each. -/
structure Header.Fits (h : Header) : Prop where
  tagCount : h.tagCount < 2 ^ 32
  objectCount : h.objectCount < 2 ^ 32

/-- The bytes of a header. -/
def Header.bytes (h : Header) : Bytes := Write.header h.tagCount h.objectCount

@[simp] theorem Header.length_bytes (h : Header) : h.bytes.length = Header.size := by
  simp [bytes, Write.header, Write.uint32, Header.size]

theorem Write.spells_uint32 {format : WireFormat} {value : Nat} (h : value < 2 ^ 32) :
    Read.Spells format Read.uint32 (Write.uint32 value) value := by
  refine Read.spells_unsigned_iff.mpr ⟨Bytes.length_ofNat 4 value, ?_⟩
  rw [Write.uint32, Bytes.toNat_ofNat]
  exact Nat.mod_eq_of_lt (by omega)

/-- Four bytes that spell a number are what `Write.uint32` writes for it. -/
theorem Write.uint32_of_spells {format : WireFormat} {bytes : Bytes} {value : Nat}
    (h : Read.Spells format Read.uint32 bytes value) :
    bytes = Write.uint32 value ∧ value < 2 ^ 32 := by
  obtain ⟨hlen, rfl⟩ := Read.spells_unsigned_iff.mp h
  refine ⟨?_, ?_⟩
  · rw [Write.uint32, ← hlen, Bytes.ofNat_toNat]
  · have := Bytes.toNat_lt bytes
    rw [hlen] at this
    omega

namespace Read

/-- A header, where there are enough bytes for the magic ones. -/
def fullHeader : Read Header := do
  let got ← bytes magic.length
  if got = magic then
    let tagCount ← uint32
    let objectCount ← uint32
    pure ⟨tagCount, objectCount⟩
  else
    throw (.badMagic got)

theorem header_eq_fullHeader {r : Reader} (h : magic.length ≤ r.unread.length) :
    Header.read r = fullHeader r := by
  have hmin : min magic.length r.remaining = magic.length := Nat.min_eq_left h
  rw [Header.read, get_bind_eq, hmin]
  rfl

/-- `Header.read` shows a range that is too short for the magic bytes as it is, in `badMagic`. -/
theorem header_of_short {r : Reader} (h : r.unread.length < magic.length) :
    Header.read r = .error (.badMagic r.unread) (r.skip r.unread.length) := by
  have hmin : min magic.length r.remaining = r.unread.length := Nat.min_eq_right (by
    rw [Reader.remaining_eq]
    omega)
  have hne : r.unread ≠ magic := fun heq => by
    rw [heq] at h
    omega
  have hbytes : bytes r.unread.length r = .ok r.unread (r.skip r.unread.length) :=
    spells_ofCursor (Cursor.takes_take r.unread) r rfl List.prefix_rfl
  rw [Header.read, get_bind_eq, hmin, bind_of_ok hbytes, if_neg hne]
  rfl

theorem exact_fullHeader : Exact fullHeader := by
  refine (exact_bytes _).bind fun got => ?_
  split
  case isTrue => exact exact_uint32.bind fun _ => exact_uint32.bind fun _ => .pure _
  case isFalse => exact .throw _

theorem spells_fullHeader {format : WireFormat} {h : Header} (hfits : h.Fits) :
    Spells format fullHeader h.bytes h := by
  have hcounts : Spells format
      (uint32 >>= fun tags => uint32 >>= fun objects => pure ⟨tags, objects⟩)
      (Write.uint32 h.tagCount ++ (Write.uint32 h.objectCount ++ [])) h :=
    (Write.spells_uint32 hfits.tagCount).bind
      ((Write.spells_uint32 hfits.objectCount).bind (.pure h))
  have hmagic : Spells format (bytes magic.length) magic magic :=
    spells_ofCursor (Cursor.takes_take magic)
  rw [show h.bytes = magic ++ (Write.uint32 h.tagCount ++ (Write.uint32 h.objectCount ++ [])) by
    simp [Header.bytes, Write.header]]
  refine hmagic.bind ?_
  rw [if_pos rfl]
  exact hcounts

/-- `fullHeader` reads nothing but the bytes of a header that `Fits`. -/
theorem fits_of_fullHeader {r r' : Reader} {h : Header} (hread : fullHeader r = .ok h r') :
    h.Fits ∧ h.bytes <+: r.unread ∧ r' = r.skip Header.size := by
  obtain ⟨got, r₁, hgot, hread⟩ := bind_eq_ok_iff.mp hread
  obtain ⟨hfirst, -, rfl⟩ := bytes_eq_ok_iff.mp hgot
  by_cases hmagic : got = magic
  · subst hmagic
    rw [if_pos rfl] at hread
    obtain ⟨tags, r₂, htags, hread⟩ := bind_eq_ok_iff.mp hread
    obtain ⟨second, hsecond, rfl, hspell₂, -⟩ := exact_uint32 _ _ _ htags
    obtain ⟨objects, r₃, hobjects, hread⟩ := bind_eq_ok_iff.mp hread
    obtain ⟨third, hthird, rfl, hspell₃, -⟩ := exact_uint32 _ _ _ hobjects
    obtain ⟨rfl, rfl⟩ := pure_eq_ok_iff.mp hread
    obtain ⟨rfl, htagCount⟩ := Write.uint32_of_spells hspell₂
    obtain ⟨rfl, hobjectCount⟩ := Write.uint32_of_spells hspell₃
    refine ⟨⟨htagCount, hobjectCount⟩, ?_, ?_⟩
    · have := Reader.append_isPrefix hfirst (Reader.append_isPrefix hsecond hthird)
      simpa [Header.bytes, Write.header] using this
    · simp [Reader.skip_skip, Write.uint32, Header.size]
  · rw [if_neg hmagic] at hread
    exact absurd hread throw_ne_ok

/-- `Header.read` gives a header exactly where its bytes are next and it `Fits`. -/
theorem header_eq_ok_iff {r r' : Reader} {h : Header} :
    Header.read r = .ok h r' ↔ h.Fits ∧ h.bytes <+: r.unread ∧ r' = r.skip Header.size := by
  constructor
  · intro hread
    by_cases hlen : magic.length ≤ r.unread.length
    · rw [header_eq_fullHeader hlen] at hread
      exact fits_of_fullHeader hread
    · rw [header_of_short (by omega)] at hread
      cases hread
  · intro h
    rcases h with ⟨hfits, hp, rfl⟩
    have hlen : magic.length ≤ r.unread.length := by
      have := hp.length_le
      simp only [Header.length_bytes, Header.size] at this
      omega
    rw [header_eq_fullHeader hlen, spells_fullHeader hfits r rfl hp, Header.length_bytes]

/-- `Header.read` is cut short like any other read where the magic bytes are there. -/
theorem header_of_cut {r : Reader} {h : Header} (hfits : h.Fits) (hp : r.unread <+: h.bytes)
    (hmagic : magic.length ≤ r.unread.length) (hlt : r.unread.length < h.bytes.length) :
    ∃ need count, count ≤ r.unread.length ∧
      Header.read r = .error ((r.skip count).truncated need) (r.skip count) := by
  rw [header_eq_fullHeader hmagic]
  exact exact_fullHeader.starves (spells_fullHeader hfits) r rfl hp hlt

end Read

end BinaryAst
