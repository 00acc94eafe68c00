import BinaryAst.Proofs.Wire.Cursor
import BinaryAst.Proofs.Wire.MachineWords
/-!
# BinaryAst.Proofs.Wire.IndexedCursor

A cursor that keeps its range whole, with its position as a word of 64 bits.

`IndexedCursor` computes with words, where a sum can be too large, and with slices of the range,
which can lie outside it; an operation to which that happens has no outcome. None has that fate
on a cursor that was only moved by operations, whatever numbers they are given, and what comes
out is what a `Cursor` gives (`IndexedCursor.performAll_eq`).
-/

namespace BinaryAst

/-- The number that an operation is given is a word. -/
def Cursor.Op.Fits : Cursor.Op → Prop
  | .peek number | .take number | .skip number => number < 2 ^ 64
  | .read | .takeUntilZero => True

/-- A cursor that keeps its range whole. -/
structure IndexedCursor where
  bytes : Bytes
  pos : BitVec 64
  base : BitVec 64
  deriving DecidableEq, Repr

namespace IndexedCursor

open Cursor (Op Answer Steps)

/-! ### Operations on words -/

/-- The cursor at the start of a range. -/
def ofBytes (base : Nat) (bytes : Bytes) : IndexedCursor := ⟨bytes, 0, BitVec.ofNat 64 base⟩

/-- Length of the range. -/
def length (w : IndexedCursor) : BitVec 64 := BitVec.ofNat 64 w.bytes.length

/-- Number of bytes ahead. A position behind the range has none. -/
def remaining (w : IndexedCursor) : BitVec 64 :=
  if w.length < w.pos then 0 else w.length - w.pos

/-- Absolute offset of the next byte, if it is a word. -/
def offset? (w : IndexedCursor) : Option (BitVec 64) := Read.add? w.base w.pos

/-- The bytes between two positions, if these are positions in the range in this order. -/
def slice? (w : IndexedCursor) (start stop : BitVec 64) : Option Bytes :=
  if start ≤ stop ∧ stop.toNat ≤ w.bytes.length then
    some (w.bytes.slice start.toNat (stop.toNat - start.toNat))
  else none

/-- The byte `ahead` positions on. A place that is no word has none. -/
def peek (w : IndexedCursor) (ahead : BitVec 64) : Option UInt8 :=
  (Read.add? w.pos ahead).bind fun place => w.bytes[place.toNat]?

/-- The next byte. -/
def read (w : IndexedCursor) : Option (Option (UInt8 × IndexedCursor)) :=
  match w.peek 0 with
  | none => some none
  | some byte => do
    let pos ← Read.add? w.pos 1
    some (some (byte, { w with pos }))

/-- The next `count` bytes. -/
def take (w : IndexedCursor) (count : BitVec 64) : Option (Option (Bytes × IndexedCursor)) :=
  if w.remaining < count then some none
  else do
    let pos ← Read.add? w.pos count
    let taken ← w.slice? w.pos pos
    some (some (taken, { w with pos }))

/-- The bytes before the next zero byte; the zero is passed as well. -/
def takeUntilZero (w : IndexedCursor) : Option (Option (Bytes × IndexedCursor)) := do
  let rest ← w.slice? (if w.length < w.pos then w.length else w.pos) w.length
  match rest.findIdx? (· == 0) with
  | none => some none
  | some count =>
    let stop ← Read.add? w.pos (BitVec.ofNat 64 count)
    let pos ← Read.add? stop 1
    let before ← w.slice? w.pos stop
    some (some (before, { w with pos }))

/-- Performs one operation; `none` if a sum is too large or a slice lies outside the range. -/
def perform (w : IndexedCursor) : Op → Option (Answer × IndexedCursor)
  | .peek ahead => some (.byte (w.peek (BitVec.ofNat 64 ahead)), w)
  | .read => w.read.map fun result => (.byte (result.map (·.1)), (result.map (·.2)).getD w)
  | .take count =>
    (w.take (BitVec.ofNat 64 count)).map fun result =>
      (.bytes (result.map (·.1)), (result.map (·.2)).getD w)
  | .skip count =>
    (w.take (BitVec.ofNat 64 count)).map fun result =>
      (.moved result.isSome, (result.map (·.2)).getD w)
  | .takeUntilZero =>
    w.takeUntilZero.map fun result => (.bytes (result.map (·.1)), (result.map (·.2)).getD w)

/-- Performs operations in order, as long as each has an outcome: the answers, and the cursor
after them. -/
def performAll (w : IndexedCursor) : List Op → Option (List Answer × IndexedCursor)
  | [] => some ([], w)
  | op :: ops =>
    (w.perform op).bind fun (answer, next) =>
      (next.performAll ops).map fun (answers, last) => (answer :: answers, last)

/-! ### The position in words -/

/-- The cursor in words is at the place of `c`: the same position in the same range, whose end is a
word. -/
structure At (w : IndexedCursor) (c : Cursor) : Prop where
  base_eq : w.base.toNat = c.base
  pos_eq : w.pos.toNat = c.pos
  unread_eq : w.bytes.drop c.pos = c.unread
  pos_le : c.pos ≤ w.bytes.length
  fits : c.base + w.bytes.length < 2 ^ 64

variable {w : IndexedCursor} {c next : Cursor} {op : Op} {answer : Answer}

theorem toNat_ofNat_of_lt {n : Nat} (h : n < 2 ^ 64) : (BitVec.ofNat 64 n).toNat = n := by
  rw [BitVec.toNat_ofNat, Nat.mod_eq_of_lt h]

/-- A sum that is a word is found by `Read.add?`. -/
theorem add?_of_lt {x y : BitVec 64} (h : x.toNat + y.toNat < 2 ^ 64) :
    ∃ sum, Read.add? x y = some sum ∧ sum.toNat = x.toNat + y.toNat :=
  ⟨x + y, if_pos h, BitVec.toNat_add_of_lt h⟩

/-- At the start of a range whose end is a word, both cursors are at the same place (`At`). -/
theorem at_ofBytes {base : Nat} {bytes : Bytes} (h : base + bytes.length < 2 ^ 64) :
    (ofBytes base bytes).At (.ofBytes base bytes) where
  base_eq := toNat_ofNat_of_lt (by omega)
  pos_eq := rfl
  unread_eq := rfl
  pos_le := Nat.zero_le _
  fits := h

namespace At

/-- What is unread is as long as the range behind the position. -/
theorem length_drop (h : w.At c) : c.unread.length = w.bytes.length - c.pos := by
  rw [← h.unread_eq, List.length_drop]

theorem toNat_length (h : w.At c) : w.length.toNat = w.bytes.length := by
  have hfits := h.fits
  exact toNat_ofNat_of_lt (by omega)

/-- The position does not lie behind the range. -/
theorem not_lt (h : w.At c) : ¬w.length < w.pos := by
  rw [BitVec.lt_def, h.toNat_length, h.pos_eq]
  exact Nat.not_lt.mpr h.pos_le

/-- `remaining` is the same number in words, since the position is not behind the range. -/
theorem toNat_remaining (h : w.At c) : w.remaining.toNat = c.remaining := by
  have hle := h.pos_le
  rw [remaining, if_neg h.not_lt, BitVec.toNat_sub_of_le, h.toNat_length, h.pos_eq,
    Cursor.remaining, h.length_drop]
  rw [BitVec.le_def, h.toNat_length, h.pos_eq]
  exact hle

/-- `offset?`, the absolute offset of the next byte, is a word. -/
theorem offset (h : w.At c) : ∃ offset, w.offset? = some offset ∧ offset.toNat = c.offset := by
  have hfits := h.fits
  have hle := h.pos_le
  obtain ⟨sum, hsum, hvalue⟩ := @add?_of_lt w.base w.pos (by rw [h.base_eq, h.pos_eq]; omega)
  exact ⟨sum, hsum, by rw [hvalue, h.base_eq, h.pos_eq, Cursor.offset]⟩

/-- The number of bytes at the front of what is unread is a word. -/
theorem toNat_length_front (h : w.At c) {taken rest : Bytes} (hunread : c.unread = taken ++ rest) :
    (BitVec.ofNat 64 taken.length).toNat = taken.length := by
  have hfits := h.fits
  have hlength := h.length_drop
  rw [hunread, List.length_append] at hlength
  exact toNat_ofNat_of_lt (by omega)

/-- Some bytes on there is a position too, and the bytes up to there are a slice. This is where the
sums of `add?` are in reach and the slices of `slice?` in range, for every operation that takes
bytes. -/
theorem moveOn (h : w.At c) {taken rest : Bytes} {count : BitVec 64}
    (hunread : c.unread = taken ++ rest) (hcount : count.toNat = taken.length) :
    ∃ pos, Read.add? w.pos count = some pos ∧ w.slice? w.pos pos = some taken ∧
      At { w with pos } ⟨c.base, c.pos + taken.length, rest⟩ := by
  have hfits := h.fits
  have hle := h.pos_le
  have hlength := h.length_drop
  rw [hunread, List.length_append] at hlength
  -- The sum is a word because it is a position in the range, which ends at one.
  obtain ⟨pos, hpos, hvalue⟩ := @add?_of_lt w.pos count (by rw [h.pos_eq, hcount]; omega)
  rw [h.pos_eq, hcount] at hvalue
  refine ⟨pos, hpos, ?_, h.base_eq, hvalue, ?_, ?_, hfits⟩
  · have hbounds : w.pos ≤ pos ∧ pos.toNat ≤ w.bytes.length := by
      rw [BitVec.le_def, hvalue, h.pos_eq]
      omega
    rw [slice?, if_pos hbounds, Bytes.slice, hvalue, h.pos_eq, h.unread_eq,
      Nat.add_sub_cancel_left, hunread, List.take_left]
  · rw [← List.drop_drop, h.unread_eq, hunread, List.drop_left]
  · simp only
    omega

/-- `peek` finds the same byte. A place that is no word lies behind the range, so there is no byte
on either side. -/
theorem peek_eq (h : w.At c) {ahead : BitVec 64} : w.peek ahead = c.unread[ahead.toNat]? := by
  have hfits := h.fits
  have hle := h.pos_le
  rw [← h.unread_eq, List.getElem?_drop, peek]
  by_cases hsum : w.pos.toNat + ahead.toNat < 2 ^ 64
  · obtain ⟨place, hplace, hvalue⟩ := add?_of_lt hsum
    rw [hplace, Option.bind_some, hvalue, h.pos_eq]
  · -- A place that is no word lies behind the range.
    rw [Read.add?, if_neg hsum, Option.bind_none, List.getElem?_eq_none]
    rw [h.pos_eq] at hsum
    omega

theorem read_of_cons (h : w.At c) {byte : UInt8} {rest : Bytes}
    (hunread : c.unread = byte :: rest) :
    ∃ w', w.read = some (some (byte, w')) ∧ w'.At ⟨c.base, c.pos + 1, rest⟩ ∧
      w'.bytes = w.bytes := by
  obtain ⟨pos, hpos, -, hat⟩ := @moveOn w c h [byte] rest 1 hunread rfl
  refine ⟨{ w with pos }, ?_, hat, rfl⟩
  have hpeek : w.peek 0 = some byte := by
    rw [h.peek_eq, hunread]
    rfl
  rw [read, hpeek]
  dsimp only
  rw [hpos]
  rfl

/-- At the end of the range, `read` has nothing to read. -/
theorem read_of_short (h : w.At c) (hshort : ¬c.Has .read) : w.read = some none := by
  have hnil : c.unread = [] := List.length_eq_zero_iff.mp (Nat.eq_zero_of_not_pos hshort)
  have hpeek : w.peek 0 = none := by
    rw [h.peek_eq, hnil]
    rfl
  rw [read, hpeek]

/-- `take` of as many bytes as are there takes them. -/
theorem take_of_append (h : w.At c) {taken rest : Bytes} (hunread : c.unread = taken ++ rest) :
    ∃ w', w.take (BitVec.ofNat 64 taken.length) = some (some (taken, w')) ∧
      w'.At ⟨c.base, c.pos + taken.length, rest⟩ ∧ w'.bytes = w.bytes := by
  have hcount := h.toNat_length_front hunread
  obtain ⟨pos, hpos, hslice, hat⟩ := h.moveOn hunread hcount
  refine ⟨{ w with pos }, ?_, hat, rfl⟩
  have henough : ¬w.remaining < BitVec.ofNat 64 taken.length := by
    rw [BitVec.lt_def, h.toNat_remaining, hcount, Cursor.remaining, hunread, List.length_append]
    omega
  rw [take, if_neg henough, hpos, Option.bind_eq_bind, Option.bind_some, hslice]
  rfl

/-- `take` of more bytes than are left takes none, however large the number is. -/
theorem take_of_short (h : w.At c) {count : Nat} (hfits : count < 2 ^ 64)
    (hshort : ¬count ≤ c.remaining) : w.take (BitVec.ofNat 64 count) = some none := by
  refine if_pos ?_
  rw [BitVec.lt_def, h.toNat_remaining, toNat_ofNat_of_lt hfits]
  exact Nat.not_le.mp hshort

/-- `slice?` from the position to the end of the range is what is unread. -/
theorem slice?_rest (h : w.At c) :
    w.slice? (if w.length < w.pos then w.length else w.pos) w.length = some c.unread := by
  have hle := h.pos_le
  have hbounds : w.pos ≤ w.length ∧ w.length.toNat ≤ w.bytes.length := by
    rw [BitVec.le_def, h.toNat_length, h.pos_eq]
    exact ⟨hle, Nat.le_refl _⟩
  rw [if_neg h.not_lt, slice?, if_pos hbounds, Bytes.slice, h.toNat_length, h.pos_eq,
    h.unread_eq, ← h.length_drop, List.take_length]

/-- `takeUntilZero` stops at the first zero byte and passes it. -/
theorem takeUntilZero_of_append (h : w.At c) {before after : Bytes}
    (hunread : c.unread = before ++ 0 :: after) (hclean : 0 ∉ before) :
    ∃ w', w.takeUntilZero = some (some (before, w')) ∧
      w'.At ⟨c.base, c.pos + before.length + 1, after⟩ ∧ w'.bytes = w.bytes := by
  have hcount := h.toNat_length_front hunread
  have hfind : c.unread.findIdx? (· == 0) = some before.length := by
    have hnone : before.findIdx? (· == 0) = none := by
      rw [List.findIdx?_eq_none_iff]
      intro byte hbyte
      exact beq_eq_false_iff_ne.mpr fun hzero => hclean (hzero ▸ hbyte)
    have hzero : (0 :: after).findIdx? (· == 0) = some 0 := rfl
    rw [hunread, List.findIdx?_append, hnone, hzero]
    simp
  obtain ⟨stop, hstop, hslice, hat⟩ := h.moveOn hunread hcount
  obtain ⟨pos, hpos, -, hnext⟩ := @moveOn _ _ hat [0] after 1 rfl rfl
  refine ⟨{ w with pos }, ?_, hnext, rfl⟩
  rw [takeUntilZero, h.slice?_rest, Option.bind_eq_bind, Option.bind_some, hfind]
  dsimp only at hpos ⊢
  rw [hstop, Option.bind_eq_bind, Option.bind_some, hpos, Option.bind_some, hslice]
  rfl

/-- Without a zero byte ahead, `takeUntilZero` takes none. -/
theorem takeUntilZero_of_short (h : w.At c) (hshort : 0 ∉ c.unread) :
    w.takeUntilZero = some none := by
  have hfind : c.unread.findIdx? (· == 0) = none := by
    rw [List.findIdx?_eq_none_iff]
    intro byte hbyte
    exact beq_eq_false_iff_ne.mpr fun hzero => hshort (hzero ▸ hbyte)
  rw [takeUntilZero, h.slice?_rest, Option.bind_eq_bind, Option.bind_some, hfind]

end At

/-- The step lemma: what an operation does to a `Cursor` (`Steps`), it does in words, and both are
at the same place afterwards. -/
theorem perform_of_steps (hat : w.At c) (hfits : op.Fits) (h : Steps c op answer next) :
    ∃ w', w.perform op = some (answer, w') ∧ w'.At next ∧ w'.bytes = w.bytes := by
  cases h with
  | @peek ahead byte h =>
      refine ⟨w, ?_, hat, rfl⟩
      rw [perform, hat.peek_eq, toNat_ofNat_of_lt hfits, h]
  | read h =>
      obtain ⟨w', hread, hnext, hbytes⟩ := hat.read_of_cons h
      exact ⟨w', by rw [perform, hread]; rfl, hnext, hbytes⟩
  | take h =>
      obtain ⟨w', htake, hnext, hbytes⟩ := hat.take_of_append h
      exact ⟨w', by rw [perform, htake]; rfl, hnext, hbytes⟩
  | skip h =>
      obtain ⟨w', htake, hnext, hbytes⟩ := hat.take_of_append h
      exact ⟨w', by rw [perform, htake]; rfl, hnext, hbytes⟩
  | takeUntilZero h hclean =>
      obtain ⟨w', htake, hnext, hbytes⟩ := hat.takeUntilZero_of_append h hclean
      exact ⟨w', by rw [perform, htake]; rfl, hnext, hbytes⟩
  | short h =>
      refine ⟨w, ?_, hat, rfl⟩
      cases op with
      | peek ahead =>
          have hnone : c.unread[ahead]? = none := List.getElem?_eq_none (Nat.not_lt.mp h)
          rw [perform, hat.peek_eq, toNat_ofNat_of_lt hfits, hnone]
          rfl
      | read => rw [perform, hat.read_of_short h]; rfl
      | take count => rw [perform, hat.take_of_short hfits h]; rfl
      | skip count => rw [perform, hat.take_of_short hfits h]; rfl
      | takeUntilZero => rw [perform, hat.takeUntilZero_of_short h]; rfl

/-- The run lemma, by induction on the operations: all of them have an outcome in words, with the
answers of the `Cursor`. -/
theorem performAll_eq {ops : List Op} (hat : w.At c) (hfits : ∀ op ∈ ops, op.Fits) :
    ∃ w', w.performAll ops = some ((c.performAll ops).map (·.1), w') ∧ w'.At (c.after ops) ∧
      w'.bytes = w.bytes := by
  induction ops generalizing w c with
  | nil => exact ⟨w, rfl, hat, rfl⟩
  | cons op ops ih =>
      obtain ⟨hop, hops⟩ := List.forall_mem_cons.mp hfits
      obtain ⟨w₁, hperform, hnext, hbytes⟩ := perform_of_steps hat hop (c.steps_perform op)
      obtain ⟨w₂, hrest, hlast, hsame⟩ := ih hnext hops
      refine ⟨w₂, ?_, ?_, hsame.trans hbytes⟩
      · rw [performAll, hperform, Option.bind_some]
        dsimp only
        rw [hrest]
        rfl
      · rw [Cursor.after_cons]
        exact hlast

/-! ### Cursors over a range -/

/-- What a cursor in words is, after operations that brought it where `c` is: it tells what `c`
tells, and one more operation does to it what it does to `c`. -/
structure Follows (bytes : Bytes) (w : IndexedCursor) (c : Cursor) : Prop where
  bytes_eq : w.bytes = bytes
  pos_eq : w.pos.toNat = c.pos
  length_eq : w.length.toNat = c.length
  remaining_eq : w.remaining.toNat = c.remaining
  offset_eq : ∃ offset, w.offset? = some offset ∧ offset.toNat = c.offset
  perform_eq : ∀ op : Op, op.Fits → ∃ w', w.perform op = some ((c.perform op).1, w') ∧
    w'.bytes = bytes ∧ w'.base = w.base ∧ w'.pos.toNat = (c.perform op).2.pos

/-- A cursor in words that is at the place of `c` follows it. -/
theorem At.follows (h : w.At c) : w.Follows w.bytes c where
  bytes_eq := rfl
  pos_eq := h.pos_eq
  length_eq := by
    have hle := h.pos_le
    rw [h.toNat_length, Cursor.length, h.length_drop]
    omega
  remaining_eq := h.toNat_remaining
  offset_eq := h.offset
  perform_eq := by
    intro op hfits
    obtain ⟨w', hperform, hnext, hbytes⟩ := perform_of_steps h hfits (c.steps_perform op)
    obtain ⟨-, -, hbase⟩ := (c.steps_perform op).moves
    refine ⟨w', hperform, hbytes, ?_, hnext.pos_eq⟩
    rw [← BitVec.toNat_inj, hnext.base_eq, h.base_eq, hbase]

/-- `performAll` on a cursor whose range ends at a word has an outcome in words, whatever words the
operations are given: no sum is too large and no slice lies outside the range. The cursor `Follows`
the one in numbers, whose answers are those of a position in the list of bytes (`Tracks`, `Obeys`),
where what was taken (`passed`) is what lies in front of it. -/
theorem performAll_tracks {base : Nat} {bytes : Bytes} {ops : List Op}
    (hbase : base + bytes.length < 2 ^ 64) (hfits : ∀ op ∈ ops, op.Fits) :
    ∃ w, (ofBytes base bytes).performAll ops =
        some (((Cursor.ofBytes base bytes).performAll ops).map (·.1), w) ∧
      w.Follows bytes ((Cursor.ofBytes base bytes).after ops) ∧
      ((Cursor.ofBytes base bytes).after ops).Tracks base bytes ∧
      (Cursor.ofBytes base bytes).passed ops =
        bytes.take ((Cursor.ofBytes base bytes).after ops).pos ∧
      ∀ op, ((Cursor.ofBytes base bytes).after ops).Obeys bytes op := by
  obtain ⟨w, hrun, hat, hbytes⟩ := performAll_eq (at_ofBytes hbase) hfits
  obtain ⟨htracks, hpassed⟩ := Cursor.tracks_after base bytes ops
  refine ⟨w, hrun, ?_, htracks, hpassed, htracks.obeys⟩
  have hwhole : w.bytes = bytes := hbytes
  exact hwhole ▸ hat.follows

/-- Up to the last word: `performAll` over two terminated strings, two requests that are far too
large, and a look over the end. -/
theorem performAll_tracks_largest :
    (2 ^ 64 - 8 + 7 < 2 ^ 64 ∧
      ∀ op ∈ [Op.takeUntilZero, .take (2 ^ 64 - 1), .skip 1, .peek (2 ^ 64 - 1), .takeUntilZero,
        .take 2, .takeUntilZero, .read], op.Fits) ∧
    ∃ w, (ofBytes (2 ^ 64 - 8) [97, 0, 0, 98, 0, 1, 2]).performAll
          [.takeUntilZero, .take (2 ^ 64 - 1), .skip 1, .peek (2 ^ 64 - 1), .takeUntilZero,
            .take 2, .takeUntilZero, .read] =
        some ([.bytes (some [97]), .bytes none, .moved true, .byte none, .bytes (some [98]),
          .bytes (some [1, 2]), .bytes none, .byte none], w) ∧
      w.Follows [97, 0, 0, 98, 0, 1, 2] ⟨2 ^ 64 - 8, 7, []⟩ := by
  have hbase : 2 ^ 64 - 8 + [97, 0, 0, 98, 0, 1, (2 : UInt8)].length < 2 ^ 64 := by decide
  have hfits : ∀ op ∈ [Op.takeUntilZero, .take (2 ^ 64 - 1), .skip 1, .peek (2 ^ 64 - 1),
      .takeUntilZero, .take 2, .takeUntilZero, .read], op.Fits := by
    simp [Cursor.Op.Fits]
  obtain ⟨w, hrun, hfollows, -⟩ := performAll_tracks hbase hfits
  exact ⟨⟨hbase, hfits⟩, w, hrun, hfollows⟩

end IndexedCursor

end BinaryAst
