import BinaryAst.Wire.Bytes
/-!
# BinaryAst.Wire.Cursor

A bounded forward position in a byte range of a larger buffer.

A cursor holds the bytes it has not passed yet, so no read can leave the range.
Every operation that may find too few bytes answers `none` and hands out no new
cursor: the caller keeps the one it had, and decides how to report the shortage.
-/

namespace BinaryAst

/-- A position in a byte range that starts at offset `base` of a larger buffer. -/
structure Cursor where
  /-- Absolute offset of the first byte of the range. -/
  base : Nat
  /-- Number of bytes of the range that lie behind the cursor. -/
  pos : Nat
  /-- The bytes ahead of the cursor. -/
  unread : Bytes
  deriving DecidableEq, Repr

namespace Cursor

/-- The cursor at the start of a range. -/
def ofBytes (base : Nat) (bytes : Bytes) : Cursor := ⟨base, 0, bytes⟩

/-- Absolute offset of the next byte. -/
def offset (c : Cursor) : Nat := c.base + c.pos

/-- Number of bytes ahead. -/
def remaining (c : Cursor) : Nat := c.unread.length

/-- Length of the whole range. -/
def length (c : Cursor) : Nat := c.pos + c.unread.length

/-- No byte lies in the range at all. -/
def isEmpty (c : Cursor) : Bool := c.length == 0

/-- The byte `ahead` positions on, without moving. -/
def peek (c : Cursor) (ahead : Nat) : Option UInt8 := c.unread[ahead]?

/-- The next byte. -/
def read (c : Cursor) : Option (UInt8 × Cursor) :=
  match c.unread with
  | [] => none
  | byte :: rest => some (byte, { c with pos := c.pos + 1, unread := rest })

/-- The next `count` bytes. -/
def take (c : Cursor) (count : Nat) : Option (Bytes × Cursor) :=
  (Bytes.split? count c.unread).map fun (taken, rest) =>
    (taken, { c with pos := c.pos + count, unread := rest })

/-- Moves `count` bytes on without looking at them. -/
def skip (c : Cursor) (count : Nat) : Option (Unit × Cursor) :=
  (c.take count).map fun (_, next) => ((), next)

/-- The bytes before the next zero byte; the zero is passed as well. -/
def takeUntilZero (c : Cursor) : Option (Bytes × Cursor) :=
  (Bytes.splitAtZero? c.unread).map fun (before, after) =>
    (before, { c with pos := c.pos + before.length + 1, unread := after })

/-! ### What the reads take

A read that succeeds takes bytes from the front of what is unread and moves the
position by as many; the range itself stays. -/

theorem read_eq_some_iff {c next : Cursor} {byte : UInt8} :
    c.read = some (byte, next) ↔
      ∃ rest, c.unread = byte :: rest ∧ next = ⟨c.base, c.pos + 1, rest⟩ := by
  obtain ⟨base, pos, unread⟩ := c
  cases unread with
  | nil => simp [read]
  | cons first rest => simp [read, eq_comm, and_assoc]

theorem take_eq_some_iff {c next : Cursor} {count : Nat} {taken : Bytes} :
    c.take count = some (taken, next) ↔
      ∃ rest, c.unread = taken ++ rest ∧ taken.length = count ∧
        next = ⟨c.base, c.pos + count, rest⟩ := by
  simp only [take, Option.map_eq_some_iff, Prod.exists, Prod.mk.injEq,
    Bytes.split?_eq_some_iff]
  constructor
  · rintro ⟨_, rest, ⟨split, length⟩, rfl, rfl⟩
    exact ⟨rest, split, length, rfl⟩
  · rintro ⟨rest, split, length, rfl⟩
    exact ⟨taken, rest, ⟨split, length⟩, rfl, rfl⟩

theorem take_eq_none_iff {c : Cursor} {count : Nat} :
    c.take count = none ↔ c.remaining < count := by
  simp [take, Bytes.split?_eq_none_iff, remaining]

theorem takeUntilZero_eq_some_iff {c next : Cursor} {before : Bytes} :
    c.takeUntilZero = some (before, next) ↔
      ∃ after, c.unread = before ++ 0 :: after ∧ 0 ∉ before ∧
        next = ⟨c.base, c.pos + before.length + 1, after⟩ := by
  simp only [takeUntilZero, Option.map_eq_some_iff, Prod.exists, Prod.mk.injEq,
    Bytes.splitAtZero?_eq_some_iff]
  constructor
  · rintro ⟨_, after, ⟨split, clean⟩, rfl, rfl⟩
    exact ⟨after, split, clean, rfl⟩
  · rintro ⟨after, split, clean, rfl⟩
    exact ⟨before, after, ⟨split, clean⟩, rfl, rfl⟩

/-! ### Sequences of operations -/

/-- One operation on a cursor. -/
inductive Op
  | peek (ahead : Nat)
  | read
  | take (count : Nat)
  | skip (count : Nat)
  | takeUntilZero
  deriving DecidableEq, Repr

/-- What an operation gives back; `none` and `false` stand for too few bytes. -/
inductive Answer
  | byte (byte : Option UInt8)
  | bytes (bytes : Option Bytes)
  | moved (moved : Bool)
  deriving DecidableEq, Repr

/-- Performs one operation. The cursor stays as it was when the operation finds
too few bytes. -/
def perform (c : Cursor) : Op → Answer × Cursor
  | .peek ahead => (.byte (c.peek ahead), c)
  | .read => (.byte (c.read.map (·.1)), (c.read.map (·.2)).getD c)
  | .take count => (.bytes ((c.take count).map (·.1)), ((c.take count).map (·.2)).getD c)
  | .skip count => (.moved (c.skip count).isSome, ((c.skip count).map (·.2)).getD c)
  | .takeUntilZero =>
    (.bytes (c.takeUntilZero.map (·.1)), (c.takeUntilZero.map (·.2)).getD c)

/-- Performs operations in order, and gives each answer with the cursor after it. -/
def performAll (c : Cursor) : List Op → List (Answer × Cursor)
  | [] => []
  | op :: ops => c.perform op :: (c.perform op).2.performAll ops

end Cursor

end BinaryAst
