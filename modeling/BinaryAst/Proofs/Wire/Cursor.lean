import BinaryAst.Proofs.Wire.Primitives
/-!
# BinaryAst.Proofs.Wire.Cursor

A cursor is a list of bytes with a position in it, whatever is done to it.

What an operation can do is said once (`Cursor.Steps`): it looks, it takes bytes from the front
of what is unread, or it finds too few of them and changes nothing. So the bytes that were taken
and those that are unread make up the range at any time (`Cursor.unread_eq_passed_append`), and
all that a cursor tells of itself follows from the position (`Cursor.Tracks`).
-/

namespace BinaryAst.Cursor

variable {c next : Cursor} {op : Op} {answer : Answer} {base : Nat} {bytes : Bytes}

/-! ### One operation -/

/-- The operation finds the bytes that it asks for. -/
def Has (c : Cursor) : Op → Prop
  | .peek ahead => ahead < c.remaining
  | .read => 0 < c.remaining
  | .take count | .skip count => count ≤ c.remaining
  | .takeUntilZero => 0 ∈ c.unread

/-- The answer of an operation that finds too few bytes. -/
def Op.shortage : Op → Answer
  | .peek _ | .read => .byte none
  | .take _ | .takeUntilZero => .bytes none
  | .skip _ => .moved false

/-- What an operation can do, with its answer and the cursor after it. -/
inductive Steps (c : Cursor) : Op → Answer → Cursor → Prop
  | peek {ahead : Nat} {byte : UInt8} (h : c.unread[ahead]? = some byte) :
      Steps c (.peek ahead) (.byte (some byte)) c
  | read {byte : UInt8} {rest : Bytes} (h : c.unread = byte :: rest) :
      Steps c .read (.byte (some byte)) ⟨c.base, c.pos + 1, rest⟩
  | take {taken rest : Bytes} (h : c.unread = taken ++ rest) :
      Steps c (.take taken.length) (.bytes (some taken)) ⟨c.base, c.pos + taken.length, rest⟩
  | skip {passed rest : Bytes} (h : c.unread = passed ++ rest) :
      Steps c (.skip passed.length) (.moved true) ⟨c.base, c.pos + passed.length, rest⟩
  | takeUntilZero {before after : Bytes} (h : c.unread = before ++ 0 :: after)
      (hclean : 0 ∉ before) :
      Steps c .takeUntilZero (.bytes (some before)) ⟨c.base, c.pos + before.length + 1, after⟩
  | short {op : Op} (h : ¬c.Has op) : Steps c op op.shortage c

theorem steps_perform (c : Cursor) (op : Op) : Steps c op (c.perform op).1 (c.perform op).2 := by
  cases op with
  | peek ahead =>
      cases hbyte : c.peek ahead with
      | some byte =>
          rw [perform, hbyte]
          exact .peek hbyte
      | none =>
          rw [perform, hbyte]
          refine .short fun hhas => ?_
          exact absurd (List.getElem?_eq_none_iff.mp hbyte) (Nat.not_le.mpr hhas)
  | read =>
      cases hread : c.read with
      | some result =>
          obtain ⟨byte, next⟩ := result
          obtain ⟨rest, hrest, rfl⟩ := read_eq_some_iff.mp hread
          rw [perform, hread]
          exact .read hrest
      | none =>
          rw [perform, hread]
          refine .short fun hhas => ?_
          obtain ⟨byte, rest, hrest⟩ := List.exists_cons_of_length_pos hhas
          rw [read_eq_some_iff.mpr ⟨rest, hrest, rfl⟩] at hread
          cases hread
  | take count =>
      cases htake : c.take count with
      | some result =>
          obtain ⟨taken, next⟩ := result
          obtain ⟨rest, hrest, rfl, rfl⟩ := take_eq_some_iff.mp htake
          rw [perform, htake]
          exact .take hrest
      | none =>
          rw [perform, htake]
          exact .short fun hhas => absurd (take_eq_none_iff.mp htake) (Nat.not_lt.mpr hhas)
  | skip count =>
      cases htake : c.take count with
      | some result =>
          obtain ⟨passed, next⟩ := result
          obtain ⟨rest, hrest, rfl, rfl⟩ := take_eq_some_iff.mp htake
          rw [perform, skip, htake]
          exact .skip hrest
      | none =>
          rw [perform, skip, htake]
          exact .short fun hhas => absurd (take_eq_none_iff.mp htake) (Nat.not_lt.mpr hhas)
  | takeUntilZero =>
      cases htake : c.takeUntilZero with
      | some result =>
          obtain ⟨before, next⟩ := result
          obtain ⟨after, hafter, hclean, rfl⟩ := takeUntilZero_eq_some_iff.mp htake
          rw [perform, htake]
          exact .takeUntilZero hafter hclean
      | none =>
          rw [perform, htake]
          -- Here a shortage is no matter of length: no byte up to the end of the range is zero.
          refine .short (Bytes.splitAtZero?_eq_none_iff.mp ?_)
          exact Option.map_eq_none_iff.mp htake

/-- The bytes that an operation has taken, by its answer: a terminator counts, and of bytes that
were skipped there is nothing but their number. -/
def range (c : Cursor) : Op → Answer → Bytes
  | .read, .byte (some byte) => [byte]
  | .take _, .bytes (some taken) => taken
  | .skip count, .moved true => c.unread.take count
  | .takeUntilZero, .bytes (some before) => before ++ [0]
  | _, _ => []

/-- The answer is that of an operation that found its bytes. -/
def Answer.succeeds : Answer → Bool
  | .byte shown => shown.isSome
  | .bytes taken => taken.isSome
  | .moved done => done

theorem range_shortage (c : Cursor) (op : Op) : c.range op op.shortage = [] := by
  cases op <;> rfl

theorem succeeds_shortage (op : Op) : op.shortage.succeeds = false := by
  cases op <;> rfl

namespace Steps

/-- `Steps` takes the front of what was unread, its `range`, and the position moves on by as much.
-/
theorem moves (h : Steps c op answer next) :
    c.unread = c.range op answer ++ next.unread ∧
      next.pos = c.pos + (c.range op answer).length ∧ next.base = c.base := by
  cases h with
  | peek => exact ⟨rfl, rfl, rfl⟩
  | read h => exact ⟨h, rfl, rfl⟩
  | take h => exact ⟨h, rfl, rfl⟩
  | @skip passed rest h =>
      have htaken : c.unread.take passed.length = passed := by rw [h, List.take_left]
      exact ⟨by rw [range, htaken, h], by rw [range, htaken], rfl⟩
  | @takeUntilZero before after h =>
      exact ⟨by simp [range, h], by simp [range, Nat.add_assoc], rfl⟩
  | short => simp [range_shortage]

theorem succeeds_iff (h : Steps c op answer next) : answer.succeeds = true ↔ c.Has op := by
  cases h with
  | @peek ahead byte h =>
      exact iff_of_true rfl (List.getElem?_eq_some_iff.mp h).1
  | read h => exact iff_of_true rfl (by simp [Has, remaining, h])
  | take h => exact iff_of_true rfl (by simp [Has, remaining, h])
  | skip h => exact iff_of_true rfl (by simp [Has, remaining, h])
  | takeUntilZero h => exact iff_of_true rfl (by simp [Has, h])
  | short h => exact iff_of_false (by simp [succeeds_shortage]) h

theorem eq_of_not_succeeds (h : Steps c op answer next) (hfails : answer.succeeds = false) :
    next = c := by
  cases h with
  | peek | short => rfl
  | _ => cases hfails

theorem length_taken {count : Nat} {taken : Bytes}
    (h : Steps c (.take count) (.bytes (some taken)) next) : taken.length = count := by
  cases h with
  | take => rfl

theorem clean {before : Bytes} (h : Steps c .takeUntilZero (.bytes (some before)) next) :
    0 ∉ before := by
  cases h with
  | takeUntilZero _ hclean => exact hclean

end Steps

/-! ### Runs -/

/-- The cursor after operations. -/
def after (c : Cursor) (ops : List Op) : Cursor :=
  ((c.performAll ops).getLast?.map (·.2)).getD c

@[simp] theorem after_nil (c : Cursor) : c.after [] = c := rfl

theorem after_cons (c : Cursor) (op : Op) (ops : List Op) :
    c.after (op :: ops) = (c.perform op).2.after ops := by
  rw [after, performAll, List.getLast?_cons, after]
  cases ((c.perform op).2.performAll ops).getLast? <;> rfl

/-- The bytes that operations have taken, one after the other. -/
def passed (c : Cursor) : List Op → Bytes
  | [] => []
  | op :: ops => c.range op (c.perform op).1 ++ (c.perform op).2.passed ops

theorem unread_eq_passed_append (c : Cursor) (ops : List Op) :
    c.unread = c.passed ops ++ (c.after ops).unread ∧
      (c.after ops).pos = c.pos + (c.passed ops).length ∧ (c.after ops).base = c.base := by
  induction ops generalizing c with
  | nil => exact ⟨rfl, rfl, rfl⟩
  | cons op ops ih =>
      obtain ⟨hunread, hpos, hbase⟩ := (steps_perform c op).moves
      obtain ⟨hrest, hlast, hsame⟩ := ih (c.perform op).2
      rw [after_cons, passed]
      refine ⟨?_, ?_, hsame.trans hbase⟩
      · rw [List.append_assoc, ← hrest, ← hunread]
      · rw [hlast, hpos, List.length_append, Nat.add_assoc]

/-- The cursor is a position in the bytes. -/
structure Tracks (base : Nat) (bytes : Bytes) (c : Cursor) : Prop where
  base_eq : c.base = base
  length_eq : c.length = bytes.length
  pos_le : c.pos ≤ c.length
  remaining_eq : c.remaining = c.length - c.pos
  offset_eq : c.offset = base + c.pos
  unread_eq : c.unread = bytes.drop c.pos

theorem tracks_after (base : Nat) (bytes : Bytes) (ops : List Op) :
    ((ofBytes base bytes).after ops).Tracks base bytes ∧
      (ofBytes base bytes).passed ops = bytes.take ((ofBytes base bytes).after ops).pos := by
  obtain ⟨hunread, hpos, hbase⟩ := (ofBytes base bytes).unread_eq_passed_append ops
  generalize (ofBytes base bytes).after ops = c at hunread hpos hbase ⊢
  generalize (ofBytes base bytes).passed ops = taken at hunread hpos ⊢
  have hbytes : bytes = taken ++ c.unread := hunread
  have htaken : c.pos = taken.length := hpos.trans (Nat.zero_add _)
  have hbase : c.base = base := hbase
  have hlength : bytes.length = c.pos + c.unread.length := by
    rw [hbytes, List.length_append, htaken]
  refine ⟨⟨hbase, hlength.symm, Nat.le_add_right _ _, ?_, ?_, ?_⟩, ?_⟩
  · rw [remaining, length, Nat.add_sub_cancel_left]
  · rw [offset, hbase]
  · rw [hbytes, htaken, List.drop_left]
  · rw [hbytes, htaken, List.take_left]

/-- What an operation keeps to, on a cursor over the bytes. -/
structure Obeys (bytes : Bytes) (c : Cursor) (op : Op) : Prop where
  /-- It succeeds exactly where there are enough bytes. -/
  succeeds_iff : (c.perform op).1.succeeds = true ↔ c.Has op
  /-- Where it fails it changes nothing. -/
  failed : (c.perform op).1.succeeds = false → (c.perform op).2 = c
  /-- Looking ahead changes nothing, and shows the byte at its place. -/
  peek : ∀ ahead, op = .peek ahead → c.perform op = (.byte bytes[c.pos + ahead]?, c)
  pos_le : c.pos ≤ (c.perform op).2.pos
  /-- What it has taken are the bytes between the two positions. -/
  range_eq : c.range op (c.perform op).1 = bytes.slice c.pos ((c.perform op).2.pos - c.pos)
  /-- As many bytes are taken as were asked for, so they fill a block of that length. -/
  length_taken : ∀ count taken, op = .take count → (c.perform op).1 = .bytes (some taken) →
    taken.length = count
  /-- No zero byte is among those in front of one. -/
  clean : ∀ before, op = .takeUntilZero → (c.perform op).1 = .bytes (some before) → 0 ∉ before

theorem Tracks.obeys (h : c.Tracks base bytes) (op : Op) : c.Obeys bytes op := by
  have hstep := steps_perform c op
  obtain ⟨hunread, hpos, -⟩ := hstep.moves
  refine ⟨hstep.succeeds_iff, hstep.eq_of_not_succeeds, ?_, ?_, ?_, ?_, ?_⟩
  · rintro ahead rfl
    rw [perform, Cursor.peek, h.unread_eq, List.getElem?_drop]
  · omega
  · have hfront : (c.range op (c.perform op).1 ++ (c.perform op).2.unread).take
        (c.range op (c.perform op).1).length = c.range op (c.perform op).1 := List.take_left
    rw [← hunread] at hfront
    rw [Bytes.slice, ← h.unread_eq, hpos, Nat.add_sub_cancel_left, hfront]
  · rintro count taken rfl hanswer
    exact (hanswer ▸ hstep).length_taken
  · rintro before rfl hanswer
    exact (hanswer ▸ hstep).clean

end BinaryAst.Cursor
