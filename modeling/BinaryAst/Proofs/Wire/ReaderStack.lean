import Mathlib.Data.List.Chain
import Mathlib.Data.List.Infix
import BinaryAst.Wire.ReaderStack
import BinaryAst.Proofs.Wire.Faults
/-!
# BinaryAst.Proofs.Wire.ReaderStack

A stack of readers over one input, whatever is done to it.

Each reader views a part of the input, and its range lies in what the reader below it has
passed (`ReaderStack.Stands`). An operation does one of three things (`Moves`): it moves the
top on, it puts the reader of a substream on the top, or it drops the top. All three keep the
invariant, so it holds along every run, through failures as well. What lies below the top is
touched by none of them, which is why a reader is only ever moved on while it is on the stack.

A failed operation moves the top on at most, and its report is settled by where it left it
(`Outcome`).
-/

namespace BinaryAst

/-- What comes next in a `slice` of the bytes, behind the bytes that were passed, is itself a slice
of them. -/
theorem Bytes.slice_of_isPrefix {bytes front middle : Bytes} {offset count passed : Nat}
    (h : front ++ middle <+: (bytes.slice offset count).drop passed) :
    bytes.slice (offset + passed + front.length) middle.length = middle := by
  rw [slice, List.drop_take, List.drop_drop] at h
  obtain ⟨rest, hrest⟩ := h.trans (List.take_prefix _ _)
  rw [slice, ← List.drop_drop, ← hrest, List.append_assoc, List.drop_left, List.take_left]

/-! ### Readers over one input -/

/-- The range of the reader is a part of the input, and what is ahead of the reader is the
rest of that part. -/
structure Reader.Views (input : Bytes) (r : Reader) : Prop where
  end_le : r.base + r.length ≤ input.length
  unread_eq : r.unread = (input.slice r.base r.length).drop r.consumed
  consumed_add : r.consumed + r.remaining = r.length
  offset_eq : r.offset = r.base + r.consumed
  offset_le : r.offset ≤ r.base + r.length

/-- The range of the inner reader lies in what the outer one has passed of its own. -/
structure Reader.Within (inner outer : Reader) : Prop where
  base_le : outer.base ≤ inner.base
  end_le : inner.base + inner.length ≤ outer.offset

namespace Reader

variable {input : Bytes} {r r' inner outer : Reader}

/-- A reader `Views` the input if its range fits and its unread bytes are the rest of it: positions
and lengths agree in every reader. -/
theorem Views.of_unread_eq (hend : r.base + r.length ≤ input.length)
    (hunread : r.unread = (input.slice r.base r.length).drop r.consumed) : r.Views input where
  end_le := hend
  unread_eq := hunread
  consumed_add := rfl
  offset_eq := rfl
  offset_le := by
    rw [Reader.length_eq]
    exact Nat.add_le_add_left (Nat.le_add_right _ _) _

/-- `Reader.ofBytes` of the whole input `Views` it. -/
theorem views_ofBytes (format : WireFormat) (description : String) (input : Bytes) :
    (ofBytes format description input).Views input := by
  refine .of_unread_eq ?_ ?_
  · simp [ofBytes, Reader.length_eq, base, consumed, unread, Cursor.ofBytes]
  · simp [ofBytes, Reader.length_eq, base, consumed, unread, Cursor.ofBytes, Bytes.slice]

/-- Moving `Onward`, a reader goes on to view the input. -/
theorem Views.onward (h : r.Views input) (hmove : r.Onward r') : r'.Views input := by
  have hlength := hmove.length_eq
  have hbase := hmove.base_eq
  obtain ⟨count, -, rfl⟩ := hmove
  refine .of_unread_eq (by rw [hlength, hbase]; exact h.end_le) ?_
  rw [hlength, hbase, unread_skip, h.unread_eq, List.drop_drop, consumed_skip]

/-- `Frame.reader`, for a frame that comes next, views the input, too: its base is the offset of the
payload in the input, however deep the substream. -/
theorem Views.frame {f : Frame} (h : r.Views input) (hp : f.bytes <+: r.unread) :
    (f.reader r.format r.offset).Views input := by
  have hlead : f.lead ++ f.payload <+: r.unread := by
    refine List.IsPrefix.trans ?_ hp
    rw [Frame.bytes, ← List.append_assoc]
    exact List.prefix_append _ _
  have hend := h.end_le
  have hlength := h.consumed_add
  have hoffset := h.offset_eq
  have hfits := hlead.length_le
  simp only [← remaining_eq, List.length_append] at hfits
  refine .of_unread_eq ?_ ?_
  · simp only [Frame.base_reader, Frame.length_reader]
    omega
  · rw [h.unread_eq] at hlead
    rw [Frame.unread_reader, Frame.length_reader, Frame.base_reader, Frame.consumed_reader,
      List.drop_zero, hoffset, Bytes.slice_of_isPrefix hlead]

/-- The inner reader may move on, since `Within` asks for its range alone. -/
theorem Within.onward (h : inner.Within outer) (hmove : inner.Onward r') : r'.Within outer where
  base_le := hmove.base_eq ▸ h.base_le
  end_le := by
    rw [hmove.base_eq, hmove.length_eq]
    exact h.end_le

/-- The payload of a frame lies `Within` what the reader around it has passed behind the frame. -/
theorem within_frame (f : Frame) (r : Reader) :
    (f.reader r.format r.offset).Within (r.skip f.bytes.length) where
  base_le := by
    have : r.base ≤ r.offset := Nat.le_add_right _ _
    simp only [base_skip, Frame.base_reader]
    omega
  end_le := by
    simp only [Frame.base_reader, Frame.length_reader, offset_skip, Frame.length_bytes]
    omega

end Reader

namespace ReaderStack

variable {input : Bytes} {format : WireFormat} {s s' : ReaderStack}

/-! ### The invariant and the steps -/

/-- The invariant of a stack: all readers view the input in one format, and each one lies within the
next. -/
structure Stands (input : Bytes) (format : WireFormat) (s : ReaderStack) : Prop where
  views : ∀ r ∈ s.toList, r.Views input
  format_eq : ∀ r ∈ s.toList, r.format = format
  nested : s.toList.IsChain Reader.Within

/-- What an operation can do to a stack: move the top on, put the reader of a substream on the top,
or drop the top. -/
inductive Moves : ReaderStack → ReaderStack → Prop
  | onward {top top' : Reader} {below : List Reader} (h : top.Onward top') :
      Moves ⟨top, below⟩ ⟨top', below⟩
  | enter {top : Reader} {below : List Reader} {f : Frame} (hf : f.Valid top.format)
      (hp : f.bytes <+: top.unread) :
      Moves ⟨top, below⟩
        ⟨f.reader top.format top.offset, top.skip f.bytes.length :: below⟩
  | leave {top outer : Reader} {below : List Reader} : Moves ⟨top, outer :: below⟩ ⟨outer, below⟩

/-- A stack of the reader of the whole input alone `Stands`: it is the start of every run. -/
theorem stands_ofReader (format : WireFormat) (description : String) (input : Bytes) :
    (ofReader (.ofBytes format description input)).Stands input format where
  views := by
    simp only [ofReader, toList, List.mem_singleton, forall_eq]
    exact Reader.views_ofBytes format description input
  format_eq := by simp [ofReader, toList, Reader.ofBytes]
  nested := .singleton _

/-- `Stands` is kept where the top has moved on: the readers below it stay as they are. -/
theorem Stands.onward {top top' : Reader} {below : List Reader}
    (h : Stands input format ⟨top, below⟩) (hmove : top.Onward top') :
    Stands input format ⟨top', below⟩ := by
  obtain ⟨hviews, hformat, hnested⟩ := h
  obtain ⟨htop, hbelow⟩ := List.forall_mem_cons.mp hviews
  obtain ⟨htopFormat, hbelowFormat⟩ := List.forall_mem_cons.mp hformat
  refine ⟨List.forall_mem_cons.mpr ⟨htop.onward hmove, hbelow⟩,
    List.forall_mem_cons.mpr ⟨hmove.format_eq.trans htopFormat, hbelowFormat⟩, ?_⟩
  cases below with
  | nil => exact .singleton top'
  | cons outer below =>
      obtain ⟨hwithin, hrest⟩ := List.isChain_cons_cons.mp hnested
      exact .cons_cons (hwithin.onward hmove) hrest

/-- The step lemma: each of the three `Moves` keeps the invariant. -/
theorem Stands.moves (h : s.Stands input format) (hmove : Moves s s') : s'.Stands input format := by
  cases hmove with
  | onward hmove => exact h.onward hmove
  | @enter top below f hf hp =>
      obtain ⟨hviews, hformat, hnested⟩ := h.onward (.of_isPrefix hp)
      refine ⟨List.forall_mem_cons.mpr ⟨?_, hviews⟩, List.forall_mem_cons.mpr ⟨?_, hformat⟩,
        .cons_cons (Reader.within_frame f top) hnested⟩
      · exact (h.views top List.mem_cons_self).frame hp
      · exact h.format_eq top List.mem_cons_self
  | leave =>
      exact ⟨(List.forall_mem_cons.mp h.views).2, (List.forall_mem_cons.mp h.format_eq).2,
        h.nested.tail⟩

/-! ### One operation -/

/-- The operation reads a string. -/
def Op.ReadsText (op : Op) : Prop := op = .string ∨ op = .enter

/-- What an operation can fail with, that started at the offset `start` and left the reader. -/
def Op.Law (op : Op) (start : Nat) (r : Reader) (e : DecodeError) : Prop :=
  Report op.ReadsText start r e ∨ (op = .header ∧ ∃ got, e = .badMagic got) ∨
    (op = .enter ∧ ∃ description header footer, e = .framingMismatch description header footer)

/-- An operation succeeds and makes one of the `Moves`; or it fails, moves the top on at most, and
reports by its `Op.Law`. -/
inductive Outcome (s : ReaderStack) (op : Op) : Except DecodeError Answer × ReaderStack → Prop
  | answers {answer : Answer} {s' : ReaderStack} (h : Moves s s') : Outcome s op (.ok answer, s')
  | fails {e : DecodeError} {top : Reader} (h : s.top.Onward top)
      (hlaw : op.Law s.top.offset top e) : Outcome s op (.error e, ⟨top, s.below⟩)

variable {op : Op} {α : Type}

/-- A read of the top has an `Outcome`, if it is `Accurate` for the law of its operation. -/
theorem outcome_onTop {step : Read α} (h : Read.Accurate (op.Law s.top.offset) step s.top)
    (answer : α → Answer) : Outcome s op (s.onTop step answer) := by
  unfold onTop
  cases hrun : step s.top with
  | ok value top => exact .answers (.onward (h.ok hrun))
  | error e top => exact .fails (h.error hrun).1 (h.error hrun).2

/-- Entering puts the reader of a valid frame on the top, or fails as `substream` does. -/
theorem outcome_enter (s : ReaderStack) : Outcome s .enter s.enter := by
  unfold enter
  cases hrun : Read.substream s.top with
  | ok inner outer =>
      obtain ⟨f, hf, hp, rfl, rfl⟩ := Read.substream_eq_ok_iff.mp hrun
      exact .answers (.enter hf hp)
  | error e outer =>
      obtain ⟨hmove, hreport⟩ := (Read.accurate_substream s.top).error hrun
      refine .fails hmove ?_
      rcases hreport with hreport | hmismatch
      · exact .inl (hreport.mono fun _ => .inr rfl)
      · exact .inr (.inr ⟨rfl, hmismatch⟩)

theorem outcome_leave (s : ReaderStack) : Outcome s .leave (s.perform .leave) := by
  obtain ⟨top, below⟩ := s
  cases below with
  | nil => exact .answers (.onward (.refl top))
  | cons outer below => exact .answers .leave

/-- An operation whose read reports by `Report` has an `Outcome`: each law allows for such reports.
-/
theorem outcome_read {step : Read α}
    (h : Read.Accurate (Report op.ReadsText s.top.offset) step s.top) (answer : α → Answer) :
    Outcome s op (s.onTop step answer) :=
  outcome_onTop (h.mono fun _ _ => .inl) answer

/-- Every operation has an `Outcome`, in every state. The cases are those of `Op`. -/
theorem outcome_perform (s : ReaderStack) (op : Op) : Outcome s op (s.perform op) := by
  cases op with
  | peek ahead => exact .answers (.onward (.refl s.top))
  | byte => exact outcome_read (Read.whole_byte.reports s.top) _
  | bytes count => exact outcome_read ((Read.whole_bytes count).reports s.top) _
  | skip count => exact outcome_read ((Read.whole_skip count).reports s.top) _
  | uint32 => exact outcome_read (Read.whole_uint32.reports s.top) _
  | uint24 => exact outcome_read (Read.whole_uint24.reports s.top) _
  | int32 => exact outcome_read (Read.whole_int32.reports s.top) _
  | binary64 => exact outcome_read (Read.whole_binary64.reports s.top) _
  | varUInt32 => exact outcome_read (Read.accurate_varUInt32 s.top) _
  | varInt32 => exact outcome_read (Read.accurate_varInt32 s.top) _
  | index => exact outcome_read (Read.accurate_index s.top) _
  | string =>
      exact outcome_read ((Read.accurate_string s.top).mono fun _ _ h => h.mono fun _ => .inl rfl) _
  | header =>
      have hread := Read.accurate_header (Op.ReadsText .header) s.top
      exact outcome_onTop (hread.mono fun _ _ => .imp id fun hmagic => .inl ⟨rfl, hmagic⟩) _
  | enter => exact outcome_enter s
  | leave => exact outcome_leave s

/-- Whether it succeeds or fails, an operation makes one of the `Moves`. -/
theorem moves_perform (s : ReaderStack) (op : Op) : Moves s (s.perform op).2 := by
  cases houtcome : s.perform op with
  | mk answer s' =>
      have h := outcome_perform s op
      rw [houtcome] at h
      cases h with
      | answers h => exact h
      | fails h => exact .onward h

/-! ### Levels -/

/-- The reader that so many others lie below, so that a reader keeps its level while others are put
on top of it. -/
def level? (s : ReaderStack) (level : Nat) : Option Reader := s.toList.reverse[level]?

theorem level?_top (top : Reader) (below : List Reader) :
    level? ⟨top, below⟩ below.length = some top := by
  simp [level?, toList]

/-- Below the top, `level?` does not depend on the top. -/
theorem level?_of_lt {top : Reader} {below : List Reader} {level : Nat}
    (h : level < below.length) : level? ⟨top, below⟩ level = below.reverse[level]? := by
  rw [level?, toList, List.reverse_cons, List.getElem?_append_left (by simpa using h)]

theorem exists_level? {level : Nat} (h : level < s.height) : ∃ r, s.level? level = some r :=
  ⟨_, List.getElem?_eq_getElem (by simpa [height] using h)⟩

/-- `Moves` leaves a reader as it is, where others are above it. -/
theorem Moves.level_eq {level : Nat} (h : Moves s s') (hlevel : level + 1 < s.height) :
    s'.level? level = s.level? level := by
  cases h with
  | onward h =>
      have hlt := Nat.lt_of_add_lt_add_right hlevel
      rw [level?_of_lt hlt, level?_of_lt hlt]
  | enter hf hp =>
      have hlt := Nat.lt_of_add_lt_add_right hlevel
      rw [level?_of_lt hlt, level?_of_lt (by exact Nat.lt_succ_of_lt hlt), List.reverse_cons,
        List.getElem?_append_left (by simpa using hlt)]
  | leave => rw [level?_of_lt (Nat.lt_of_add_lt_add_right hlevel), level?, toList]

/-- A move takes a reader that stays on the stack `Onward` at most. -/
theorem Moves.level_onward {level : Nat} (h : Moves s s') (hs : level < s.height)
    (hs' : level < s'.height) :
    ∃ r r', s.level? level = some r ∧ s'.level? level = some r' ∧ r.Onward r' := by
  rcases Nat.lt_or_eq_of_le (Nat.succ_le_of_lt hs) with hlevel | htop
  · obtain ⟨r, hr⟩ := exists_level? hs
    exact ⟨r, r, hr, (h.level_eq hlevel).trans hr, .refl r⟩
  · -- the reader is the top
    cases h with
    | @onward top top' below hmove =>
        obtain rfl : level = below.length := by simpa [height, toList] using htop
        exact ⟨top, top', level?_top top below, level?_top top' below, hmove⟩
    | @enter top below f hf hp =>
        obtain rfl : level = below.length := by simpa [height, toList] using htop
        refine ⟨top, _, level?_top top below, ?_, .of_isPrefix hp⟩
        rw [level?_of_lt (by simp), List.reverse_cons, List.getElem?_append_right (by simp)]
        simp
    | leave =>
        simp only [height, toList, List.length_cons] at htop hs'
        omega

/-! ### Runs -/

/-- The stack after operations. -/
def after (s : ReaderStack) (ops : List Op) : ReaderStack :=
  ((s.performAll ops).getLast?.map (·.2)).getD s

@[simp] theorem after_nil (s : ReaderStack) : s.after [] = s := rfl

theorem after_cons (s : ReaderStack) (op : Op) (ops : List Op) :
    s.after (op :: ops) = (s.perform op).2.after ops := by
  rw [after, performAll, List.getLast?_cons, after]
  cases ((s.perform op).2.performAll ops).getLast? <;> rfl

/-- The run lemma: `Stands` holds after every list of operations. -/
theorem Stands.after (h : s.Stands input format) (ops : List Op) :
    (s.after ops).Stands input format := by
  induction ops generalizing s with
  | nil => exact h
  | cons op ops ih =>
      rw [after_cons]
      exact ih (h.moves (moves_perform s op))

/-- What becomes of the single readers while operations are performed. -/
structure Steady (s : ReaderStack) : Prop where
  /-- A reader that is never left is moved on at most, in its range. -/
  onward : ∀ ops level, (∀ taken, taken <+: ops → level < (s.after taken).height) →
    ∃ r r', s.level? level = some r ∧ (s.after ops).level? level = some r' ∧ r.Onward r' ∧
      r.offset ≤ r'.offset
  /-- A reader with others above it, before each operation, stays as it is. -/
  parent : ∀ ops level, (∀ taken op, taken ++ [op] <+: ops → level + 1 < (s.after taken).height) →
    (s.after ops).level? level = s.level? level

/-- A reader whose level is there all along is moved `Onward` at most. The hypothesis is about every
point of the run, since a level that was left may be entered again by another reader. -/
theorem level_onward {ops : List Op} {level : Nat}
    (h : ∀ taken, taken <+: ops → level < (s.after taken).height) :
    ∃ r r', s.level? level = some r ∧ (s.after ops).level? level = some r' ∧ r.Onward r' := by
  induction ops generalizing s with
  | nil =>
      obtain ⟨r, hr⟩ := exists_level? (h [] List.nil_prefix)
      exact ⟨r, r, hr, hr, .refl r⟩
  | cons op ops ih =>
      have hrest : ∀ taken, taken <+: ops → level < ((s.perform op).2.after taken).height := by
        intro taken htaken
        rw [← after_cons]
        exact h _ (List.cons_prefix_cons.mpr ⟨rfl, htaken⟩)
      obtain ⟨r, r', hr, hr', hmove⟩ := (moves_perform s op).level_onward
        (h [] List.nil_prefix) (hrest [] List.nil_prefix)
      obtain ⟨t, t', ht, ht', hmoves⟩ := ih hrest
      obtain rfl : r' = t := Option.some.inj (hr'.symm.trans ht)
      exact ⟨r, t', hr, by rw [after_cons, ht'], hmove.trans hmoves⟩

/-- A reader with others above it all along stays as it is. -/
theorem level_eq {ops : List Op} {level : Nat}
    (h : ∀ taken op, taken ++ [op] <+: ops → level + 1 < (s.after taken).height) :
    (s.after ops).level? level = s.level? level := by
  induction ops generalizing s with
  | nil => rfl
  | cons op ops ih =>
      have hfirst : level + 1 < s.height := h [] op (by simp)
      rw [after_cons, ih fun taken next htaken => ?_, (moves_perform s op).level_eq hfirst]
      rw [← after_cons]
      exact h (op :: taken) next (List.cons_prefix_cons.mpr ⟨rfl, htaken⟩)

/-- Every stack is `Steady`. -/
theorem steady (s : ReaderStack) : s.Steady where
  onward ops level h := by
    obtain ⟨r, r', hr, hr', hmove⟩ := level_onward h
    exact ⟨r, r', hr, hr', hmove, hmove.offset_le⟩
  parent _ _ h := level_eq h

/-! ### Reports -/

/-- Number of bytes that an operation takes, where that is fixed. -/
def Op.width? : Op → Option Nat
  | .byte => some 1
  | .bytes count | .skip count => some count
  | .uint24 => some 3
  | .uint32 | .int32 => some 4
  | .binary64 => some 8
  | _ => none

/-- What an operation keeps to. -/
structure Obeys (s : ReaderStack) (op : Op) : Prop where
  /-- A failed operation leaves the readers below the top as they are, and the top on top. -/
  failed : ∀ e s', s.perform op = (.error e, s') → s.top.Onward s'.top ∧ s'.below = s.below
  /-- A read of fixed width takes all of its bytes or none. -/
  whole : ∀ width e s', op.width? = some width → s.perform op = (.error e, s') →
    s.top.remaining < width ∧ e = s.top.truncated width ∧ s' = s
  /-- A shortage is told of at the position where the read stopped, and it is one, but for a
  string without the zero byte that should end it. -/
  truncated : ∀ stream offset need remaining s',
    s.perform op = (.error (.truncated stream offset need remaining), s') →
      stream = s'.top.description ∧ offset = s'.top.offset ∧ remaining = s'.top.remaining ∧
        (remaining < need ∨ op.ReadsText ∧ s'.top.format.stringEncoding = .nullTerminated ∧
          need = 1 ∧ 0 ∉ s'.top.unread)
  /-- An integer that is too large is told of at the position where the read started. -/
  overflow : ∀ stream offset s', s.perform op = (.error (.varintOverflow stream offset), s') →
    stream = s'.top.description ∧ offset = s.top.offset
  /-- Bytes that are no text are told of at the position where the string starts. -/
  notText : ∀ stream offset length s',
    s.perform op = (.error (.invalidUtf8 stream offset length), s') →
      stream = s'.top.description ∧ offset = s.top.offset
  /-- Lengths differ exactly where a whole frame comes next that is at odds with itself. It has
  been passed, then. -/
  mismatch : ∀ description header footer s',
    s.perform op = (.error (.framingMismatch description header footer), s') ↔
      op = .enter ∧ ∃ f : Frame, f.Misfit s.top.format footer ∧ f.description = description ∧
        f.payload.length = header ∧ f.bytes <+: s.top.unread ∧
        s' = ⟨s.top.skip f.bytes.length, s.below⟩
  /-- A substream is entered exactly where a valid frame comes next. -/
  entered : ∀ inner s', s.perform op = (.ok (.entered inner), s') ↔
    op = .enter ∧ ∃ f : Frame, f.Valid s.top.format ∧ f.bytes <+: s.top.unread ∧
      inner = f.reader s.top.format s.top.offset ∧
      s' = ⟨inner, s.top.skip f.bytes.length :: s.below⟩

/-- A `perform` that fails comes from a read of the top: the readers below stay as they are, and the
error obeys the `Law` of the operation. -/
theorem outcome_of_error {e : DecodeError} (h : s.perform op = (.error e, s')) :
    ∃ top, s' = ⟨top, s.below⟩ ∧ s.top.Onward top ∧ op.Law s.top.offset top e := by
  have houtcome := outcome_perform s op
  rw [h] at houtcome
  cases houtcome with
  | fails hmove hlaw => exact ⟨_, rfl, hmove, hlaw⟩

/-- A `Read.Whole` read of the top that fails leaves the whole stack as it is. -/
theorem whole_onTop {step : Read α} {width : Nat} {answer : α → Answer} {e : DecodeError}
    (hstep : Read.Whole width step) (h : s.onTop step answer = (.error e, s')) :
    s.top.remaining < width ∧ e = s.top.truncated width ∧ s' = s := by
  unfold onTop at h
  split at h
  case h_1 => cases h
  case h_2 hrun =>
    cases h
    obtain ⟨hshort, rfl, rfl⟩ := hstep.error hrun
    exact ⟨hshort, rfl, rfl⟩

/-- An operation of fixed width (`width?`) that fails reports its width as missing, and leaves the
stack as it is. -/
theorem whole_perform {width : Nat} {e : DecodeError} (hwidth : op.width? = some width)
    (h : s.perform op = (.error e, s')) :
    s.top.remaining < width ∧ e = s.top.truncated width ∧ s' = s := by
  cases op with
  | byte => cases hwidth; exact whole_onTop Read.whole_byte h
  | bytes count => cases hwidth; exact whole_onTop (Read.whole_bytes width) h
  | skip count => cases hwidth; exact whole_onTop (Read.whole_skip width) h
  | uint24 => cases hwidth; exact whole_onTop Read.whole_uint24 h
  | uint32 => cases hwidth; exact whole_onTop Read.whole_uint32 h
  | int32 => cases hwidth; exact whole_onTop Read.whole_int32 h
  | binary64 => cases hwidth; exact whole_onTop Read.whole_binary64 h
  | _ => cases hwidth

/-- Entering fails exactly where `substream` does on the top. -/
theorem enter_eq_error_iff {e : DecodeError} :
    s.enter = (.error e, s') ↔
      ∃ outer, Read.substream s.top = .error e outer ∧ s' = ⟨outer, s.below⟩ := by
  unfold enter
  cases hrun : Read.substream s.top with
  | ok inner outer => simp
  | error e' outer => simp [eq_comm]

/-- An operation reports a `framingMismatch` exactly if it enters a substream whose frame is a
`Frame.Misfit`. -/
theorem perform_eq_mismatch_iff {description : String} {header footer : Nat} :
    s.perform op = (.error (.framingMismatch description header footer), s') ↔
      op = .enter ∧ ∃ f : Frame, f.Misfit s.top.format footer ∧ f.description = description ∧
        f.payload.length = header ∧ f.bytes <+: s.top.unread ∧
        s' = ⟨s.top.skip f.bytes.length, s.below⟩ := by
  constructor
  · intro h
    obtain ⟨_, _, _, hreport | ⟨_, _, hmagic⟩ | ⟨rfl, _⟩⟩ := outcome_of_error h
    · cases hreport
    · cases hmagic
    · obtain ⟨outer, hrun, rfl⟩ := enter_eq_error_iff.mp h
      obtain ⟨f, hf, hdescription, hheader, hp, rfl⟩ := Read.substream_eq_mismatch_iff.mp hrun
      exact ⟨rfl, f, hf, hdescription, hheader, hp, rfl⟩
  · rintro ⟨rfl, f, hf, hdescription, hheader, hp, rfl⟩
    exact enter_eq_error_iff.mpr
      ⟨_, Read.substream_eq_mismatch_iff.mpr ⟨f, hf, hdescription, hheader, hp, rfl⟩, rfl⟩

/-- Entering succeeds exactly where `substream` does on the top. -/
theorem enter_eq_ok_iff {answer : Answer} :
    s.enter = (.ok answer, s') ↔ ∃ inner outer, Read.substream s.top = .ok inner outer ∧
      answer = .entered inner ∧ s' = ⟨inner, outer :: s.below⟩ := by
  unfold enter
  cases hrun : Read.substream s.top with
  | ok inner outer => simp [eq_comm]
  | error e outer => simp

/-- A read whose answer is no reader does not answer with one. -/
theorem onTop_ne_entered {step : Read α} {answer : α → Answer} {inner : Reader}
    (hanswer : ∀ v, answer v ≠ .entered inner) :
    s.onTop step answer ≠ (.ok (.entered inner), s') := by
  intro h
  unfold onTop at h
  split at h
  case h_1 v top _ => exact hanswer v (Except.ok.inj (Prod.mk.inj h).1)
  case h_2 => cases h

/-- Only `enter` gives a reader. -/
theorem eq_enter_of_entered {inner : Reader} (h : s.perform op = (.ok (.entered inner), s')) :
    op = .enter := by
  cases op with
  | enter => rfl
  | peek | leave => exact nomatch h
  | _ => exact absurd h (onTop_ne_entered fun _ => nofun)

/-- An operation enters a substream exactly if a `Frame.Valid` frame comes next. -/
theorem perform_eq_entered_iff {inner : Reader} :
    s.perform op = (.ok (.entered inner), s') ↔
      op = .enter ∧ ∃ f : Frame, f.Valid s.top.format ∧ f.bytes <+: s.top.unread ∧
        inner = f.reader s.top.format s.top.offset ∧
        s' = ⟨inner, s.top.skip f.bytes.length :: s.below⟩ := by
  constructor
  · intro h
    obtain rfl := eq_enter_of_entered h
    obtain ⟨inner', outer, hrun, heq, rfl⟩ := enter_eq_ok_iff.mp h
    cases heq
    obtain ⟨f, hf, hp, hinner, rfl⟩ := Read.substream_eq_ok_iff.mp hrun
    exact ⟨rfl, f, hf, hp, hinner, rfl⟩
  · rintro ⟨rfl, f, hf, hp, rfl, rfl⟩
    exact enter_eq_ok_iff.mpr
      ⟨_, _, Read.substream_eq_ok_iff.mpr ⟨f, hf, hp, rfl, rfl⟩, rfl, rfl⟩

/-- An error of `DecodeError.OfPrimitive` is reported as a primitive read reports it, by any
operation. -/
theorem report_of_error {e : DecodeError} (h : s.perform op = (.error e, s'))
    (he : e.OfPrimitive) :
    Report op.ReadsText s.top.offset s'.top e := by
  obtain ⟨top, rfl, _, hreport | ⟨_, _, rfl⟩ | ⟨_, _, _, _, rfl⟩⟩ := outcome_of_error h
  · exact hreport
  · exact he.elim
  · exact he.elim

/-- Every operation `Obeys`, on every stack. -/
theorem obeys (s : ReaderStack) (op : Op) : s.Obeys op where
  failed e s' h := by
    obtain ⟨top, rfl, hmove, -⟩ := outcome_of_error h
    exact ⟨hmove, rfl⟩
  whole width e s' hwidth h := whole_perform hwidth h
  truncated stream offset need remaining s' h := by
    cases report_of_error h trivial with
    | short hshort => exact ⟨rfl, rfl, rfl, .inl hshort⟩
    | unterminated htext hformat hzero =>
        exact ⟨rfl, rfl, rfl, .inr ⟨htext, hformat, rfl, hzero⟩⟩
  overflow stream offset s' h := by
    cases report_of_error h trivial
    exact ⟨rfl, rfl⟩
  notText stream offset length s' h := by
    cases report_of_error h trivial
    exact ⟨rfl, rfl⟩
  mismatch _ _ _ _ := perform_eq_mismatch_iff
  entered _ _ := perform_eq_entered_iff

/-- Whatever operations are performed on the readers of an input, failed ones among them: the
readers view the input where they say, one within the other (`Stands`); no reader is moved but the
top, and none of them back (`Steady`); and what a failed operation reports is true of the reader
that it leaves (`Obeys`). -/
theorem stands_and_reports (input : Bytes) (format : WireFormat) (description : String)
    (ops : List Op) :
    ((ofReader (.ofBytes format description input)).after ops).Stands input format ∧
      ((ofReader (.ofBytes format description input)).after ops).Steady ∧
      ∀ op, ((ofReader (.ofBytes format description input)).after ops).Obeys op :=
  ⟨(stands_ofReader format description input).after ops, steady _, obeys _⟩

/-- A frame that holds a frame of three bytes, and behind it one whose lengths differ. -/
def nestedFrames : Bytes :=
  Write.substream {} "outer" (Write.substream {} "inner" [1, 2, 3] ++
    (Write.string {} (some "torn") ++ Write.uint32 1 ++ [7] ++ Write.uint32 2))

/-- The reader of the frames. -/
def framesStack : ReaderStack := ofReader (.ofBytes {} "input" nestedFrames)

/-- The inner frame is too short for a number, and is left; the frame behind it is at odds with
itself. -/
def nestedOps : List Op := [.enter, .uint32, .leave, .enter]

theorem height_framesStack :
    (nestedOps.inits.all fun taken => 1 < ((framesStack.after [.enter]).after taken).height) =
      true :=
  rfl

/-- Of the three bytes in the inner frame, none is taken by a number of four. -/
theorem short_framesStack : ((framesStack.after [.enter, .enter]).perform .uint32).1 =
    .error (.truncated "inner" 26 4 3) :=
  rfl

/-- The frame behind has length 1 in front of its payload and 2 behind it. -/
theorem torn_framesStack :
    ((framesStack.after [.enter, .enter, .uint32, .leave]).perform .enter).1 =
      .error (.framingMismatch "torn" 1 2) :=
  rfl

/-- In `framesStack` the outer frame's reader goes on while `nestedOps` come and go above it, the
number in the inner frame leaves the stack as it is, and the mismatch is that of a frame ahead. -/
theorem stands_and_reports_of_framesStack :
    (∃ r r', (framesStack.after [.enter]).level? 1 = some r ∧
      ((framesStack.after [.enter]).after nestedOps).level? 1 = some r' ∧ r.Onward r' ∧
      r.offset ≤ r'.offset) ∧
    ((framesStack.after [.enter, .enter]).perform .uint32).2 =
      framesStack.after [.enter, .enter] ∧
    ∃ f : Frame, f.description = "torn" ∧ f.payload.length = 1 ∧
      f.bytes <+: (framesStack.after [.enter, .enter, .uint32, .leave]).top.unread := by
  refine ⟨?_, ?_, ?_⟩
  · refine (stands_and_reports nestedFrames {} "input" [.enter]).2.1.onward nestedOps 1
      fun taken htaken => ?_
    exact of_decide_eq_true
      (List.all_eq_true.mp height_framesStack taken ((List.mem_inits _ _).mpr htaken))
  · exact ((stands_and_reports nestedFrames {} "input" [.enter, .enter]).2.2 .uint32).whole 4 _ _
      rfl (Prod.ext short_framesStack rfl) |>.2.2
  · obtain ⟨-, f, -, hdescription, hheader, hp, -⟩ :=
      ((stands_and_reports nestedFrames {} "input" [.enter, .enter, .uint32, .leave]).2.2
        .enter).mismatch _ _ _ _ |>.mp (Prod.ext torn_framesStack rfl)
    exact ⟨f, hdescription, hheader, hp⟩

end ReaderStack

end BinaryAst
