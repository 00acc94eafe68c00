import BinaryAst.Proofs.Wire.Frame
import BinaryAst.Proofs.Wire.Header
import BinaryAst.Proofs.Triple
/-!
# BinaryAst.Proofs.Wire.Reports

What a failed read reports, and where it leaves its reader.

A read moves its reader on within its range, also where it fails (`Reader.Onward`). What it
reports is settled by the reader that it leaves behind and by the offset it started from
(`Report`): the shortage it tells of is there, at the position where it stopped. The one
exception is a string that ends at a zero byte. Such a read wants one byte more than there
are, however many there are.

A read of fixed width is all or nothing (`Read.Whole`); the others are made of such reads, and
the law goes through everything they are made with (`Read.Accurate`).
-/

namespace BinaryAst

/-! ### Moving on -/

/-- The second reader is the first, some bytes on in its range: the same description, format, base
and length, and an offset that is not smaller. -/
def Reader.Onward (r r' : Reader) : Prop := ∃ count ≤ r.remaining, r' = r.skip count

namespace Reader.Onward

variable {r r' r'' : Reader}

theorem refl (r : Reader) : r.Onward r := ⟨0, Nat.zero_le _, rfl⟩

theorem trans (h : r.Onward r') (h' : r'.Onward r'') : r.Onward r'' := by
  obtain ⟨count, hcount, rfl⟩ := h
  obtain ⟨more, hmore, rfl⟩ := h'
  refine ⟨count + more, ?_, r.skip_skip count more⟩
  simp only [remaining_eq, unread_skip, List.length_drop] at hmore hcount ⊢
  omega

/-- Taking bytes that are ahead moves a reader `Onward`. -/
theorem of_isPrefix {taken : Bytes} (h : taken <+: r.unread) : r.Onward (r.skip taken.length) :=
  ⟨taken.length, h.length_le, rfl⟩

theorem description_eq (h : r.Onward r') : r'.description = r.description := by
  obtain ⟨_, -, rfl⟩ := h
  rfl

theorem format_eq (h : r.Onward r') : r'.format = r.format := by
  obtain ⟨_, -, rfl⟩ := h
  rfl

theorem base_eq (h : r.Onward r') : r'.base = r.base := by
  obtain ⟨_, -, rfl⟩ := h
  rfl

theorem length_eq (h : r.Onward r') : r'.length = r.length := by
  obtain ⟨_, hle, rfl⟩ := h
  exact length_skip hle

theorem offset_le (h : r.Onward r') : r.offset ≤ r'.offset := by
  obtain ⟨count, -, rfl⟩ := h
  simp

end Reader.Onward

/-! ### Reports -/

/-- What a read that started at the offset `start` can report of the reader `r` that it leaves: a
shortage of bytes that is really there, an overflow, or a text that is none. The last one, like the
missing zero byte of a string, is for reads of strings alone, which is what `text` says. -/
inductive Report (text : Prop) (start : Nat) (r : Reader) : DecodeError → Prop
  | short {need : Nat} (h : r.remaining < need) : Report text start r (r.truncated need)
  | unterminated (htext : text) (hformat : r.format.stringEncoding = .nullTerminated)
      (h : 0 ∉ r.unread) : Report text start r (r.truncated 1)
  | overflow : Report text start r (.varintOverflow r.description start)
  | notText (htext : text) (length : Nat) :
      Report text start r (.invalidUtf8 r.description start length)

/-- What may be reported where no string is read may be where one is: `Report` is monotone in
`text`. -/
theorem Report.mono {text text' : Prop} {start : Nat} {r : Reader} {e : DecodeError}
    (h : Report text start r e) (himp : text → text') : Report text' start r e := by
  cases h with
  | short h => exact .short h
  | unterminated htext hformat h => exact .unterminated (himp htext) hformat h
  | overflow => exact .overflow
  | notText htext length => exact .notText (himp htext) length

namespace Read

variable {α β : Type} {law : Reader → DecodeError → Prop} {r r' : Reader}

/-- The read takes `count` bytes; or fewer are left, and it reports `truncated count` and leaves the
reader as it is. -/
def Whole (count : Nat) (read : Read α) : Prop :=
  ∀ r : Reader, Meets (fun _ r' => count ≤ r.remaining ∧ r' = r.skip count)
    (fun e r' => r.remaining < count ∧ e = r.truncated count ∧ r' = r) (read r)

/-- From `r`, the read moves its reader `Onward`, also where it fails, and what it fails with is
lawful for the reader that it leaves. -/
def Accurate (law : Reader → DecodeError → Prop) (read : Read α) (r : Reader) : Prop :=
  Meets (fun _ => r.Onward) (fun e r' => r.Onward r' ∧ law r' e) (read r)

/-! ### Reads of fixed width -/

namespace Whole

variable {read : Read α} {count : Nat}

theorem map (h : Whole count read) (g : α → β) : Whole count (g <$> read) := by
  intro r
  rw [map_eq_pure_bind]
  exact (h r).bind fun _ _ _ => id

/-- A `Whole` read that fails leaves no trace: its report is of the reader it started from. -/
theorem error {e : DecodeError} (h : Whole count read) (hrun : read r = .error e r') :
    r.remaining < count ∧ e = r.truncated count ∧ r' = r := by
  have := h r
  rwa [hrun] at this

/-- A `Whole` read is `Accurate` for any law that allows for a shortage. -/
theorem accurate (h : Whole count read) (hlaw : ∀ {r : Reader} {need : Nat},
    r.remaining < need → law r (r.truncated need)) (r : Reader) : Accurate law read r := by
  have hr := h r
  unfold Accurate
  cases hrun : read r with
  | ok v r' =>
      rw [hrun] at hr
      exact ⟨count, hr.1, hr.2⟩
  | error e r' =>
      obtain ⟨hshort, rfl, rfl⟩ := h.error hrun
      exact ⟨.refl r', hlaw hshort⟩

/-- A `Whole` read reports by `Report`, whether it is one of a string or not. -/
theorem reports {text : Prop} (h : Whole count read) (r : Reader) :
    Accurate (Report text r.offset) read r := h.accurate .short r

end Whole

/-- `ofCursor count op` is `Whole count` if `op` takes `count` bytes where there are so many, and
gives nothing where there are not. -/
theorem whole_ofCursor {count : Nat} {op : Cursor → Option (α × Cursor)}
    (hnone : ∀ c : Cursor, op c = none → c.remaining < count)
    (hsome : ∀ (c : Cursor) v next, op c = some (v, next) →
      count ≤ c.remaining ∧ next = ⟨c.base, c.pos + count, c.unread.drop count⟩) :
    Whole count (ofCursor count op) := by
  intro r
  unfold ofCursor
  split
  case h_1 v next hop =>
    obtain ⟨hcount, rfl⟩ := hsome _ _ _ hop
    exact ⟨hcount, rfl⟩
  case h_2 hop => exact ⟨hnone _ hop, rfl, rfl⟩

theorem whole_byte : Whole 1 byte := by
  refine whole_ofCursor (fun c h => ?_) fun c v next h => ?_
  · cases hc : c.unread with
    | nil => simp [Cursor.remaining, hc]
    | cons first rest => simp [Cursor.read, hc] at h
  · obtain ⟨rest, hrest, rfl⟩ := Cursor.read_eq_some_iff.mp h
    simp [Cursor.remaining, hrest]

/-- `Cursor.take` in the form that `whole_ofCursor` asks for. -/
theorem drop_of_take {c next : Cursor} {count : Nat} {taken : Bytes}
    (h : c.take count = some (taken, next)) :
    count ≤ c.remaining ∧ next = ⟨c.base, c.pos + count, c.unread.drop count⟩ := by
  obtain ⟨rest, hrest, rfl, rfl⟩ := Cursor.take_eq_some_iff.mp h
  simp [Cursor.remaining, hrest]

theorem whole_bytes (count : Nat) : Whole count (bytes count) :=
  whole_ofCursor (fun _ => Cursor.take_eq_none_iff.mp) fun _ _ _ => drop_of_take

/-- Skipping is `Whole`, too: no byte is skipped where one is missing. -/
theorem whole_skip (count : Nat) : Whole count (skip count) := by
  refine whole_ofCursor (fun c h => ?_) fun c v next h => ?_
  · exact Cursor.take_eq_none_iff.mp (Option.map_eq_none_iff.mp h)
  · obtain ⟨⟨taken, rest⟩, htake, hnext⟩ := Option.map_eq_some_iff.mp h
    obtain rfl : rest = next := congrArg Prod.snd hnext
    exact drop_of_take htake

theorem whole_unsigned (width : Nat) : Whole width (unsigned width) := (whole_bytes width).map _

theorem whole_uint32 : Whole 4 uint32 := whole_unsigned 4

theorem whole_uint24 : Whole 3 uint24 := whole_unsigned 3

theorem whole_int32 : Whole 4 int32 := (whole_unsigned 4).map _

theorem whole_binary64 : Whole 8 binary64 := (whole_unsigned 8).map _

/-! ### Reads made of reads -/

namespace Accurate

variable {read : Read α}

/-- A step that reads nothing leaves the reader where it is. -/
theorem pure (v : α) (r : Reader) : Accurate law (Pure.pure v : Read α) r := .refl r

/-- A `throw` is `Accurate` if its error is lawful for the reader as it is. -/
theorem throw {e : DecodeError} (h : law r e) : Accurate law (throw e : Read α) r := ⟨.refl r, h⟩

/-- `Accurate` goes through a sequence: the second read starts `Onward` of the first. -/
theorem bind {x : Read α} {f : α → Read β} (hx : Accurate law x r)
    (hf : ∀ v r', r.Onward r' → Accurate law (f v) r') : Accurate law (x >>= f) r := by
  refine Meets.bind hx fun v r' _ honward => ?_
  have hnext := hf v r' honward
  unfold Accurate at hnext
  cases hrun : f v r' with
  | ok w r'' =>
      rw [hrun] at hnext
      exact honward.trans hnext
  | error e r'' =>
      rw [hrun] at hnext
      exact ⟨honward.trans hnext.1, hnext.2⟩

theorem map (h : Accurate law read r) (g : α → β) : Accurate law (g <$> read) r := by
  rw [map_eq_pure_bind]
  exact h.bind fun v r' _ => .pure (g v) r'

/-- A look at the reader moves nothing. -/
theorem get_bind {f : Reader → Read α} (h : Accurate law (f r) r) :
    Accurate law (get >>= f) r := h

theorem ite {p : Prop} [Decidable p] {y : Read α} (hx : Accurate law read r)
    (hy : Accurate law y r) : Accurate law (if p then read else y) r := by
  split
  case isTrue => exact hx
  case isFalse => exact hy

theorem mono {law' : Reader → DecodeError → Prop} (h : Accurate law read r)
    (hlaw : ∀ r' e, law r' e → law' r' e) : Accurate law' read r := by
  unfold Accurate at h ⊢
  cases hrun : read r with
  | ok v r' =>
      rw [hrun] at h
      exact h
  | error e r' =>
      rw [hrun] at h
      exact ⟨h.1, hlaw r' e h.2⟩

/-- An `Accurate` read that succeeds has moved its reader `Onward`. -/
theorem ok {v : α} (h : Accurate law read r) (hrun : read r = .ok v r') : r.Onward r' := by
  unfold Accurate at h
  rwa [hrun] at h

theorem error {e : DecodeError} (h : Accurate law read r) (hrun : read r = .error e r') :
    r.Onward r' ∧ law r' e := by
  unfold Accurate at h
  rwa [hrun] at h

end Accurate

/-! ### Base-128 integers, counts and indices -/

variable {text : Prop} {start : Nat}

/-- `overflow` reports the offset `start`, wherever the reader is by then. -/
theorem accurate_overflow (start : Nat) (r : Reader) :
    Accurate (Report text start) (overflow start : Read α) r :=
  .get_bind (.throw .overflow)

/-- `unsignedGroups`, by induction on how many may follow. A group that is missing is a shortage of
one byte at the place of the group. -/
theorem accurate_unsignedGroups (start left shift sum : Nat) (r : Reader) :
    Accurate (Report text start) (unsignedGroups start left shift sum) r := by
  induction left generalizing shift sum r with
  | zero => exact accurate_overflow start r
  | succ left ih =>
      refine (whole_byte.accurate .short r).bind fun group r' _ => ?_
      exact .ite (accurate_overflow start r') (.ite (ih _ _ r') (.pure _ r'))

/-- The groups of a signed number, as in `accurate_unsignedGroups`. -/
theorem accurate_signedGroups (start left shift sum : Nat) (r : Reader) :
    Accurate (Report text start) (signedGroups start left shift sum) r := by
  induction left generalizing shift sum r with
  | zero => exact accurate_overflow start r
  | succ left ih =>
      refine (whole_byte.accurate .short r).bind fun group r' _ => ?_
      exact .ite (ih _ _ r') (.ite (.pure _ r') (accurate_overflow start r'))

/-- A count reports by `Report` in each of its layouts: four bytes, three bytes, or groups of seven
bits, whose overflow is reported with the offset of the first. -/
theorem accurate_varUInt32 (r : Reader) : Accurate (Report text r.offset) varUInt32 r := by
  refine .get_bind ?_
  cases r.format.indexEncoding with
  | leb128 => exact .get_bind (accurate_unsignedGroups _ _ _ _ r)
  | fixed24 => exact whole_uint24.reports r
  | fixed32 => exact whole_uint32.reports r

theorem accurate_varInt32 (r : Reader) : Accurate (Report text r.offset) varInt32 r := by
  refine .get_bind ?_
  cases r.format.indexEncoding with
  | leb128 => exact .get_bind (accurate_signedGroups _ _ _ _ r)
  | fixed24 | fixed32 => exact whole_int32.reports r

theorem accurate_index (r : Reader) : Accurate (Report text r.offset) index r :=
  (accurate_varUInt32 r).map _

/-! ### Strings -/

/-- The bytes before the next zero byte. Without one, none of them are taken, and `truncated 1` is
reported although there may be many bytes left: `Report.unterminated`. -/
theorem accurate_takeUntilZero (hformat : r.format.stringEncoding = .nullTerminated) :
    Accurate (Report True start) (ofCursor 1 Cursor.takeUntilZero) r := by
  unfold Accurate ofCursor
  split
  case h_1 before next hop =>
    obtain ⟨after, hafter, -, rfl⟩ := Cursor.takeUntilZero_eq_some_iff.mp hop
    refine ⟨before.length + 1, ?_, ?_⟩
    · simp [Reader.remaining, Cursor.remaining, hafter]
    · simp [Reader.skip, hafter, Nat.add_assoc, List.drop_append]
  case h_2 hop =>
    have hzero : 0 ∉ r.unread := by
      rw [Reader.unread, ← Bytes.splitAtZero?_eq_none_iff]
      exact Option.map_eq_none_iff.mp hop
    exact ⟨.refl r, .unterminated trivial hformat hzero⟩

/-- `stringPayload`, prefixed with its length or ended by a zero byte. -/
theorem accurate_stringPayload (r : Reader) :
    Accurate (Report True r.offset) stringPayload r := by
  refine .get_bind ?_
  cases hformat : r.format.stringEncoding with
  | lengthPrefixed =>
      refine (accurate_index r).bind fun length r' _ => ?_
      cases length with
      | none => exact .pure none r'
      | some length => exact ((whole_bytes length).accurate .short r').map some
  | nullTerminated =>
      refine .get_bind (.ite ?_ ?_)
      · exact ((whole_skip 1).reports r).bind fun _ r' _ => .pure none r'
      · exact (accurate_takeUntilZero hformat).map some

/-- `string` reports a payload that is no text with the offset that the string started at, not with
that of the payload. -/
theorem accurate_string (r : Reader) : Accurate (Report True r.offset) string r := by
  refine .get_bind ((accurate_stringPayload r).bind fun payload r' _ => ?_)
  cases payload with
  | none => exact .pure none r'
  | some payload =>
      dsimp only
      split
      case h_1 text _ => exact .pure (some text) r'
      case h_2 => exact .get_bind (.throw (.notText trivial payload.length))

/-! ### Headers -/

/-- A header reports by `Report`, or `badMagic` where it starts with other bytes than the magic
ones. -/
theorem accurate_header (text : Prop) (r : Reader) :
    Accurate (fun r' e => Report text r.offset r' e ∨ ∃ got, e = .badMagic got)
      Header.read r := by
  refine .get_bind (((whole_bytes _).accurate (fun h => .inl (.short h)) r).bind
    fun got r' _ => .ite ?_ (.throw (.inr ⟨got, rfl⟩)))
  refine (whole_uint32.accurate (fun h => .inl (.short h)) r').bind fun _ r' _ => ?_
  exact (whole_uint32.accurate (fun h => .inl (.short h)) r').bind fun _ r' _ => .pure _ r'

/-! ### Substreams -/

/-- Behind its name and the length in front, a frame reports by `Report`, or `framingMismatch` with
both lengths. -/
theorem accurate_framed (description : String) (header : Nat) (r : Reader) :
    Accurate (fun r' e => Report text start r' e ∨
      ∃ footer, e = .framingMismatch description header footer) (framed description header) r := by
  refine .get_bind (((whole_bytes header).accurate (fun h => .inl (.short h)) r).bind
    fun payload r' _ => ?_)
  refine (whole_uint32.accurate (fun h => .inl (.short h)) r').bind fun footer r' _ => ?_
  exact .ite (.get_bind (.pure _ r')) (.throw (.inr ⟨footer, rfl⟩))

/-- `substream` reports what its name, its lengths and its payload do, or `framingMismatch`. -/
theorem accurate_substream (r : Reader) :
    Accurate (fun r' e => Report True r.offset r' e ∨
      ∃ description header footer, e = .framingMismatch description header footer)
      substream r := by
  rw [substream_eq]
  refine ((accurate_string r).mono fun _ _ => .inl).bind fun name r' _ => ?_
  refine (whole_uint32.accurate (fun h => .inl (.short h)) r').bind fun header r' _ => ?_
  refine (accurate_framed _ header r').mono fun _ _ h => h.imp id ?_
  rintro ⟨footer, rfl⟩
  exact ⟨_, header, footer, rfl⟩

end Read

/-! ### Lengths that differ

A frame whose lengths differ is read like any other up to the point where they are compared. -/

/-- The parts of a frame fit each other but for the length behind the payload, which is `footer` and
not the length of the payload. -/
structure Frame.Misfit (format : WireFormat) (footer : Nat) (f : Frame) : Prop where
  name : ∃ text : Option String, Read.Spells format Read.string f.name text ∧
    text.getD Read.unnamed = f.description
  before : Read.Spells format Read.uint32 f.before f.payload.length
  after : Read.Spells format Read.uint32 f.after footer
  ne : footer ≠ f.payload.length

namespace Read

variable {r r' : Reader} {name description : String} {header footer : Nat}

/-- Where `framed` reports a mismatch, payload and both lengths were there: it has read them to the
end, and the second length is the `footer` that it reports. -/
theorem mismatch_of_framed
    (h : framed name header r = .error (.framingMismatch description header' footer) r') :
    name = description ∧ header = header' ∧ footer ≠ header ∧
      ∃ payload after : Bytes, payload.length = header ∧ Spells r.format uint32 after footer ∧
        payload ++ after <+: r.unread ∧ r' = r.skip (payload ++ after).length := by
  rw [framed, get_bind_eq] at h
  rcases bind_eq_error_iff.mp h with h | ⟨payload, s, hpayload, h⟩
  · cases ((whole_bytes header).error h).2.1
  obtain ⟨hfirst, rfl, rfl⟩ := bytes_eq_ok_iff.mp hpayload
  rcases bind_eq_error_iff.mp h with h | ⟨value, t, hvalue, h⟩
  · cases (whole_uint32.error h).2.1
  obtain ⟨after, hsecond, rfl, hspell, -⟩ := exact_uint32 _ _ _ hvalue
  split at h
  case isTrue => cases h
  case isFalse hne =>
    obtain ⟨heq, rfl⟩ := throw_eq_error_iff.mp h
    cases heq
    refine ⟨rfl, rfl, hne, payload, after, rfl, hspell, ?_, ?_⟩
    · exact Reader.append_isPrefix hfirst hsecond
    · rw [Reader.skip_skip, List.length_append]

/-- `framed` reports the mismatch of a `Frame.Misfit` whose payload and second length are ahead. -/
theorem framed_of_misfit {f : Frame} (hf : f.Misfit r.format footer)
    (hp : f.payload ++ f.after <+: r.unread) :
    framed name f.payload.length r = .error (.framingMismatch name f.payload.length footer)
      (r.skip (f.payload ++ f.after).length) := by
  have hpayload : Spells r.format (bytes f.payload.length) f.payload f.payload :=
    spells_ofCursor (Cursor.takes_take f.payload)
  obtain ⟨rest, hrest⟩ := hp
  rw [List.append_assoc] at hrest
  have hafter : f.after <+: (r.skip f.payload.length).unread := by
    rw [Reader.unread_skip, ← hrest, List.drop_left]
    exact List.prefix_append f.after rest
  rw [framed, get_bind_eq, bind_of_ok (bytes_of_isPrefix ⟨_, hrest⟩),
    bind_of_ok (hf.after (r.skip f.payload.length) rfl hafter), if_neg hf.ne,
    Reader.skip_skip, List.length_append]
  rfl

/-- `substream` reports a `framingMismatch` exactly where a `Frame.Misfit` is ahead, the whole frame
of it. The lengths are compared last, so the whole frame has been read by then. -/
theorem substream_eq_mismatch_iff :
    substream r = .error (.framingMismatch description header footer) r' ↔
      ∃ f : Frame, f.Misfit r.format footer ∧ f.description = description ∧
        f.payload.length = header ∧ f.bytes <+: r.unread ∧ r' = r.skip f.bytes.length := by
  constructor
  · intro h
    rw [substream_eq] at h
    -- Neither the description nor the first length can report a mismatch, so both were read.
    rcases bind_eq_error_iff.mp h with h | ⟨text, s, hname, h⟩
    · cases ((accurate_string r).error h).2
    obtain ⟨name, hfirst, rfl, hsname, -⟩ := exact_string _ _ _ hname
    rcases bind_eq_error_iff.mp h with h | ⟨value, t, hvalue, h⟩
    · cases (whole_uint32.error h).2.1
    obtain ⟨before, hsecond, rfl, hsbefore, -⟩ := exact_uint32 _ _ _ hvalue
    obtain ⟨hdescription, rfl, hne, payload, after, rfl, hsafter, hthird, rfl⟩ :=
      mismatch_of_framed h
    refine ⟨⟨name, before, payload, after, description⟩,
      ⟨⟨text, hsname, hdescription⟩, hsbefore, hsafter, hne⟩, rfl, rfl, ?_, ?_⟩
    · rw [Frame.bytes, Frame.lead, List.append_assoc]
      exact Reader.append_isPrefix hfirst (Reader.append_isPrefix hsecond hthird)
    · simp only [Reader.skip_skip, Frame.bytes, Frame.lead, List.length_append]
  · rintro ⟨f, hf, rfl, rfl, hp, rfl⟩
    obtain ⟨text, hname, htext⟩ := hf.name
    obtain ⟨rest, hrest⟩ := hp
    rw [Frame.bytes, Frame.lead, List.append_assoc, List.append_assoc] at hrest
    have hbefore : f.before <+: (r.skip f.name.length).unread := by
      rw [Reader.unread_skip, ← hrest, List.drop_left]
      exact List.prefix_append f.before _
    have hpayload : f.payload ++ f.after <+:
        ((r.skip f.name.length).skip f.before.length).unread := by
      rw [Reader.unread_skip, Reader.unread_skip, ← hrest, List.drop_left, List.drop_left]
      exact List.prefix_append _ rest
    rw [substream_eq, bind_of_ok (hname r rfl ⟨_, hrest⟩),
      bind_of_ok (hf.before (r.skip f.name.length) rfl hbefore), htext,
      framed_of_misfit (by exact hf) hpayload, Reader.skip_skip, Reader.skip_skip]
    simp [Frame.bytes, Frame.lead]

end Read

end BinaryAst
