import BinaryAst.Proofs.Wire.Groups
import BinaryAst.Proofs.Wire.ReaderStack
/-!
# BinaryAst.Proofs.Wire.StringParts

A string as it stands in the bytes around it, and what is told of one that is no text.

`StringParts` cuts a string that is not null into its payload and what the framing puts in
front of it or behind it. A payload is read exactly where the bytes of valid parts come next
(`Read.stringPayload_eq_some_iff`), so a string is refused for its payload exactly where the
payload of such parts is no text (`Read.string_eq_notText_iff`).

The offset that is told of is where the string starts. That is where the payload starts only
if nothing stands in front of it, so only in the framing that ends a string at a zero byte.
-/

namespace BinaryAst

/-- A string that is not null, cut into its parts. -/
structure StringParts where
  /-- What stands in front of the payload. -/
  lead : Bytes
  payload : Bytes
  /-- What stands behind the payload. -/
  tail : Bytes

namespace StringParts

/-- The whole string. -/
def bytes (p : StringParts) : Bytes := p.lead ++ (p.payload ++ p.tail)

/-- The parts fit each other. -/
inductive Valid (format : WireFormat) : StringParts → Prop
  /-- The length of the payload, and the payload. -/
  | prefixed {lead payload : Bytes} (hformat : format.stringEncoding = .lengthPrefixed)
      (hlead : Read.Spells format Read.index lead (some payload.length)) :
      Valid format ⟨lead, payload, []⟩
  /-- The payload, which does not start like the null string, and a zero byte. -/
  | terminated {payload : Bytes} (hformat : format.stringEncoding = .nullTerminated)
      (hzero : 0 ∉ payload) (hmarker : payload.head? ≠ some nullMarker) :
      Valid format ⟨[], payload, [0]⟩

end StringParts

/-- A count can take so many bytes. -/
def IndexEncoding.HasWidth : IndexEncoding → (width : Nat) → Prop
  | leb128, width => 0 < width ∧ width ≤ 5
  | fixed24, width => width = 3
  | fixed32, width => width = 4

theorem IndexEncoding.HasWidth.pos {encoding : IndexEncoding} {width : Nat}
    (h : encoding.HasWidth width) : 0 < width := by
  cases encoding with
  | leb128 => exact h.1
  | fixed24 | fixed32 => exact h ▸ by decide

/-- So many bytes can stand in front of a payload. -/
def WireFormat.LeadsWith (format : WireFormat) (width : Nat) : Prop :=
  match format.stringEncoding with
  | .lengthPrefixed => format.indexEncoding.HasWidth width
  | .nullTerminated => width = 0

namespace Read

variable {α : Type} {format : WireFormat} {r r' : Reader} {payload : Bytes}

/-! ### The payload -/

theorem prefixedPayload_eq_some_iff :
    prefixedPayload r = .ok (some payload) r' ↔
      ∃ lead, Spells r.format index lead (some payload.length) ∧ lead ++ payload <+: r.unread ∧
        r' = r.skip (lead ++ payload).length := by
  constructor
  · intro h
    obtain ⟨length, s, hlength, h⟩ := bind_eq_ok_iff.mp h
    obtain ⟨lead, hfirst, rfl, hspell, -⟩ := exact_index _ _ _ hlength
    cases length with
    | none => cases (pure_eq_ok_iff.mp h).1
    | some length =>
        obtain ⟨taken, htaken, heq⟩ := map_eq_ok_iff.mp h
        cases heq
        obtain ⟨hsecond, rfl, rfl⟩ := bytes_eq_ok_iff.mp htaken
        refine ⟨lead, hspell, Reader.append_isPrefix hfirst hsecond, ?_⟩
        rw [Reader.skip_skip, List.length_append]
  · rintro ⟨lead, hspell, hp, rfl⟩
    have hpayload : Spells r.format (some <$> bytes payload.length) payload (some payload) :=
      (spells_ofCursor (Cursor.takes_take payload)).map some
    exact hspell.bind hpayload r rfl hp

theorem terminatedPayload_eq_some_iff :
    terminatedPayload r = .ok (some payload) r' ↔
      0 ∉ payload ∧ payload.head? ≠ some nullMarker ∧ payload ++ [0] <+: r.unread ∧
        r' = r.skip (payload ++ [0]).length := by
  -- the zero byte is not the marker, so an empty payload is none either
  have hhead : (payload ++ [0]).head? = some nullMarker ↔ payload.head? = some nullMarker := by
    cases payload with
    | nil => simp [nullMarker]
    | cons byte payload => rfl
  constructor
  · intro h
    by_cases hmark : r.unread.head? = some nullMarker
    · have hp : [nullMarker] <+: r.unread := List.singleton_prefix_iff_head?_eq_some.mpr hmark
      cases (spells_nullMarker r rfl hp).symm.trans h
    · rw [terminatedPayload_of_ne hmark] at h
      obtain ⟨taken, htaken, heq⟩ := map_eq_ok_iff.mp h
      cases heq
      cases hop : r.cursor.takeUntilZero with
      | none => simp [ofCursor, hop] at htaken
      | some result =>
          obtain ⟨before, next⟩ := result
          obtain ⟨after, hafter, hzero, -⟩ := Cursor.takeUntilZero_eq_some_iff.mp hop
          have hp : before ++ [0] <+: r.unread := ⟨after, by simp [Reader.unread, hafter]⟩
          have hspell : Spells r.format (ofCursor 1 Cursor.takeUntilZero) (before ++ [0]) before :=
            spells_ofCursor (Cursor.takes_takeUntilZero hzero)
          cases (hspell r rfl hp).symm.trans htaken
          refine ⟨hzero, fun hpayload => hmark ?_, hp, rfl⟩
          rw [head?_of_isPrefix hp (by simp)]
          exact hhead.mpr hpayload
  · rintro ⟨hzero, hmarker, hp, rfl⟩
    exact spells_terminated hzero (mt hhead.mp hmarker) r rfl hp

/-- `stringPayload` gives a payload exactly where the bytes of `Valid` parts come next. -/
theorem stringPayload_eq_some_iff :
    stringPayload r = .ok (some payload) r' ↔
      ∃ p : StringParts, p.Valid r.format ∧ p.payload = payload ∧ p.bytes <+: r.unread ∧
        r' = r.skip p.bytes.length := by
  rw [stringPayload_eq rfl]
  cases hformat : r.format.stringEncoding with
  | lengthPrefixed =>
      rw [prefixedPayload_eq_some_iff]
      constructor
      · rintro ⟨lead, hlead, hp, rfl⟩
        refine ⟨⟨lead, payload, []⟩, .prefixed hformat hlead, rfl, ?_⟩
        rw [StringParts.bytes, List.append_nil]
        exact ⟨hp, rfl⟩
      · rintro ⟨p, hvalid, rfl, hp, rfl⟩
        cases hvalid with
        | @prefixed lead payload _ hlead =>
            rw [StringParts.bytes, List.append_nil] at hp ⊢
            exact ⟨lead, hlead, hp, rfl⟩
        | terminated hother => cases hformat.symm.trans hother
  | nullTerminated =>
      rw [terminatedPayload_eq_some_iff]
      constructor
      · rintro ⟨hzero, hmarker, hp, rfl⟩
        exact ⟨⟨[], payload, [0]⟩, .terminated hformat hzero hmarker, rfl, hp, rfl⟩
      · rintro ⟨p, hvalid, rfl, hp, rfl⟩
        cases hvalid with
        | prefixed hother => cases hformat.symm.trans hother
        | terminated _ hzero hmarker => exact ⟨hzero, hmarker, hp, rfl⟩

/-! ### Payloads that are no text -/

variable {stream : String} {start length : Nat}

theorem truncated_of_ofCursor {need : Nat} {op : Cursor → Option (α × Cursor)} {e : DecodeError}
    (h : ofCursor need op r = .error e r') : r.truncated need = e := by
  unfold ofCursor at h
  split at h
  case h_1 => cases h
  case h_2 => exact (EStateM.Result.error.inj h).1

/-- `stringPayload` never fails with `invalidUtf8`: a payload is not looked at before it is there.
-/
theorem stringPayload_ne_notText :
    stringPayload r ≠ .error (.invalidUtf8 stream start length) r' := by
  intro h
  rw [stringPayload_eq rfl] at h
  cases hformat : r.format.stringEncoding with
  | lengthPrefixed =>
      rw [hformat] at h
      rcases bind_eq_error_iff.mp h with h | ⟨count, s, -, h⟩
      · cases ((@accurate_index False r).error h).2 with
        | notText htext => exact htext
      · cases count with
        | none => cases h
        | some count => cases (((whole_bytes count).map some).error h).2.1
  | nullTerminated =>
      rw [hformat] at h
      dsimp only at h
      by_cases hmark : r.unread.head? = some nullMarker
      · rw [terminatedPayload_of_marker hmark] at h
        rcases bind_eq_error_iff.mp h with h | ⟨_, s, -, h⟩
        · cases ((whole_skip 1).error h).2.1
        · cases h
      · rw [terminatedPayload_of_ne hmark, map_eq_pure_bind] at h
        rcases bind_eq_error_iff.mp h with h | ⟨_, s, -, h⟩
        · cases truncated_of_ofCursor h
        · cases h

/-- `Read.string` fails with `invalidUtf8` exactly where `Valid` parts come next whose payload is no
text. It has been passed, then. -/
theorem string_eq_notText_iff :
    string r = .error (.invalidUtf8 stream start length) r' ↔
      stream = r.description ∧ start = r.offset ∧
        ∃ p : StringParts, p.Valid r.format ∧ Bytes.toText? p.payload = none ∧
          p.payload.length = length ∧ p.bytes <+: r.unread ∧ r' = r.skip p.bytes.length := by
  rw [string_eq, get_bind_eq, stringFrom]
  constructor
  · intro h
    rcases bind_eq_error_iff.mp h with h | ⟨payload, s, hpayload, h⟩
    · exact absurd h stringPayload_ne_notText
    cases payload with
    | none => cases h
    | some payload =>
        obtain ⟨p, hp, rfl, hprefix, rfl⟩ := stringPayload_eq_some_iff.mp hpayload
        dsimp only at h
        cases htext : Bytes.toText? p.payload with
        | some text =>
            rw [htext] at h
            cases h
        | none =>
            rw [htext] at h
            cases h
            exact ⟨rfl, rfl, p, hp, htext, rfl, hprefix, rfl⟩
  · rintro ⟨rfl, rfl, p, hp, htext, rfl, hprefix, rfl⟩
    rw [bind_of_ok (stringPayload_eq_some_iff.mpr ⟨p, hp, rfl, hprefix, rfl⟩)]
    dsimp only
    rw [htext]
    rfl

/-- `substream` fails with `invalidUtf8` exactly where its description does: nothing else of it is
text. -/
theorem substream_eq_notText_iff :
    substream r = .error (.invalidUtf8 stream start length) r' ↔
      string r = .error (.invalidUtf8 stream start length) r' := by
  rw [substream_eq]
  constructor
  · intro h
    rcases bind_eq_error_iff.mp h with h | ⟨text, s, -, h⟩
    · exact h
    rcases bind_eq_error_iff.mp h with h | ⟨header, t, -, h⟩
    · cases (whole_uint32.error h).2.1
    rcases ((@accurate_framed False 0 _ header t).error h).2 with h | ⟨_, h⟩
    · cases h with
      | notText htext => exact htext.elim
    · cases h
  · exact fun h => bind_of_error h

/-! ### What stands in front of a payload -/

theorem length_of_whole {read : Read α} {width taken : Nat} {v : α} (h : Whole width read)
    (hrun : read r = .ok v (r.skip taken)) : taken = width := by
  have hread := h r
  rw [hrun] at hread
  have hconsumed := congrArg Reader.consumed hread.2
  simpa using hconsumed

theorem length_of_lebUnsigned {count taken : Nat}
    (hrun : lebUnsigned r = .ok count (r.skip taken)) : 0 < taken ∧ taken ≤ 5 := by
  cases hlast : lastGroup? r.unread with
  | none =>
      have hloop := (loops_unsignedGroups r.offset).eq_of_lastGroup?_eq_none hlast
      rw [lebUnsigned, get_bind_eq, hloop] at hrun
      split at hrun <;> cases hrun
  | some position =>
      obtain ⟨_, _, _, -, -, hlt, -⟩ := exists_of_lastGroup? hlast
      rw [lebUnsigned_of_lastGroup? hlast] at hrun
      split at hrun
      case isTrue =>
        have hconsumed := congrArg Reader.consumed (EStateM.Result.ok.inj hrun).2
        simp only [Reader.consumed_skip, Nat.add_left_cancel_iff] at hconsumed
        unfold maxGroups at hlt
        omega
      case isFalse => cases hrun

/-- A count that `varUInt32` reads takes a number of bytes that the encoding of indices has
(`HasWidth`). -/
theorem hasWidth_of_varUInt32 {count taken : Nat}
    (hrun : varUInt32 r = .ok count (r.skip taken)) : r.format.indexEncoding.HasWidth taken := by
  rw [varUInt32_eq rfl, varUInt32In] at hrun
  cases hencoding : r.format.indexEncoding with
  | leb128 =>
      rw [hencoding] at hrun
      exact length_of_lebUnsigned hrun
  | fixed24 =>
      rw [hencoding] at hrun
      exact length_of_whole whole_uint24 hrun
  | fixed32 =>
      rw [hencoding] at hrun
      exact length_of_whole whole_uint32 hrun

end Read

namespace StringParts.Valid

variable {format : WireFormat} {p : StringParts}

theorem leadsWith (h : p.Valid format) : format.LeadsWith p.lead.length := by
  unfold WireFormat.LeadsWith
  cases h with
  | @prefixed lead payload hformat hlead =>
      let r : Reader := ⟨.ofBytes 0 lead, format, ""⟩
      obtain ⟨count, hcount, -⟩ := map_eq_ok_iff.mp (hlead r rfl List.prefix_rfl)
      rw [hformat]
      exact Read.hasWidth_of_varUInt32 hcount
  | terminated hformat =>
      rw [hformat]
      rfl

/-- The `lead` in front of a payload is empty exactly where strings end at a zero byte. -/
theorem lead_eq_nil_iff (h : p.Valid format) :
    p.lead = [] ↔ format.stringEncoding = .nullTerminated := by
  have hwidth := h.leadsWith
  unfold WireFormat.LeadsWith at hwidth
  rw [← List.length_eq_zero_iff]
  cases hformat : format.stringEncoding with
  | lengthPrefixed =>
      rw [hformat] at hwidth
      have hpos : 0 < p.lead.length := hwidth.pos
      simp [hpos.ne']
  | nullTerminated =>
      rw [hformat] at hwidth
      simpa using hwidth

end StringParts.Valid

namespace ReaderStack

variable {input : Bytes} {format : WireFormat} {s s' : ReaderStack} {op : Op}
  {stream : String} {start length : Nat}

theorem error_of_onTop {α : Type} {step : Read α} {answer : α → Answer} {e : DecodeError}
    (h : s.onTop step answer = (.error e, s')) : step s.top = .error e s'.top := by
  unfold onTop at h
  split at h
  case h_1 => cases h
  case h_2 hrun =>
    cases h
    exact hrun

/-- An operation fails with `invalidUtf8` only where it `ReadsText`, and then `Read.string` of the
top reader does. -/
theorem string_of_notText (h : s.perform op = (.error (.invalidUtf8 stream start length), s')) :
    op.ReadsText ∧ Read.string s.top = .error (.invalidUtf8 stream start length) s'.top := by
  have htext : op.ReadsText := by
    cases report_of_error h trivial with
    | notText htext => exact htext
  refine ⟨htext, ?_⟩
  rcases htext with rfl | rfl
  · exact error_of_onTop h
  · obtain ⟨outer, hrun, rfl⟩ := enter_eq_error_iff.mp h
    exact Read.substream_eq_notText_iff.mp hrun

/-- Whatever was done to the readers of an input, `invalidUtf8` tells the stream, the number of
bytes that are no text, and the offset where their string starts, which is where the reader stood.
From there on the input has the `lead` in front of the payload, the payload, and the `tail` behind
it, up to where the read stopped. So the offset is that of the payload in the framing that ends a
string at a zero byte, and in no other. -/
theorem notText_of_perform (input : Bytes) (format : WireFormat) (description : String)
    (ops : List Op) (op : Op)
    (h : ((ofReader (.ofBytes format description input)).after ops).perform op =
      (.error (.invalidUtf8 stream start length), s')) :
    op.ReadsText ∧
      stream = ((ofReader (.ofBytes format description input)).after ops).top.description ∧
      start = ((ofReader (.ofBytes format description input)).after ops).top.offset ∧
      ∃ p : StringParts, p.Valid format ∧ Bytes.toText? p.payload = none ∧
        p.payload.length = length ∧ input.slice start p.lead.length = p.lead ∧
        input.slice (start + p.lead.length) length = p.payload ∧
        input.slice (start + p.lead.length + length) p.tail.length = p.tail ∧
        s'.top.offset = start + p.lead.length + length + p.tail.length ∧
        format.LeadsWith p.lead.length ∧
        (p.lead = [] ↔ format.stringEncoding = .nullTerminated) := by
  have hstands := (stands_ofReader format description input).after ops
  generalize (ofReader (.ofBytes format description input)).after ops = s at h hstands ⊢
  have htop : s.top ∈ s.toList := List.mem_cons_self
  have hformat := hstands.format_eq s.top htop
  have hviews := hstands.views s.top htop
  obtain ⟨htext, hrun⟩ := string_of_notText h
  obtain ⟨rfl, rfl, p, hp, hnone, rfl, hprefix, htop'⟩ := Read.string_eq_notText_iff.mp hrun
  rw [hformat] at hp
  rw [hviews.unread_eq] at hprefix
  -- All three parts are slices of the input by the same argument.
  have hslice (front middle : Bytes) (h : front ++ middle <+: p.bytes) :
      input.slice (s.top.offset + front.length) middle.length = middle := by
    rw [hviews.offset_eq]
    exact Bytes.slice_of_isPrefix (h.trans hprefix)
  refine ⟨htext, rfl, rfl, p, hp, hnone, rfl, ?_, ?_, ?_, ?_, hp.leadsWith, hp.lead_eq_nil_iff⟩
  · exact hslice [] p.lead ⟨p.payload ++ p.tail, rfl⟩
  · exact hslice p.lead p.payload ⟨p.tail, by simp [StringParts.bytes]⟩
  · have := hslice (p.lead ++ p.payload) p.tail ⟨[], by simp [StringParts.bytes]⟩
    rwa [List.length_append, ← Nat.add_assoc] at this
  · rw [htop', Reader.offset_skip, StringParts.bytes]
    simp only [List.length_append]
    omega

/-- A frame, described as `outer`, of a byte and a string that has its length in three groups,
and two bytes that are no text. -/
def tornText : Bytes :=
  [6, 0x6F, 0x75, 0x74, 0x65, 0x72, 6, 0, 0, 0, 7, 0x83, 0x80, 0x00, 0xC3, 0x28, 6, 0, 0, 0]

/-- The stack in the frame, at the string. -/
def tornStack : ReaderStack :=
  (ofReader (.ofBytes ⟨true, false, false⟩ "input" tornText)).after [.enter, .byte]

theorem string_tornStack : tornStack.perform .string =
    (.error (.invalidUtf8 "outer" 11 2), (tornStack.perform .string).2) :=
  rfl

/-- In `tornText` the string starts at 11, and the two bytes that are no text stand behind its
length. -/
theorem notText_of_perform_tornText :
    (tornStack.perform .string).1 = .error (.invalidUtf8 "outer" 11 2) ∧
      ∃ p : StringParts, Bytes.toText? p.payload = none ∧
        tornText.slice (11 + p.lead.length) 2 = p.payload ∧
        0 < p.lead.length ∧ p.lead.length ≤ 5 := by
  obtain ⟨-, -, -, p, -, hnone, -, -, hpayload, -, -, hwidth, -⟩ :=
    notText_of_perform tornText ⟨true, false, false⟩ "input" [.enter, .byte] .string
      string_tornStack
  exact ⟨rfl, p, hnone, hpayload, hwidth⟩

/-- The bytes at the offset of `invalidUtf8` need not be the payload: here they spell the length of
a payload of two bytes, and are a text. -/
theorem notText_not_at_start :
    ¬∀ (input : Bytes) (format : WireFormat) (description : String) (ops : List Op)
      (stream : String) (start length : Nat) (s' : ReaderStack),
      ((ofReader (.ofBytes format description input)).after ops).perform .string =
        (.error (.invalidUtf8 stream start length), s') →
      Bytes.toText? (input.slice start length) = none := by
  intro h
  have hrun : ((ofReader (.ofBytes {} "input" [3, 0, 0, 0, 0xC3, 0x28])).after []).perform .string
      = (.error (.invalidUtf8 "input" 0 2), ⟨⟨⟨0, 6, []⟩, {}, "input"⟩, []⟩) := rfl
  have hslice := h _ _ _ _ _ _ _ _ hrun
  have htext : Bytes.toText? [3, 0] = some "\x03\x00" := rfl
  cases htext.symm.trans hslice

end ReaderStack

end BinaryAst
