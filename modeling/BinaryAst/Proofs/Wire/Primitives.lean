import BinaryAst.Proofs.Wire.Spelling
/-!
# BinaryAst.Proofs.Wire.Primitives

Every primitive read that a container is made of is exact (`Read.Exact`): what it gives depends
on the bytes that it takes and on nothing else.

The reads that look ahead are settled here. A base-128 integer looks at the high bit
of each group, a terminated string looks for the null marker and for its zero byte,
and each takes the bytes it has looked at.
-/

namespace BinaryAst

/-- `splitAtZero?` finds nothing exactly where no byte is zero. -/
theorem Bytes.splitAtZero?_eq_none_iff {bytes : Bytes} :
    splitAtZero? bytes = none ↔ 0 ∉ bytes := by
  constructor
  · intro h mem
    obtain ⟨before, after, rfl, hbefore⟩ := List.eq_append_cons_of_mem mem
    rw [splitAtZero?_eq_some_iff.mpr ⟨rfl, hbefore⟩] at h
    cases h
  · intro h
    cases hs : splitAtZero? bytes with
    | none => rfl
    | some parts =>
        obtain ⟨rfl, -⟩ := splitAtZero?_eq_some_iff.mp hs
        exact absurd (List.mem_append_right _ List.mem_cons_self) h

namespace Cursor

/-- The operation gives `value` by taking `bytes` where they are ahead, and it gives nothing where
the range ends before they do. -/
structure Takes {α : Type} (op : Cursor → Option (α × Cursor)) (bytes : Bytes) (value : α) :
    Prop where
  some_of_isPrefix : ∀ c : Cursor, bytes <+: c.unread →
    op c = some (value, ⟨c.base, c.pos + bytes.length, c.unread.drop bytes.length⟩)
  none_of_short : ∀ c : Cursor, c.unread <+: bytes → c.unread.length < bytes.length →
    op c = none

theorem takes_read (byte : UInt8) : Takes read [byte] byte := by
  refine ⟨fun c hp => ?_, fun c _ hlt => ?_⟩
  · obtain ⟨rest, hrest⟩ := hp
    exact read_eq_some_iff.mpr ⟨rest, hrest.symm, by simp [← hrest]⟩
  · have hnil : c.unread = [] := List.length_eq_zero_iff.mp (by simpa using hlt)
    simp [read, hnil]

/-- Any bytes are what `Cursor.take` of their length takes. -/
theorem takes_take (taken : Bytes) : Takes (·.take taken.length) taken taken := by
  refine ⟨fun c hp => ?_, fun c _ hlt => ?_⟩
  · obtain ⟨rest, hrest⟩ := hp
    exact take_eq_some_iff.mpr ⟨rest, hrest.symm, rfl, by simp [← hrest]⟩
  · exact take_eq_none_iff.mpr hlt

theorem takes_skip (taken : Bytes) : Takes (·.skip taken.length) taken () := by
  refine ⟨fun c hp => ?_, fun c hp hlt => ?_⟩
  · simp [skip, (takes_take taken).some_of_isPrefix c hp]
  · simp [skip, (takes_take taken).none_of_short c hp hlt]

/-- `takeUntilZero` takes bytes up to a zero byte. Nothing that is shorter holds a zero byte, so it
finds nothing there. -/
theorem takes_takeUntilZero {before : Bytes} (hbefore : 0 ∉ before) :
    Takes takeUntilZero (before ++ [0]) before := by
  refine ⟨fun c hp => ?_, fun c hp hlt => ?_⟩
  · obtain ⟨rest, hrest⟩ := hp
    refine takeUntilZero_eq_some_iff.mpr ⟨rest, by rw [← hrest]; simp, hbefore, ?_⟩
    simp [← hrest, Nat.add_assoc]
  · have hpre : c.unread <+: before :=
      List.prefix_of_prefix_length_le hp (List.prefix_append before [0])
        (by simp only [List.length_append, List.length_singleton] at hlt; omega)
    have hzero : 0 ∉ c.unread := fun mem => hbefore (hpre.mem mem)
    simp [takeUntilZero, Bytes.splitAtZero?_eq_none_iff.mpr hzero]

end Cursor

namespace Read

variable {α : Type} {format : WireFormat}

/-! ### Single reads -/

/-- What an operation `Takes` spells its value. -/
theorem spells_ofCursor {need : Nat} {op : Cursor → Option (α × Cursor)} {bytes : Bytes}
    {value : α} (h : Cursor.Takes op bytes value) :
    Spells format (ofCursor need op) bytes value := by
  intro r _ hp
  simp only [ofCursor, h.some_of_isPrefix r.cursor hp]
  rfl

/-- Where the range ends within the bytes that an operation `Takes`, its read reports a shortage. -/
theorem starves_ofCursor {need : Nat} {op : Cursor → Option (α × Cursor)} {bytes : Bytes}
    {value : α} (h : Cursor.Takes op bytes value) : Starves format (ofCursor need op) bytes := by
  intro r _ hp hlt
  refine ⟨need, 0, Nat.zero_le _, ?_⟩
  simp only [ofCursor, h.none_of_short r.cursor hp hlt, Reader.skip_zero]

/-- `ofCursor` is exact if whatever the operation gives, it gives by taking bytes (`Cursor.Takes`).
-/
theorem exact_ofCursor {need : Nat} {op : Cursor → Option (α × Cursor)}
    (h : ∀ c value next, op c = some (value, next) →
      ∃ bytes, bytes <+: c.unread ∧ Cursor.Takes op bytes value) :
    Exact (ofCursor need op) := by
  intro r v r' hr
  cases hop : op r.cursor with
  | none => simp [ofCursor, hop] at hr
  | some result =>
      obtain ⟨value, next⟩ := result
      obtain ⟨bytes, hp, htakes⟩ := h _ _ _ hop
      have hs : Spells r.format (ofCursor need op) bytes value := spells_ofCursor htakes
      obtain ⟨rfl, rfl⟩ : value = v ∧ r.skip bytes.length = r' := by
        have := (hs r rfl hp).symm.trans hr
        simpa using this
      exact ⟨bytes, hp, rfl, hs, starves_ofCursor htakes⟩

theorem exact_byte : Exact byte :=
  exact_ofCursor fun _ value _ h =>
    have ⟨rest, hrest, _⟩ := Cursor.read_eq_some_iff.mp h
    ⟨[value], ⟨rest, hrest.symm⟩, Cursor.takes_read value⟩

/-- `byte` is spelled by the byte alone. -/
theorem spells_byte_iff {spelling : Bytes} {value : UInt8} :
    Spells format byte spelling value ↔ spelling = [value] := by
  constructor
  · intro h
    let r : Reader := ⟨.ofBytes 0 spelling, format, ""⟩
    have hrun := h r rfl List.prefix_rfl
    cases hread : r.cursor.read with
    | none => simp [byte, ofCursor, hread] at hrun
    | some result =>
        obtain ⟨rest, hrest, hnext⟩ := Cursor.read_eq_some_iff.mp hread
        obtain ⟨rfl, hskip⟩ : result.1 = value ∧
            { r with cursor := result.2 } = r.skip spelling.length := by
          simpa [byte, ofCursor, hread] using hrun
        have hlen : 1 = spelling.length := by
          simpa [hnext, Reader.skip] using congrArg (·.cursor.pos) hskip
        have hp : [result.1] <+: spelling := ⟨rest, hrest.symm⟩
        exact (hp.eq_of_length hlen).symm
  · rintro rfl
    exact spells_ofCursor (Cursor.takes_read value)

theorem exact_bytes (count : Nat) : Exact (bytes count) :=
  exact_ofCursor fun _ taken _ h =>
    have ⟨rest, hrest, hcount, _⟩ := Cursor.take_eq_some_iff.mp h
    ⟨taken, ⟨rest, hrest.symm⟩, hcount ▸ Cursor.takes_take taken⟩

/-- Bytes that are ahead are read as they are. -/
theorem bytes_of_isPrefix {r : Reader} {payload : Bytes} (hp : payload <+: r.unread) :
    bytes payload.length r = .ok payload (r.skip payload.length) :=
  spells_ofCursor (Cursor.takes_take payload) r rfl hp

/-- `bytes count` reads a payload exactly if it is ahead and has `count` bytes. -/
theorem bytes_eq_ok_iff {r r' : Reader} {count : Nat} {payload : Bytes} :
    bytes count r = .ok payload r' ↔
      payload <+: r.unread ∧ payload.length = count ∧ r' = r.skip count := by
  constructor
  · intro h
    cases htake : r.cursor.take count with
    | none => simp [bytes, ofCursor, htake] at h
    | some result =>
        obtain ⟨rest, hrest, hlen, -⟩ := Cursor.take_eq_some_iff.mp htake
        obtain ⟨rfl, -⟩ : result.1 = payload ∧ _ = r' := by
          simpa [bytes, ofCursor, htake] using h
        have hp : result.1 <+: r.unread := ⟨rest, hrest.symm⟩
        subst hlen
        rw [bytes_of_isPrefix hp] at h
        exact ⟨hp, rfl, by simpa [eq_comm] using h⟩
  · intro h
    rcases h with ⟨hp, rfl, rfl⟩
    exact bytes_of_isPrefix hp

theorem exact_unsigned (width : Nat) : Exact (unsigned width) :=
  (exact_bytes width).map _

theorem exact_uint32 : Exact uint32 := exact_unsigned 4

theorem exact_uint24 : Exact uint24 := exact_unsigned 3

/-- `unsigned` is spelled by the digits of the number, so each number has one spelling of a width at
most. -/
theorem spells_unsigned_iff {width value : Nat} {digits : Bytes} :
    Spells format (unsigned width) digits value ↔
      digits.length = width ∧ digits.toNat = value := by
  constructor
  · intro h
    let r : Reader := ⟨.ofBytes 0 digits, format, ""⟩
    obtain ⟨taken, htaken, rfl⟩ := map_eq_ok_iff.mp (h r rfl List.prefix_rfl)
    cases htake : r.cursor.take width with
    | none => simp [bytes, ofCursor, htake] at htaken
    | some result =>
        obtain ⟨rest, hrest, hlen, hnext⟩ := Cursor.take_eq_some_iff.mp htake
        obtain ⟨rfl, hskip⟩ : result.1 = taken ∧
            { r with cursor := result.2 } = r.skip digits.length := by
          simpa [bytes, ofCursor, htake] using htaken
        have hwidth : width = digits.length := by
          simpa [hnext, Reader.skip] using congrArg (·.cursor.pos) hskip
        have hdigits : result.1 = digits :=
          List.IsPrefix.eq_of_length ⟨rest, hrest.symm⟩ (by rw [hlen, hwidth])
        exact ⟨hwidth.symm, by rw [hdigits]⟩
  · intro h
    rcases h with ⟨rfl, rfl⟩
    exact (spells_ofCursor (Cursor.takes_take digits)).map Bytes.toNat

theorem exact_int32 : Exact int32 := (exact_unsigned 4).map _

theorem exact_binary64 : Exact binary64 := (exact_unsigned 8).map _

/-! ### Base-128 integers

The offset that the groups carry along is for the report of an overflow alone, as
the one that a string keeps is for the report of a payload that is no text. -/

theorem exact_overflow (start : Nat) : Exact (overflow start : Read α) :=
  fun _ _ _ h => by
    obtain ⟨_, _, _, h⟩ := bind_eq_ok_iff.mp h
    exact absurd h throw_ne_ok

/-- `unsignedGroups` is exact: the high bit of a group says whether another one follows, and how far
the range goes beyond the last one does not matter. -/
theorem exact_unsignedGroups (start left shift sum : Nat) :
    Exact (unsignedGroups start left shift sum) := by
  induction left generalizing shift sum with
  | zero => exact exact_overflow start
  | succ left ih =>
      refine exact_byte.bind fun group => ?_
      dsimp only
      split
      · exact exact_overflow start
      · split
        · exact ih _ _
        · exact .pure _

/-- Two reads, of the same bytes and from the same reader, that differ at most in what they report
other than a shortage. `Exact` says nothing of such reports. -/
def SameButReport (x y : Read α) : Prop :=
  ∀ r, x r = y r ∨ ∃ e r', x r = .error e r' ∧
    ∀ stream offset need remaining, e ≠ .truncated stream offset need remaining

/-- `overflow` differs from whatever else is read in its report alone. -/
theorem SameButReport.overflow (start : Nat) (y : Read α) :
    SameButReport (overflow start) y :=
  fun r => .inr ⟨.varintOverflow r.description start, r, rfl, by simp⟩

theorem SameButReport.bind {β : Type} (x : Read α) {f g : α → Read β}
    (h : ∀ v, SameButReport (f v) (g v)) : SameButReport (x >>= f) (x >>= g) := by
  intro r
  cases hx : x r with
  | ok v r' =>
      rw [bind_of_ok hx, bind_of_ok hx]
      exact h v r'
  | error e r' =>
      left
      rw [bind_of_error hx, bind_of_error hx]

/-- The offset `start` that the groups carry along shows in the report of an overflow only. -/
theorem sameButReport_unsignedGroups (start start' left shift sum : Nat) :
    SameButReport (unsignedGroups start left shift sum)
      (unsignedGroups start' left shift sum) := by
  induction left generalizing shift sum with
  | zero => exact .overflow start _
  | succ left ih =>
      refine SameButReport.bind byte fun group => ?_
      dsimp only
      split
      · exact .overflow start _
      · split
        · exact ih _ _
        · exact fun r => .inl rfl

/-- A read that is exact from any offset `start` it is told is exact where it is told its own. What
it spells must not depend on the offset, which `SameButReport` says. -/
theorem exact_of_start {x : Nat → Read α} (hx : ∀ start, Exact (x start))
    (hsame : ∀ start start', SameButReport (x start) (x start')) :
    Exact (get >>= fun r => x r.offset) := by
  intro r v r' h
  obtain ⟨bytes, hp, rfl, hs, ht⟩ := hx r.offset r v r' h
  refine ⟨bytes, hp, rfl, fun t hr hpt => ?_, fun t hr hpt hlt => ?_⟩
  -- the two runs may start at different offsets, which only the report of an overflow shows
  · have hok := hs t hr hpt
    rcases hsame r.offset t.offset t with heq | ⟨_, _, herr, -⟩
    · exact heq.symm.trans hok
    · rw [hok] at herr
      cases herr
  · obtain ⟨need, count, hle, he⟩ := ht t hr hpt hlt
    refine ⟨need, count, hle, ?_⟩
    rcases hsame r.offset t.offset t with heq | ⟨_, _, herr, hne⟩
    · exact heq.symm.trans he
    · rw [he] at herr
      cases herr
      exact absurd rfl (hne _ _ _ _)

theorem exact_lebUnsigned : Exact lebUnsigned :=
  exact_of_start (fun start => exact_unsignedGroups start _ _ _)
    fun start start' => sameButReport_unsignedGroups start start' _ _ _

/-! ### Counts and indices -/

/-- The read that a format lays counts out for. -/
def varUInt32In (format : WireFormat) : Read Nat :=
  match format.indexEncoding with
  | .leb128 => lebUnsigned
  | .fixed24 => uint24
  | .fixed32 => uint32

/-- `varUInt32` asks the reader for its format, so on a reader of `format` it is `varUInt32In
format`. -/
theorem varUInt32_eq {r : Reader} (hr : r.format = format) :
    varUInt32 r = varUInt32In format r := by
  subst hr
  cases h : r.format.indexEncoding <;> simp only [varUInt32, get_bind_eq, varUInt32In, h]

/-- `varUInt32` is exact in each of its three layouts. -/
theorem exact_varUInt32 : Exact varUInt32 := by
  refine .of_format fun format => ⟨varUInt32In format, ?_, fun r hr => varUInt32_eq hr⟩
  unfold varUInt32In
  cases format.indexEncoding with
  | leb128 => exact exact_lebUnsigned
  | fixed24 => exact exact_uint24
  | fixed32 => exact exact_uint32

theorem exact_index : Exact index := exact_varUInt32.map _

/-! ### Strings -/

theorem peek_zero (r : Reader) : r.peek 0 = r.unread.head? := by
  simp [Reader.peek, Cursor.peek, Reader.unread, List.head?_eq_getElem?]

/-- The payload of a string that starts with its length, or nothing for the null index. -/
def prefixedPayload : Read (Option Bytes) := do
  match ← index with
  | none => pure none
  | some length => some <$> bytes length

/-- The payload of a string that ends at a zero byte, or nothing behind a `nullMarker`. -/
def terminatedPayload : Read (Option Bytes) := do
  if (← get).peek 0 = some nullMarker then
    skip 1
    pure none
  else
    some <$> ofCursor 1 Cursor.takeUntilZero

/-- `stringPayload`, with the format of the reader asked for its framing of strings. -/
theorem stringPayload_eq {r : Reader} (hr : r.format = format) :
    stringPayload r = match format.stringEncoding with
      | .lengthPrefixed => prefixedPayload r
      | .nullTerminated => terminatedPayload r := by
  subst hr
  rw [stringPayload, get_bind_eq]
  cases r.format.stringEncoding <;> rfl

theorem exact_prefixedPayload : Exact prefixedPayload := by
  refine exact_index.bind fun length => ?_
  cases length with
  | none => exact .pure none
  | some length => exact (exact_bytes length).map _

/-- Where a `nullMarker` is ahead, it is skipped. -/
theorem terminatedPayload_of_marker {r : Reader} (h : r.unread.head? = some nullMarker) :
    terminatedPayload r = (skip 1 >>= fun _ => pure none) r := by
  rw [terminatedPayload, get_bind_eq, peek_zero, if_pos h]

/-- Where anything but `nullMarker` is ahead, or nothing, the payload ends at the next zero byte. -/
theorem terminatedPayload_of_ne {r : Reader} (h : r.unread.head? ≠ some nullMarker) :
    terminatedPayload r = (some <$> ofCursor 1 Cursor.takeUntilZero) r := by
  rw [terminatedPayload, get_bind_eq, peek_zero, if_neg h]

/-- The look-ahead depends on the bytes that are taken, as soon as one is. -/
theorem head?_of_isPrefix {bytes more : Bytes} (hp : bytes <+: more) (hne : bytes ≠ []) :
    more.head? = bytes.head? := by
  obtain ⟨rest, rfl⟩ := hp
  cases bytes with
  | nil => exact absurd rfl hne
  | cons byte bytes => rfl

/-- The null string is spelled by `nullMarker`. -/
theorem spells_nullMarker : Spells format terminatedPayload [nullMarker] none := by
  intro r hr hp
  rw [terminatedPayload_of_marker (List.singleton_prefix_iff_head?_eq_some.mp hp)]
  exact (spells_ofCursor (Cursor.takes_skip [nullMarker])).bind (.pure none) r hr hp

theorem starves_nullMarker : Starves format terminatedPayload [nullMarker] := by
  intro r hr _ hlt
  have hnil : r.unread = [] := List.length_eq_zero_iff.mp (by simpa using hlt)
  rw [terminatedPayload_of_ne (by simp [hnil])]
  exact (starves_ofCursor (Cursor.takes_takeUntilZero List.not_mem_nil)).map some r hr
    (by simp [hnil]) (by simp [hnil])

/-- A payload without a zero byte is spelled with one behind it, if it does not start with the
`nullMarker`: the first byte decides between the null string and a payload. -/
theorem spells_terminated {payload : Bytes} (hzero : 0 ∉ payload)
    (hhead : (payload ++ [0]).head? ≠ some nullMarker) :
    Spells format terminatedPayload (payload ++ [0]) (some payload) := by
  intro r hr hp
  rw [terminatedPayload_of_ne (by rwa [head?_of_isPrefix hp (by simp)])]
  exact (spells_ofCursor (Cursor.takes_takeUntilZero hzero)).map some r hr hp

/-- Where a reader ends within such a payload, `terminatedPayload` finds the same first byte, or
none; and no zero byte, so it reports a shortage. -/
theorem starves_terminated {payload : Bytes} (hzero : 0 ∉ payload)
    (hhead : (payload ++ [0]).head? ≠ some nullMarker) :
    Starves format terminatedPayload (payload ++ [0]) := by
  intro r hr hp hlt
  have hne : r.unread.head? ≠ some nullMarker := by
    intro hmark
    have hnil : r.unread ≠ [] := by
      rintro hnil
      simp [hnil] at hmark
    exact hhead (by rwa [head?_of_isPrefix hp hnil])
  rw [terminatedPayload_of_ne hne]
  exact (starves_ofCursor (Cursor.takes_takeUntilZero hzero)).map some r hr hp hlt

/-- `terminatedPayload` is exact, though it looks one byte ahead: that byte is then taken. -/
theorem exact_terminatedPayload : Exact terminatedPayload := by
  intro r v r' h
  by_cases hmark : r.unread.head? = some nullMarker
  · have hp : [nullMarker] <+: r.unread := List.singleton_prefix_iff_head?_eq_some.mpr hmark
    obtain ⟨rfl, rfl⟩ : none = v ∧ r.skip 1 = r' := by
      simpa using (spells_nullMarker r rfl hp).symm.trans h
    exact ⟨[nullMarker], hp, rfl, spells_nullMarker, starves_nullMarker⟩
  · have hr := h
    rw [terminatedPayload_of_ne hmark] at hr
    obtain ⟨payload, hpay, -⟩ := map_eq_ok_iff.mp hr
    cases hop : r.cursor.takeUntilZero with
    | none => simp [ofCursor, hop] at hpay
    | some result =>
        obtain ⟨after, hun, hzero, -⟩ := Cursor.takeUntilZero_eq_some_iff.mp hop
        have hp : result.1 ++ [0] <+: r.unread := ⟨after, by simp [Reader.unread, hun]⟩
        have hhead : (result.1 ++ [0]).head? ≠ some nullMarker := by
          rwa [← head?_of_isPrefix hp (by simp)]
        have hs : Spells r.format terminatedPayload (result.1 ++ [0]) (some result.1) :=
          spells_terminated hzero hhead
        obtain ⟨rfl, rfl⟩ : some result.1 = v ∧ r.skip (result.1 ++ [0]).length = r' := by
          simpa using (hs r rfl hp).symm.trans h
        exact ⟨result.1 ++ [0], hp, rfl, hs, starves_terminated hzero hhead⟩

theorem exact_stringPayload : Exact stringPayload := by
  refine .of_format fun format => ?_
  cases hf : format.stringEncoding with
  | lengthPrefixed =>
      exact ⟨_, exact_prefixedPayload, fun r hr => by rw [stringPayload_eq hr, hf]⟩
  | nullTerminated =>
      exact ⟨_, exact_terminatedPayload, fun r hr => by rw [stringPayload_eq hr, hf]⟩

/-- A string whose fault is reported at `start`. -/
def stringFrom (start : Nat) : Read (Option String) := do
  match ← stringPayload with
  | none => pure none
  | some payload =>
    match Bytes.toText? payload with
    | some text => pure (some text)
    | none => throw (.invalidUtf8 (← get).description start payload.length)

/-- `string` is `stringFrom` its own offset. -/
theorem string_eq : string = get >>= fun r => stringFrom r.offset := rfl

/-- Strings are exact under both framings. The offset that a string keeps for its report is dealt
with by `exact_of_start`. -/
theorem exact_string : Exact string := by
  rw [string_eq]
  refine exact_of_start (fun start => ?_) fun start start' => ?_
  · refine exact_stringPayload.bind fun payload => ?_
    cases payload with
    | none => exact .pure none
    | some payload =>
        dsimp only
        cases Bytes.toText? payload with
        | some text => exact .pure (some text)
        | none =>
            intro r v r' h
            exact absurd h throw_ne_ok
  · refine SameButReport.bind stringPayload fun payload => ?_
    cases payload with
    | none => exact fun r => .inl rfl
    | some payload =>
        dsimp only
        cases Bytes.toText? payload with
        | some text => exact fun r => .inl rfl
        | none => exact fun r => .inr ⟨_, r, rfl, by simp⟩

end Read

end BinaryAst
