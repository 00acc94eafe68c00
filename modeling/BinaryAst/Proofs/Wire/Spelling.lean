import BinaryAst.Wire.Reader
import BinaryAst.Proofs.Outcome
/-!
# BinaryAst.Proofs.Wire.Spelling

What a read takes from its reader, as a byte string.

`Read.Spells format read bytes value` says that `bytes` spell `value`: wherever a
reader of this format has them next, `read` takes exactly them and gives `value`.
It holds of the bytes alone; nothing that lies behind them, and no position, plays
a part.

`Read.Starves` is the other side of the same bytes: where a reader ends inside
them, the read runs out of bytes, and reports it where the reader ends.

`Read.Exact` joins the two: whatever a read gives, it took bytes that spell it. It is
closed under everything reads are built with, so the two laws are proved for single
reads only.
-/

namespace BinaryAst

namespace Reader

/-- The bytes ahead. -/
def unread (r : Reader) : Bytes := r.cursor.unread

/-- The reader some bytes on. -/
def skip (r : Reader) (count : Nat) : Reader :=
  { r with cursor := ⟨r.cursor.base, r.cursor.pos + count, r.cursor.unread.drop count⟩ }

@[simp] theorem skip_zero (r : Reader) : r.skip 0 = r := rfl

@[simp] theorem unread_skip (r : Reader) (count : Nat) :
    (r.skip count).unread = r.unread.drop count := rfl

@[simp] theorem format_skip (r : Reader) (count : Nat) : (r.skip count).format = r.format := rfl

@[simp] theorem description_skip (r : Reader) (count : Nat) :
    (r.skip count).description = r.description := rfl

@[simp] theorem base_skip (r : Reader) (count : Nat) : (r.skip count).base = r.base := rfl

@[simp] theorem consumed_skip (r : Reader) (count : Nat) :
    (r.skip count).consumed = r.consumed + count := rfl

@[simp] theorem offset_skip (r : Reader) (count : Nat) :
    (r.skip count).offset = r.offset + count := by
  simp [offset, Cursor.offset, skip, Nat.add_assoc]

theorem skip_skip (r : Reader) (count more : Nat) :
    (r.skip count).skip more = r.skip (count + more) := by
  simp [skip, Nat.add_assoc, List.drop_drop]

theorem remaining_eq (r : Reader) : r.remaining = r.unread.length := rfl

theorem length_eq (r : Reader) : r.length = r.consumed + r.unread.length := rfl

/-- `skip` within what is unread leaves the length of the range as it is. -/
theorem length_skip {r : Reader} {count : Nat} (h : count ≤ r.unread.length) :
    (r.skip count).length = r.length := by
  simp only [length_eq, consumed_skip, unread_skip, List.length_drop]
  omega

/-- Bytes that are next, and the bytes that are next behind them. -/
theorem append_isPrefix {r : Reader} {first second : Bytes} (h₁ : first <+: r.unread)
    (h₂ : second <+: (r.skip first.length).unread) : first ++ second <+: r.unread := by
  obtain ⟨rest, hrest⟩ := h₁
  rw [unread_skip, ← hrest, List.drop_left] at h₂
  rw [← hrest]
  exact (List.prefix_append_right_inj first).mpr h₂

end Reader

namespace Read

variable {α β : Type} {format : WireFormat}

/-- The bytes spell the value, for this read and in this format: wherever a reader has them next,
the read takes exactly them and gives the value. -/
def Spells (format : WireFormat) (read : Read α) (bytes : Bytes) (value : α) : Prop :=
  ∀ r : Reader, r.format = format → bytes <+: r.unread →
    read r = .ok value (r.skip bytes.length)

/-- A read that wants these bytes and finds an end before theirs runs out of bytes there: it reports
a shortage, at some place no further than the end. -/
def Starves (format : WireFormat) (read : Read α) (bytes : Bytes) : Prop :=
  ∀ r : Reader, r.format = format → r.unread <+: bytes → r.unread.length < bytes.length →
    ∃ need count, count ≤ r.unread.length ∧
      read r = .error ((r.skip count).truncated need) (r.skip count)

/-- What the read gives is spelled by the bytes that it took, and it starves within them. -/
def Exact (read : Read α) : Prop :=
  ∀ r value r', read r = .ok value r' →
    ∃ bytes, bytes <+: r.unread ∧ r' = r.skip bytes.length ∧
      Spells r.format read bytes value ∧ Starves r.format read bytes

/-! ### Spelling -/

/-- `pure` is spelled by no bytes. -/
theorem Spells.pure (value : α) : Spells format (Pure.pure value) [] value :=
  fun _ _ _ => rfl

/-- `Spells` is closed under `>>=`: spellings of a sequence of reads stand one behind the other. -/
theorem Spells.bind {x : Read α} {f : α → Read β} {first second : Bytes} {v : α} {w : β}
    (hx : Spells format x first v) (hf : Spells format (f v) second w) :
    Spells format (x >>= f) (first ++ second) w := by
  intro r hr hp
  obtain ⟨rest, hrest⟩ := hp
  have hfirst : first <+: r.unread := ⟨second ++ rest, by rw [← hrest, List.append_assoc]⟩
  have hsecond : second <+: (r.skip first.length).unread := by
    refine ⟨rest, ?_⟩
    rw [Reader.unread_skip, ← hrest, List.append_assoc, List.drop_left]
  rw [bind_of_ok (hx r hr hfirst), hf (r.skip first.length) hr hsecond, Reader.skip_skip,
    List.length_append]

theorem Spells.map {x : Read α} {bytes : Bytes} {v : α} (g : α → β)
    (hx : Spells format x bytes v) : Spells format (g <$> x) bytes (g v) :=
  fun r hr hp => map_eq_ok_iff.mpr ⟨v, hx r hr hp, rfl⟩

/-! ### Starving -/

/-- Nothing ends before no bytes. -/
theorem Starves.nil (x : Read α) : Starves format x [] :=
  fun _ _ _ h => absurd h (by simp)

theorem Starves.map {x : Read α} {bytes : Bytes} (g : α → β) (hx : Starves format x bytes) :
    Starves format (g <$> x) bytes := by
  intro r hr hp hlt
  obtain ⟨need, count, hle, he⟩ := hx r hr hp hlt
  exact ⟨need, count, hle, by rw [map_eq_pure_bind, bind_of_error he]⟩

/-- `Starves` is closed under `>>=`: the end lies in the first part, or in the second behind a first
part that is there in full. -/
theorem Starves.bind {x : Read α} {f : α → Read β} {first second : Bytes} {v : α}
    (hx : Spells format x first v) (hs : Starves format x first)
    (hf : Starves format (f v) second) : Starves format (x >>= f) (first ++ second) := by
  intro r hr hp hlt
  -- The input ends in the first part or behind it.
  by_cases hshort : r.unread.length < first.length
  · have hpre : r.unread <+: first :=
      List.prefix_of_prefix_length_le hp (List.prefix_append first second) (by omega)
    obtain ⟨need, count, hle, he⟩ := hs r hr hpre hshort
    exact ⟨need, count, hle, bind_of_error he⟩
  · have hfirst : first <+: r.unread :=
      List.prefix_of_prefix_length_le (List.prefix_append first second) hp (by omega)
    obtain ⟨rest, hrest⟩ := hfirst
    have hun : (r.skip first.length).unread = rest := by
      rw [Reader.unread_skip, ← hrest, List.drop_left]
    have hpre : (r.skip first.length).unread <+: second := by
      rw [hun]
      rw [← hrest] at hp
      exact (List.prefix_append_right_inj first).mp hp
    have hshorter : (r.skip first.length).unread.length < second.length := by
      rw [hun]
      rw [← hrest, List.length_append, List.length_append] at hlt
      omega
    obtain ⟨need, count, hle, he⟩ := hf (r.skip first.length) hr hpre hshorter
    refine ⟨need, first.length + count, ?_, ?_⟩
    · rw [hun] at hle
      rw [← hrest, List.length_append]
      omega
    · rw [bind_of_ok (hx r hr ⟨rest, hrest⟩), he, Reader.skip_skip]

/-! ### Exactness -/

/-- `Exact` holds of a read of nothing, by `Spells.pure` and `Starves.nil`. -/
theorem Exact.pure (value : α) : Exact (Pure.pure value) := by
  intro r v r' h
  obtain ⟨rfl, rfl⟩ := pure_eq_ok_iff.mp h
  exact ⟨[], List.nil_prefix, rfl, .pure value, .nil _⟩

/-- A `throw` gives nothing that would have to be spelled, so it is exact. -/
theorem Exact.throw (e : DecodeError) : Exact (throw e : Read α) :=
  fun _ _ _ h => absurd h throw_ne_ok

/-- `Exact` goes through a sequence of reads. -/
theorem Exact.bind {x : Read α} {f : α → Read β} (hx : Exact x) (hf : ∀ v, Exact (f v)) :
    Exact (x >>= f) := by
  intro r w r' h
  obtain ⟨v, s, h₁, h₂⟩ := bind_eq_ok_iff.mp h
  obtain ⟨first, hp₁, rfl, hs₁, ht₁⟩ := hx _ _ _ h₁
  obtain ⟨second, hp₂, rfl, hs₂, ht₂⟩ := hf _ _ _ _ h₂
  refine ⟨first ++ second, ?_, ?_, hs₁.bind hs₂, Starves.bind hs₁ ht₁ ht₂⟩
  · exact Reader.append_isPrefix hp₁ hp₂
  · rw [Reader.skip_skip, List.length_append]

theorem Exact.map {x : Read α} (g : α → β) (hx : Exact x) : Exact (g <$> x) := by
  intro r w r' h
  obtain ⟨v, hv, rfl⟩ := map_eq_ok_iff.mp h
  obtain ⟨bytes, hp, rfl, hs, ht⟩ := hx _ _ _ hv
  exact ⟨bytes, hp, rfl, hs.map g, ht.map g⟩

/-- A read that is `Exact` starves within any bytes that spell a value for it. -/
theorem Exact.starves {x : Read α} {bytes : Bytes} {v : α} (hx : Exact x)
    (hs : Spells format x bytes v) : Starves format x bytes := by
  let r : Reader := ⟨.ofBytes 0 bytes, format, ""⟩
  have hrun : x r = .ok v (r.skip bytes.length) := hs r rfl List.prefix_rfl
  obtain ⟨taken, hp, hskip, -, ht⟩ := hx _ _ _ hrun
  have hlen : bytes.length = taken.length := by
    have := congrArg Reader.consumed hskip
    simpa using this
  rwa [List.IsPrefix.eq_of_length hp hlen.symm] at ht

/-- A read that goes by the reader's format is exact if what it does in each format
is. -/
theorem Exact.of_format {x : Read α}
    (h : ∀ format, ∃ y : Read α, Exact y ∧ ∀ r : Reader, r.format = format → x r = y r) :
    Exact x := by
  intro r v r' hx
  obtain ⟨y, hy, hxy⟩ := h r.format
  rw [hxy r rfl] at hx
  obtain ⟨bytes, hp, rfl, hs, ht⟩ := hy r v r' hx
  refine ⟨bytes, hp, rfl, fun t hr hpt => ?_, fun t hr hpt hlt => ?_⟩
  · rw [hxy t hr]
    exact hs t hr hpt
  · rw [hxy t hr]
    exact ht t hr hpt hlt

end Read

end BinaryAst
