import BinaryAst.Proofs.Wire.Primitives
/-!
# BinaryAst.Proofs.Wire.Cost

How many bytes a value takes at least.

A read costs `cost` when it never gives a value `v` for fewer than `cost v` bytes. Costs
add up along a program of reads, and bytes that spell a value are as many as it costs.
No read of the format is free, and a text costs its length and one byte more.
-/

namespace BinaryAst.Read

variable {α β : Type} {format : WireFormat}

/-- Whatever the read gives, it has taken as many bytes as `cost` says of the value, or more. -/
def Costs (read : Read α) (cost : α → Nat) : Prop :=
  ∀ r v r', read r = .ok v r' → r.consumed + cost v ≤ r'.consumed

/-- If a read `Costs` so much, bytes that spell a value are as many or more: a reader of just these
bytes is moved on by their number. -/
theorem Costs.le_length {x : Read α} {cost : α → Nat} (hx : Costs x cost) {bytes : Bytes} {v : α}
    (hs : Spells format x bytes v) : cost v ≤ bytes.length := by
  have hrun := hs ⟨.ofBytes 0 bytes, format, ""⟩ rfl List.prefix_rfl
  simpa [Reader.consumed, Cursor.ofBytes, Reader.skip] using hx _ _ _ hrun

/-! ### How costs add up -/

theorem Costs.mono {x : Read α} {cost less : α → Nat} (hx : Costs x cost)
    (hle : ∀ v, less v ≤ cost v) : Costs x less := by
  intro r v r' h
  have := hx r v r' h
  have := hle v
  omega

/-- A value that `pure` gives without a read has to be free. -/
theorem Costs.pure {v : α} {cost : α → Nat} (h : cost v = 0) :
    Costs (Pure.pure v : Read α) cost := by
  intro r w r' hr
  obtain ⟨rfl, rfl⟩ := pure_eq_ok_iff.mp hr
  rw [h]
  exact Nat.le_refl _

/-- A `throw` gives no value, so there is nothing to pay for. -/
theorem Costs.throw (e : DecodeError) (cost : α → Nat) : Costs (throw e : Read α) cost :=
  fun _ _ _ h => absurd h throw_ne_ok

/-- `Costs` is closed under `>>=`: the second step has to pay what the first leaves unpaid. -/
theorem Costs.bind {x : Read α} {f : α → Read β} {first : α → Nat} {cost : β → Nat}
    (hx : Costs x first) (hf : ∀ v, Costs (f v) fun w => cost w - first v) :
    Costs (x >>= f) cost := by
  intro r w r' h
  obtain ⟨v, s, hv, hw⟩ := bind_eq_ok_iff.mp h
  have hfirst := hx _ _ _ hv
  have hsecond := hf v _ _ _ hw
  dsimp only at hsecond
  omega

theorem Costs.map {x : Read α} {g : α → β} {cost : β → Nat} (hx : Costs x fun v => cost (g v)) :
    Costs (g <$> x) cost := by
  intro r w r' h
  obtain ⟨v, hv, rfl⟩ := map_eq_ok_iff.mp h
  exact hx _ _ _ hv

/-- Where every value costs the same, a map changes nothing. -/
theorem Costs.map_const {x : Read α} {least : Nat} (hx : Costs x fun _ => least) (g : α → β) :
    Costs (g <$> x) fun _ => least := Costs.map hx

/-- A look at the reader (`get`) is free. -/
theorem Costs.of_get {x : Reader → Read α} {cost : α → Nat} (h : ∀ r, Costs (x r) cost) :
    Costs (get >>= x) cost := fun r => h r r

/-! ### Primitives -/

/-- `ofCursor` costs what its operation moves the cursor on. -/
theorem costs_ofCursor {need : Nat} {op : Cursor → Option (α × Cursor)} {cost : α → Nat}
    (h : ∀ c v next, op c = some (v, next) → c.pos + cost v ≤ next.pos) :
    Costs (ofCursor need op) cost := by
  intro r v r' hr
  cases hop : op r.cursor with
  | none => simp [ofCursor, hop] at hr
  | some result =>
      obtain ⟨rfl, rfl⟩ : result.1 = v ∧ { r with cursor := result.2 } = r' := by
        simpa [ofCursor, hop] using hr
      exact h _ _ _ hop

theorem costs_byte : Costs byte fun _ => 1 := by
  refine costs_ofCursor fun c v next h => ?_
  obtain ⟨_, -, rfl⟩ := Cursor.read_eq_some_iff.mp h
  exact Nat.le_refl _

/-- `bytes` cost their number. -/
theorem costs_bytes (count : Nat) : Costs (bytes count) List.length := by
  refine costs_ofCursor fun c v next h => ?_
  obtain ⟨_, -, rfl, rfl⟩ := Cursor.take_eq_some_iff.mp h
  exact Nat.le_refl _

theorem costs_unsigned (width : Nat) : Costs (unsigned width) fun _ => width := by
  intro r v r' h
  obtain ⟨taken, htaken, -⟩ := map_eq_ok_iff.mp h
  obtain ⟨-, -, rfl⟩ := bytes_eq_ok_iff.mp htaken
  exact Nat.le_refl _

theorem costs_int32 : Costs int32 fun _ => 4 := (costs_unsigned 4).map_const _

theorem costs_binary64 : Costs binary64 fun _ => 8 := (costs_unsigned 8).map_const _

/-- `overflow` gives no value, so it costs whatever is asked. -/
theorem costs_overflow (start : Nat) (cost : α → Nat) : Costs (overflow start : Read α) cost :=
  .of_get fun _ => .throw _ cost

/-- `unsignedGroups` takes one group at least. -/
theorem costs_unsignedGroups (start left shift sum : Nat) :
    Costs (unsignedGroups start left shift sum) fun _ => 1 := by
  induction left generalizing shift sum with
  | zero => exact costs_overflow start _
  | succ left ih =>
      refine costs_byte.bind fun group => ?_
      dsimp only
      split
      · exact costs_overflow start _
      · split
        · exact (ih _ _).mono fun _ => Nat.zero_le _
        · exact .pure rfl

/-- `varUInt32` takes one byte at least, in each of its layouts. -/
theorem costs_varUInt32 : Costs varUInt32 fun _ => 1 := by
  refine .of_get fun r => ?_
  cases r.format.indexEncoding with
  | leb128 => exact .of_get fun _ => costs_unsignedGroups _ _ _ _
  | fixed24 => exact (costs_unsigned 3).mono fun _ => by decide
  | fixed32 => exact (costs_unsigned 4).mono fun _ => by decide

theorem costs_index : Costs index fun _ => 1 := costs_varUInt32.map_const _

/-! ### Strings -/

/-- What the payload of a string costs, with the byte that frames it. -/
def payloadCost (payload : Option Bytes) : Nat := 1 + (payload.map List.length).getD 0

/-- `prefixedPayload` takes a byte for the length, then its bytes. -/
theorem costs_prefixedPayload : Costs prefixedPayload payloadCost := by
  refine costs_index.bind fun length => ?_
  cases length with
  | none => exact .pure rfl
  | some length => exact ((costs_bytes length).mono fun v => by simp [payloadCost]).map

/-- `terminatedPayload` takes its bytes, then the zero byte; the null string is its marker. -/
theorem costs_terminatedPayload : Costs terminatedPayload payloadCost := by
  refine .of_get fun r => ?_
  split
  case isTrue =>
    have hskip : Costs (skip 1) fun _ => 1 := by
      refine costs_ofCursor fun c v next h => ?_
      obtain ⟨⟨_, _⟩, htake, heq⟩ := Option.map_eq_some_iff.mp h
      obtain ⟨_, -, -, rfl⟩ := Cursor.take_eq_some_iff.mp htake
      cases heq
      exact Nat.le_refl _
    exact hskip.bind fun _ => .pure rfl
  case isFalse =>
    refine Costs.map (costs_ofCursor fun c v next h => ?_)
    obtain ⟨_, -, -, rfl⟩ := Cursor.takeUntilZero_eq_some_iff.mp h
    simp only [payloadCost, Option.map_some, Option.getD_some]
    omega

/-- `stringPayload` takes its bytes and one more, under both framings. -/
theorem costs_stringPayload : Costs stringPayload payloadCost := by
  refine .of_get fun r => ?_
  cases r.format.stringEncoding with
  | lengthPrefixed => exact costs_prefixedPayload
  | nullTerminated => exact costs_terminatedPayload

/-- What a string costs: its text in UTF-8, and a byte for its frame. -/
def textCost (text : Option String) : Nat := 1 + (text.map String.utf8ByteSize).getD 0

theorem length_ofText (text : String) : (Bytes.ofText text).length = text.utf8ByteSize := by
  simp [Bytes.ofText]

/-- `string` takes its text in UTF-8 and one byte more. -/
theorem costs_string : Costs string textCost := by
  refine .of_get fun r => costs_stringPayload.bind fun payload => ?_
  cases payload with
  | none => exact .pure rfl
  | some payload =>
      dsimp only
      split
      case h_1 text htext =>
        rw [Bytes.eq_ofText_of_toText? htext]
        exact .pure (by simp [textCost, payloadCost, length_ofText])
      case h_2 => exact .of_get fun _ => .throw _ _

end BinaryAst.Read
