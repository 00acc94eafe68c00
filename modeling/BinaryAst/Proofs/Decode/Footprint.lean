import Mathlib.Algebra.Order.BigOperators.Group.List
import Mathlib.Algebra.Order.Group.Nat
import BinaryAst.Proofs.Decode.Decoders
import BinaryAst.Proofs.Size
import BinaryAst.Proofs.Wire.Cost
/-!
# BinaryAst.Proofs.Decode.Footprint

What is decoded is no larger than the bytes that it is decoded from.

A value pays for itself with a byte of its own: a tag, a length, a reference or a scalar.
Whatever stream that byte is in, the log of the value takes it, and no other part of the log
does. So the size of a value is at most the number of bytes that its log takes
(`Encodes.size_le`), and decoding brings a state nearer to its end by as much
(`Recognises.remaining_add_le`).
-/

namespace BinaryAst.Decode

/-! ### The bytes of a log -/

namespace Log

/-- Number of bytes that are taken, from whatever stream. -/
def size : Log → Nat
  | [] => 0
  | .take _ bytes :: log => bytes.length + size log
  | .tell _ :: log => size log

@[simp] theorem size_nil : size [] = 0 := rfl

@[simp] theorem size_take (lane : Lane) (bytes : Bytes) (log : Log) :
    size (.take lane bytes :: log) = bytes.length + log.size := rfl

@[simp] theorem size_tell (event : Event) (log : Log) : size (.tell event :: log) = log.size := rfl

@[simp] theorem size_append (log more : Log) : size (log ++ more) = log.size + more.size := by
  induction log with
  | nil => simp
  | cons act log ih =>
      cases act with
      | take lane bytes => simp [ih, Nat.add_assoc]
      | tell event => simp [ih]

/-- A `take` counts for its own lane, and for no other. -/
theorem length_taken_cons (lane from_ : Lane) (bytes : Bytes) (log : Log) :
    (taken lane (.take from_ bytes :: log)).length =
      (if from_ = lane then bytes.length else 0) + (taken lane log).length := by
  rw [taken]
  split <;> simp

/-- Where all lanes that a log takes from are among `lanes`, what is `taken` from them adds up to
its `size` at least. -/
theorem size_le_sum {log : Log} {lanes : List Lane}
    (h : ∀ lane, lane ∉ lanes → log.taken lane = []) :
    log.size ≤ (lanes.map fun lane => (log.taken lane).length).sum := by
  induction log with
  | nil => exact Nat.zero_le _
  | cons act log ih =>
      cases act with
      | tell event => exact ih h
      | take from_ bytes =>
          have hnone : ∀ lane, lane ∉ lanes →
              (if from_ = lane then bytes.length else 0) = 0 ∧ taken lane log = [] := by
            intro lane hlane
            have hlen := length_taken_cons lane from_ bytes log
            rw [h lane hlane, List.length_nil] at hlen
            obtain ⟨hfirst, hrest⟩ := Nat.add_eq_zero_iff.mp hlen.symm
            exact ⟨hfirst, List.length_eq_zero_iff.mp hrest⟩
          have hfirst : bytes.length ≤
              (lanes.map fun lane => if from_ = lane then bytes.length else 0).sum := by
            by_cases hmem : from_ ∈ lanes
            · exact List.le_sum_of_mem (List.mem_map.mpr ⟨from_, hmem, if_pos rfl⟩)
            · have hzero := (hnone from_ hmem).1
              rw [if_pos rfl] at hzero
              omega
          simp only [length_taken_cons, List.sum_map_add]
          exact Nat.add_le_add hfirst (ih fun lane hlane => (hnone lane hlane).2)

end Log

variable {site : Site}

/-! ### Tags, references and scalars -/

/-- `SpellsIndex` spells no index by nothing. -/
theorem Site.SpellsIndex.length_pos {bytes : Bytes} {index : Option Nat}
    (h : site.SpellsIndex bytes index) : 0 < bytes.length := Read.costs_index.le_length h

/-- The log of a `TypeTag` takes a byte at least. -/
theorem Site.TypeTag.size_pos {source : Lane} {tag : String} {log : Log}
    (h : site.TypeTag source tag log) : 0 < log.size := by
  cases h with
  | intro hindex => exact hindex.length_pos

theorem Site.PlainReference.size_pos {source : Lane} {reference : Reference} {log : Log}
    (h : site.PlainReference source reference log) : 0 < log.size := by
  cases h with
  | intro hindex => exact hindex.length_pos

/-- `EncodesReference` takes a byte, from the stream of flags or of packed indices if not from its
own. -/
theorem Site.EncodesReference.size_pos {source : Lane} {viaAny : Bool} {reference : Reference}
    {log : Log} (h : site.EncodesReference source viaAny reference log) : 0 < log.size := by
  unfold Site.EncodesReference at h
  split at h
  case isTrue => exact h.size_pos
  case isFalse =>
    split at h
    case h_1 => exact h.size_pos
    case h_2 =>
      cases h with
      | null => exact Nat.one_pos
      | plain | inline => exact Nat.add_pos_left Nat.one_pos _
    case h_3 =>
      cases h with
      | null hindex | inline hindex | slot hindex => exact hindex.length_pos

/-- The `size` of a scalar is at most the number of bytes that spell it. -/
theorem Site.SpellsScalar.size_le {kind : Tag.Kind} {value : Value} {bytes : Bytes}
    (h : site.SpellsScalar kind value bytes) : value.size ≤ bytes.length := by
  cases h with
  | symbol h =>
      cases h with
      | @interned _ index _ h =>
          have := h.length_pos
          cases index <;> exact this
      | @text _ text _ h =>
          have := Read.costs_string.le_length h
          cases text <;> exact this
  | @string _ text h =>
      have := Read.costs_string.le_length h
      cases text <;> exact this
  | boolean h => exact Read.costs_byte.le_length h
  | integer h => exact (Nat.le_of_ble_eq_true rfl).trans (Read.costs_int32.le_length h)
  | double h => exact (Nat.le_of_ble_eq_true rfl).trans (Read.costs_binary64.le_length h)

/-! ### Values

By recursion on the derivation, with one case for each rule. -/

mutual

/-- The `size` of a value is at most that of its log. What brings its tag pays for itself even
without the tag. -/
theorem Encodes.size_le : ∀ {source : Lane} {tag : String} {value : Value} {log : Log},
    Encodes site source tag value log → value.size ≤ log.size
  | _, _, _, _, .any _ _ hvalue => by
      rw [Log.size_append]
      exact (EncodesAs.size_le hvalue).trans (Nat.le_add_left _ _)
  | _, _, _, _, .declared _ hvalue => EncodesAs.size_le hvalue

theorem EncodesAs.size_le : ∀ {viaAny : Bool} {source : Lane} {tag : String} {value : Value}
    {log : Log}, EncodesAs site viaAny source tag value log → value.size ≤ log.size
  | _, _, _, _, _, .scalar hscalar => hscalar.size_le
  | _, _, _, _, _, .emptyArray _ hlength => Read.costs_varUInt32.le_length hlength
  | _, _, _, _, _, .array _ _ hlength _ hitems => by
      have hown := Read.costs_varUInt32.le_length hlength
      have hrest := EncodesItems.size_le hitems
      rw [Log.size_take, Log.size_append, Value.size]
      omega
  | _, _, _, _, _, .null _ hreference => hreference.size_pos
  | _, _, _, _, _, .ref _ hreference _ => hreference.size_pos
  | _, _, _, _, _, .inline _ hreference _ _ hfields => by
      have hown := hreference.size_pos
      have hrest := EncodesFields.size_le hfields
      rw [Log.size_append, Log.size_tell, Value.size]
      omega

/-- However many items an array has, the log of `EncodesItems` pays for each of them. -/
theorem EncodesItems.size_le : ∀ {source : Lane} {tag : String} {items : List Value} {log : Log},
    EncodesItems site source tag items log → Value.sizeOfItems items ≤ log.size
  | _, _, _, _, .nil => Nat.le_refl _
  | _, _, _, _, .cons hitem hitems => by
      rw [Log.size_append]
      exact Nat.add_le_add (Encodes.size_le hitem) (EncodesItems.size_le hitems)

theorem EncodesFields.size_le : ∀ {active : Lane} {pinned : Bool} {shape : String}
    {decls : List FieldDecl} {fields : List (Field Value)} {log : Log},
    EncodesFields site active pinned shape decls fields log →
      Value.sizeOfFields fields ≤ log.size
  | _, _, _, _, _, _, .nil => Nat.le_refl _
  | _, _, _, _, _, _, .cons _ hvalue hfields => by
      rw [Log.size_tell, Log.size_append]
      exact Nat.add_le_add (Encodes.size_le hvalue) (EncodesFields.size_le hfields)

end

/-! ### Sections -/

/-- The log of `EncodesObject` pays for the object by its tag, also when its shape has no fields. -/
theorem EncodesObject.size_le {object : ObjectValue} {log : Log}
    (h : EncodesObject site object log) : object.size ≤ log.size := by
  cases h with
  | intro htag _ hfields =>
      rw [Log.size_append]
      exact Nat.add_le_add htag.size_pos hfields.size_le

theorem EncodesSlots.size_le {slot : Nat} {objects : List ObjectValue} {log : Log}
    (h : EncodesSlots site slot objects log) : (objects.map Object.size).sum ≤ log.size := by
  induction h with
  | nil => exact Nat.le_refl _
  | cons hobject _ ih =>
      rw [Log.size_append, Log.size_tell, List.map_cons, List.sum_cons]
      exact Nat.add_le_add hobject.size_le ih

/-- The objects of `EncodesTable` are no larger together than the log of the table. -/
theorem EncodesTable.size_le {objects : List ObjectValue} {log : Log}
    (h : EncodesTable site objects log) : (objects.map Object.size).sum ≤ log.size := by
  cases h with
  | intro _ _ hslots => exact hslots.size_le.trans (Nat.le_add_left _ _)

theorem EncodesRoot.size_le {value : Value} {log : Log} (h : EncodesRoot site value log) :
    value.size ≤ log.size := by
  cases h with
  | intro hvalue => exact hvalue.size_le

/-! ### Bytes ahead -/

/-- The streams that go on through both sections, where there are `n` value streams. -/
def sharedLanes (n : Nat) : List Lane :=
  [.inlining, .typeTags, .packedIndices] ++ (List.range n).map .values

namespace State

variable {n : Nat}

/-- The streams that a container with `n` value streams may have. -/
def lanes (n : Nat) : List Lane := .own :: sharedLanes n

/-- Number of bytes ahead in all streams together. -/
def remaining (s : State n) : Nat := ((lanes n).map fun lane => (s.ahead lane).length).sum

/-- A stream that is not among `State.lanes` is a value stream that the container does not have. -/
theorem exists_values_of_not_mem {lane : Lane} (h : lane ∉ lanes n) :
    ∃ i, lane = .values i ∧ n ≤ i := by
  cases lane with
  | own | inlining | typeTags | packedIndices => simp [lanes, sharedLanes] at h
  | values i => exact ⟨i, rfl, by simpa [lanes, sharedLanes] using h⟩

/-- Nothing is `ahead` in a lane that the container does not have. -/
theorem ahead_eq_nil {s : State n} {lane : Lane} (h : lane ∉ lanes n) : s.ahead lane = [] := by
  obtain ⟨i, rfl, hi⟩ := exists_values_of_not_mem h
  simp [ahead, lane?, Nat.not_lt.mpr hi]

/-- What a log takes is no longer `remaining` after it. -/
theorem remaining_after {s : State n} {log : Log} (h : s.Covers log) :
    log.size + (s.after log).remaining ≤ s.remaining := by
  have hsize : log.size ≤ ((lanes n).map fun lane => (log.taken lane).length).sum :=
    Log.size_le_sum fun lane hlane => List.prefix_nil.mp (ahead_eq_nil hlane ▸ h lane)
  have hlane : ∀ lane, (s.ahead lane).length =
      (log.taken lane).length + ((s.after log).ahead lane).length := by
    intro lane
    have := (h lane).length_le
    rw [ahead_after, List.length_drop]
    omega
  calc log.size + (s.after log).remaining
      ≤ ((lanes n).map fun lane => (log.taken lane).length).sum + (s.after log).remaining :=
        Nat.add_le_add_right hsize _
    _ = s.remaining := by simp only [remaining, hlane, List.sum_map_add]

end State

variable {n : Nat} {s t : State n}

/-- A step that `Recognises` a language pays for what it gives if the logs of the language do:
`size` and what is `remaining` add up to no more than before. -/
theorem Recognises.remaining_add_le {α : Type} {step : Step n α} {language : Language α}
    (hstep : Recognises site step language) {size : α → Nat}
    (hsize : ∀ v log, language v log → size v ≤ log.size) (hs : s.Fits site) {v : α}
    (h : step s = .ok v t) : size v + t.remaining ≤ s.remaining := by
  obtain ⟨log, hlog, hcovers, rfl⟩ := (hstep s v t hs).mp h
  exact (Nat.add_le_add_right (hsize v log hlog) _).trans (State.remaining_after hcovers)

end BinaryAst.Decode
