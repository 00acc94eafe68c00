import Mathlib.Tactic.Tauto
import BinaryAst.Value
/-!
# BinaryAst.Proofs.Nesting

How deeply a value nests, and how long its arrays are (`Value.Within`).

An object and a non-empty array count one level around what they hold; every other value, the
empty array and a reference among them, counts none.
-/

namespace BinaryAst

namespace Value

mutual

/-- How many objects and non-empty arrays lie around the innermost value. -/
def depth : Value → Nat
  | .array [] => 0
  | .array (item :: items) => 1 + max item.depth (depthOfItems items)
  | .inline ⟨_, fields⟩ => 1 + depthOfFields fields
  | _ => 0

/-- The largest depth among some values. -/
def depthOfItems : List Value → Nat
  | [] => 0
  | item :: items => max item.depth (depthOfItems items)

/-- The largest depth among the values of some fields. -/
def depthOfFields : List (Field Value) → Nat
  | [] => 0
  | ⟨_, value⟩ :: fields => max value.depth (depthOfFields fields)

end

mutual

/-- Length of the longest array. -/
def longest : Value → Nat
  | .array items => max items.length (longestOfItems items)
  | .inline ⟨_, fields⟩ => longestOfFields fields
  | _ => 0

/-- Length of the longest array in some values. -/
def longestOfItems : List Value → Nat
  | [] => 0
  | item :: items => max item.longest (longestOfItems items)

/-- Length of the longest array in the values of some fields. -/
def longestOfFields : List (Field Value) → Nat
  | [] => 0
  | ⟨_, value⟩ :: fields => max value.longest (longestOfFields fields)

end

/-- The value nests no deeper than `levels`, and no array is longer than `length`. -/
def Within (levels length : Nat) (value : Value) : Prop :=
  value.depth ≤ levels ∧ value.longest ≤ length

instance (levels length : Nat) (value : Value) : Decidable (value.Within levels length) :=
  inferInstanceAs (Decidable (_ ∧ _))

/-- Every value keeps within the bounds. -/
def ItemsWithin (levels length : Nat) (items : List Value) : Prop :=
  depthOfItems items ≤ levels ∧ longestOfItems items ≤ length

/-- The value of every field keeps within the bounds. -/
def FieldsWithin (levels length : Nat) (fields : List (Field Value)) : Prop :=
  depthOfFields fields ≤ levels ∧ longestOfFields fields ≤ length

variable {levels length : Nat}

theorem itemsWithin_nil : ItemsWithin levels length [] :=
  ⟨Nat.zero_le _, Nat.zero_le _⟩

theorem itemsWithin_cons {item : Value} {items : List Value} :
    ItemsWithin levels length (item :: items) ↔
      item.Within levels length ∧ ItemsWithin levels length items := by
  simp only [ItemsWithin, Within, depthOfItems, longestOfItems, Nat.max_le]
  tauto

theorem fieldsWithin_nil : FieldsWithin levels length [] :=
  ⟨Nat.zero_le _, Nat.zero_le _⟩

theorem fieldsWithin_cons {field : Field Value} {fields : List (Field Value)} :
    FieldsWithin levels length (field :: fields) ↔
      field.value.Within levels length ∧ FieldsWithin levels length fields := by
  simp only [FieldsWithin, Within, depthOfFields, longestOfFields, Nat.max_le]
  tauto

theorem within_array_nil : (Value.array []).Within levels length := by
  simp [Within, depth, longest, longestOfItems]

/-- An array is `Within` some levels if its items are within one less, unless it is empty. -/
theorem within_array_iff {items : List Value} (hne : items ≠ []) :
    (Value.array items).Within levels length ↔
      items.length ≤ length ∧ ∃ inner, levels = inner + 1 ∧ ItemsWithin inner length items := by
  cases items with
  | nil => exact absurd rfl hne
  | cons item items =>
      simp only [Within, ItemsWithin, depth, longest, depthOfItems, Nat.max_le]
      constructor
      · intro h
        rcases h with ⟨hdepth, hlen, hlong⟩
        exact ⟨hlen, levels - 1, by omega, by omega, hlong⟩
      · intro h
        rcases h with ⟨hlen, inner, rfl, hdepth, hlong⟩
        exact ⟨by omega, hlen, hlong⟩

/-- An object is `Within` some levels if its fields are within one less. -/
theorem within_inline_iff {object : ObjectValue} :
    (Value.inline object).Within levels length ↔
      ∃ inner, levels = inner + 1 ∧ FieldsWithin inner length object.fields := by
  simp only [Within, FieldsWithin, depth, longest]
  constructor
  · intro h
    rcases h with ⟨hdepth, hlong⟩
    exact ⟨levels - 1, by omega, by omega, hlong⟩
  · intro h
    rcases h with ⟨inner, rfl, hdepth, hlong⟩
    exact ⟨by omega, hlong⟩

end Value

/-- An object in the object table takes a level, as an inline one does. -/
def Object.Within (levels length : Nat) (object : ObjectValue) : Prop :=
  (Value.inline object).Within levels length

instance (levels length : Nat) (object : ObjectValue) : Decidable (object.Within levels length) :=
  inferInstanceAs (Decidable ((Value.inline object).Within levels length))

end BinaryAst
