import Mathlib.Algebra.GroupWithZero.Nat
import BinaryAst.Module
/-!
# BinaryAst.Proofs.Size

How large a decoded module is (`Module.size`).

Every object of the object table, every value and every tag counts one, and every text counts
its length in UTF-8 besides. An inline object and the value that holds it count one together;
the items of arrays and the values of fields all count.
-/

namespace BinaryAst

mutual

/-- The values that a value is made of, itself among them, and the length of their texts. -/
def Value.size : Value → Nat
  | .string text | .symbol text => 1 + text.utf8ByteSize
  | .array items => 1 + sizeOfItems items
  | .inline ⟨_, fields⟩ => 1 + sizeOfFields fields
  | _ => 1

/-- The size of some values. -/
def Value.sizeOfItems : List Value → Nat
  | [] => 0
  | item :: items => item.size + sizeOfItems items

/-- The size of the values of some fields. -/
def Value.sizeOfFields : List (Field Value) → Nat
  | [] => 0
  | ⟨_, value⟩ :: fields => value.size + sizeOfFields fields

end

theorem Value.size_pos (value : Value) : 0 < value.size := by
  unfold size
  split <;> omega

/-- The size of an object: one, and that of the values of its fields. -/
def Object.size (object : ObjectValue) : Nat := 1 + Value.sizeOfFields object.fields

theorem Object.size_pos (object : ObjectValue) : 0 < object.size :=
  Nat.add_pos_left Nat.one_pos _

namespace Module

/-- The size of a tag table. -/
def sizeOfTags (tags : List String) : Nat := (tags.map fun tag => 1 + tag.utf8ByteSize).sum

/-- The size of a module: its objects, its root and its tags. -/
def size (m : Module) : Nat := (m.objects.map Object.size).sum + m.root.size + sizeOfTags m.tags

/-- The bytes that were read of all streams. -/
def consumed (m : Module) : Nat := (m.streams.map StreamUse.consumed).sum

end Module

end BinaryAst
