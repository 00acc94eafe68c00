import BinaryAst.Module
import BinaryAst.Decode.Event
/-!
# BinaryAst.Proofs.Visits

The visit of a module: its table objects in the order of their slots, then its root, each
field before its value.

The visit is read off the values alone. It is what an observer should be told of them,
less the streams, which only the container knows (`Event.visit?`).
-/

namespace BinaryAst

/-- One step of a visit. -/
inductive Visit
  /-- A field comes next. -/
  | field (shape field : String)
  /-- An inline object comes next. -/
  | inline (shape : String)
  /-- The object of a slot is behind. -/
  | slot (index : Nat) (shape : String)
  deriving DecidableEq, Repr

namespace Event

/-- The step of a visit that an event tells of. -/
def visit? : Event → Option Visit
  | .field shape name _ _ => some (.field shape name)
  | .inline shape _ => some (.inline shape)
  | .slot index shape => some (.slot index shape)
  | .stream _ _ _ | .tag _ _ => none

/-- The place of a stream that an event tells of. -/
def stream? : Event → Option (String × Nat × Nat)
  | .stream description offset length => some (description, offset, length)
  | .tag _ _ | .field _ _ _ _ | .inline _ _ | .slot _ _ => none

/-- The event tells of a part of a value. -/
def IsInner : Event → Prop
  | .tag _ _ | .field _ _ _ _ | .inline _ _ => True
  | .stream _ _ _ | .slot _ _ => False

theorem IsInner.stream?_eq_none {event : Event} (h : event.IsInner) : event.stream? = none := by
  cases event with
  | stream => cases h
  | _ => rfl

theorem IsInner.ne_slot {event : Event} (h : event.IsInner) (index : Nat) (shape : String) :
    event ≠ .slot index shape := by
  rintro rfl
  cases h

end Event

/-- The event of opening a stream. -/
def StreamUse.opening (s : StreamUse) : Event := .stream s.description s.offset s.length

theorem StreamUse.visit?_opening (s : StreamUse) : s.opening.visit? = none := rfl

theorem StreamUse.stream?_opening (s : StreamUse) :
    s.opening.stream? = some (s.description, s.offset, s.length) := rfl

mutual

/-- The visit of a value: that of its items, or of its object. -/
def Value.visits : Value → List Visit
  | .array items => visitsOfItems items
  | .inline ⟨shape, fields⟩ => .inline shape :: visitsOfFields shape fields
  | _ => []

/-- The visit of some values, one after the other. -/
def Value.visitsOfItems : List Value → List Visit
  | [] => []
  | item :: items => item.visits ++ visitsOfItems items

/-- The visit of the fields of an object: the name of each, then its value. -/
def Value.visitsOfFields (shape : String) : List (Field Value) → List Visit
  | [] => []
  | ⟨name, value⟩ :: fields => .field shape name :: (value.visits ++ visitsOfFields shape fields)

end

/-- The visit of an object: that of its fields. -/
def Object.visits (object : ObjectValue) : List Visit :=
  Value.visitsOfFields object.shape object.fields

/-- The visit of the objects from a slot on, each followed by its slot. -/
def visitsOfSlots : (slot : Nat) → List ObjectValue → List Visit
  | _, [] => []
  | slot, object :: objects =>
      object.visits ++ .slot slot object.shape :: visitsOfSlots (slot + 1) objects

/-- The visit of a module: the object table, then the root. -/
def Module.visits (m : Module) : List Visit := visitsOfSlots 0 m.objects ++ m.root.visits

end BinaryAst
