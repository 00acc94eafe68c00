import BinaryAst.Configuration
import BinaryAst.Value
import BinaryAst.Wire.Header
/-!
# BinaryAst.Module

A decoded module: the tag table, the object table, the root value, and how much
of each substream was read.
-/

namespace BinaryAst

/-- Where a substream lies, and how far it was read. -/
structure StreamUse where
  description : String
  /-- Absolute offset of the payload. -/
  offset : Nat
  /-- Length of the payload. -/
  length : Nat
  /-- Number of bytes of the payload that were read. -/
  consumed : Nat
  deriving DecidableEq, Repr

namespace StreamUse

/-- The summary of a reader that is done with. -/
def ofReader (r : Reader) : StreamUse := ⟨r.description, r.base, r.length, r.consumed⟩

/-- Number of bytes that were not read. -/
def leftover (s : StreamUse) : Nat := s.length - s.consumed

end StreamUse

/-- A decoded module. -/
structure Module where
  configuration : Configuration
  header : Header
  /-- The tag table. -/
  tags : List String
  /-- The objects in the order of their slots. -/
  objects : List ObjectValue
  root : Value
  /-- All substreams in the order in which the container holds them. -/
  streams : List StreamUse
  deriving Repr

namespace Module

/-- The object of a slot. -/
def object? (m : Module) (slot : Nat) : Option ObjectValue := m.objects[slot]?

/-- The object that a value refers to or holds. -/
def resolve (m : Module) : Value → Option ObjectValue
  | .ref slot => m.object? slot
  | .inline object => some object
  | _ => none

end Module

end BinaryAst
