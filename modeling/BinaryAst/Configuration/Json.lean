import BinaryAst.Configuration
import BinaryAst.Json.Parse
/-!
# BinaryAst.Configuration.Json

Configurations written in JSON: an object that gives flags by name, or an array
that gives them in order. A flag that is not given is off.
-/

namespace BinaryAst.Configuration

open BinaryAst.Json (Parse)
open BinaryAst.Json.Parse (boolean colon hasItem record run)

/-- The flags of an array, in order, as far as it goes. -/
def flagsInOrder (c : Configuration) : (first : Bool) → List Flag → Parse Configuration
  | _, [] => pure c
  | first, flag :: flags => do
    if ← hasItem first then
      (c.set flag (← boolean)).flagsInOrder false flags
    else
      pure c

/-- A configuration under way, and the flags given so far. -/
structure Draft where
  configuration : Configuration := {}
  given : List Flag := []

/-- Takes up a flag by name; it must be known and not given before. -/
def Draft.member (draft : Draft) (name : String) : Parse Draft := do
  match Flag.ofName? name with
  | none => throw .unexpected
  | some flag =>
    if flag ∈ draft.given then
      throw .unexpected
    else
      colon
      pure ⟨draft.configuration.set flag (← boolean), flag :: draft.given⟩

/-- The configuration that a JSON text spells. -/
def ofJson (text : String) : Except DecodeError Configuration :=
  let value := record (({} : Configuration).flagsInOrder true Flag.all) Draft.member {}
    fun draft => pure draft.configuration
  match run value text with
  | .ok c => .ok c
  | .error fault => .error (.invalidJson fault)

end BinaryAst.Configuration
