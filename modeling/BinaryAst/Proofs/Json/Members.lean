import Mathlib.Data.List.Nodup
import BinaryAst.Value.Json
/-!
# BinaryAst.Proofs.Json.Members

What stands under which key in the JSON of an object.

Members are looked up by key, in whatever order they are. Putting one in changes what is under
its own key and nothing else (`Tree.lookup_insert`). So the fields of an object leave, under
each name, the last of them that has it, and the shape comes on top of that
(`Object.member?_toJson`).
-/

namespace BinaryAst

namespace Json.Tree

/-- The member of an object under a key. -/
def member? (key : String) : Tree → Option Tree
  | object members => members.lookup key
  | _ => none

theorem lookup_cons (name other : String) (value : Tree) (members : List (String × Tree)) :
    ((name, value) :: members).lookup other =
      if other = name then some value else members.lookup other := by
  by_cases h : other = name
  · subst h
    simp
  · simp [List.lookup_cons, beq_eq_false_iff_ne.mpr h, h]

/-- `insert` changes what `lookup` finds under its key, and nothing else. -/
theorem lookup_insert (key other : String) (value : Tree) (members : List (String × Tree)) :
    (insert key value members).lookup other =
      if other = key then some value else members.lookup other := by
  induction members with
  | nil => rw [insert, lookup_cons]
  | cons member rest ih =>
      obtain ⟨name, old⟩ := member
      unfold insert
      split
      case isTrue => rw [lookup_cons]
      case isFalse =>
        split
        case isTrue heq =>
          subst heq
          rw [lookup_cons, lookup_cons]
          split <;> rfl
        case isFalse hne =>
          rw [lookup_cons, ih, lookup_cons]
          -- the key is not the name of the member that is passed
          by_cases hkey : other = key
          · subst hkey
            simp [hne]
          · simp [hkey]

end Json.Tree

open Json (Tree)

/-- The value of the last field of a name. -/
def Object.lastField? {α : Type} (object : Object α) (name : String) : Option α :=
  (object.fields.reverse.find? (·.name == name)).map Field.value

/-- Under each name, `fieldsToJson` puts the last field of the name, and else leaves what was there
before. -/
theorem Value.lookup_fieldsToJson (shapeKey name : String) (members : List (String × Tree))
    (fields : List (Field Value)) :
    (fieldsToJson shapeKey members fields).lookup name =
      ((fields.reverse.find? (·.name == name)).map fun field =>
        field.value.toJson shapeKey).or (members.lookup name) := by
  induction fields generalizing members with
  | nil => simp [fieldsToJson]
  | cons field fields ih =>
      obtain ⟨other, value⟩ := field
      rw [fieldsToJson, ih, Tree.lookup_insert, List.reverse_cons, List.find?_append]
      cases fields.reverse.find? (·.name == name) with
      | some last => simp
      | none =>
          by_cases hname : name = other
          · subst hname
            simp
          · simp [hname, Ne.symm hname]

namespace Object

variable {object : ObjectValue} {shapeKey name : String}

/-- In `toJson` of an object the shape is under its key, and under every other name the last field
that has it. -/
theorem member?_toJson (object : ObjectValue) (shapeKey name : String) :
    (object.toJson shapeKey).member? name =
      if name = shapeKey then some (.string object.shape)
      else (object.lastField? name).map (·.toJson shapeKey) := by
  obtain ⟨shape, fields⟩ := object
  rw [toJson, Value.toJson, Tree.member?, Tree.lookup_insert, Value.lookup_fieldsToJson, lastField?,
    Option.map_map]
  simp [Function.comp_def]

theorem exists_of_lastField? {value : Value} (h : object.lastField? name = some value) :
    ∃ field ∈ object.fields, field.name = name ∧ field.value = value := by
  obtain ⟨field, hfind, rfl⟩ := Option.map_eq_some_iff.mp h
  exact ⟨field, List.mem_reverse.mp (List.mem_of_find?_eq_some hfind),
    by simpa using List.find?_some hfind, rfl⟩

theorem exists_of_field? {value : Value} (h : object.field? name = some value) :
    ∃ field ∈ object.fields, field.name = name ∧ field.value = value := by
  obtain ⟨field, hfind, rfl⟩ := Option.map_eq_some_iff.mp h
  exact ⟨field, List.mem_of_find?_eq_some hfind, by simpa using List.find?_some hfind, rfl⟩

theorem isSome_lastField?_iff :
    (object.lastField? name).isSome = true ↔ name ∈ object.fields.map (·.name) := by
  simp [lastField?]

theorem isSome_field?_iff :
    (object.field? name).isSome = true ↔ name ∈ object.fields.map (·.name) := by
  simp [field?]

/-- A name that is there once is that of one field. -/
theorem eq_of_count_eq_one (h : (object.fields.map (·.name)).count name = 1)
    {field other : Field Value} (hfield : field ∈ object.fields) (hother : other ∈ object.fields)
    (hname : field.name = name) (hname' : other.name = name) : field = other := by
  rw [List.count, List.countP_map, List.countP_eq_length_filter, List.length_eq_one_iff] at h
  obtain ⟨only, honly⟩ := h
  have hmem {f : Field Value} (hf : f ∈ object.fields) (hn : f.name = name) : f = only := by
    rw [← List.mem_singleton, ← honly]
    exact List.mem_filter.mpr ⟨hf, by simpa using hn⟩
  exact (hmem hfield hname).trans (hmem hother hname').symm

/-- Where every name is there once, `lastField?` finds each field by its name. -/
theorem lastField?_of_mem (h : (object.fields.map (·.name)).Nodup) {field : Field Value}
    (hfield : field ∈ object.fields) : object.lastField? field.name = some field.value := by
  have hmem : field.name ∈ object.fields.map (·.name) := List.mem_map_of_mem hfield
  obtain ⟨last, hlast⟩ := Option.isSome_iff_exists.mp (isSome_lastField?_iff.mpr hmem)
  obtain ⟨other, hother, hname, rfl⟩ := exists_of_lastField? hlast
  have honce := List.count_eq_one_of_mem h hmem
  rw [hlast, eq_of_count_eq_one honce hother hfield hname rfl]

/-- `field?` and `lastField?`, the first and the last field of a name, are the same where it is
there once. -/
theorem field?_eq_lastField? (h : (object.fields.map (·.name)).count name = 1) :
    object.field? name = object.lastField? name := by
  have hmem : name ∈ object.fields.map (·.name) := List.count_pos_iff.mp (by omega)
  obtain ⟨first, hfirst⟩ := Option.isSome_iff_exists.mp (isSome_field?_iff.mpr hmem)
  obtain ⟨last, hlast⟩ := Option.isSome_iff_exists.mp (isSome_lastField?_iff.mpr hmem)
  obtain ⟨field, hfield, hname, rfl⟩ := exists_of_field? hfirst
  obtain ⟨other, hother, hname', rfl⟩ := exists_of_lastField? hlast
  rw [hfirst, hlast, eq_of_count_eq_one h hfield hother hname hname']

end Object

end BinaryAst
