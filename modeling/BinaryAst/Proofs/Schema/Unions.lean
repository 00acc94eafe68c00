import BinaryAst.Proofs.Schema.Registration
/-!
# BinaryAst.Proofs.Schema.Unions

Which tag a union is encoded with, whoever wrote its members down and in whatever order.

The members that can have a value decide on the tag by their number and by whether all of them
are shapes (`FieldType.Resolves`). Neither changes with their order, and shapes that are added
to a registry can only turn a union that was mixed into one of shapes. So two sides whose schemas
list the members in different orders read and write the same (`FieldType.wireTag_union`).
-/

namespace BinaryAst

/-! ### Registries -/

/-- Shapes by name, in whatever way they are kept. -/
def Registry := String → Option Shape

namespace Registry

variable {r larger : Registry} {name : String}

/-- A shape of this name is registered. -/
def contains (r : Registry) (name : String) : Bool := (r name).isSome

/-- All shapes of the first registry are in the second, under the same names. -/
def Within (r larger : Registry) : Prop :=
  ∀ name shape, r name = some shape → larger name = some shape

theorem Within.contains (h : r.Within larger) (hname : r.contains name = true) :
    larger.contains name = true := by
  obtain ⟨shape, hshape⟩ := Option.isSome_iff_exists.mp hname
  exact Option.isSome_of_eq_some (h name shape hshape)

theorem contains_eq_false_iff : r.contains name = false ↔ r name = none :=
  Option.isSome_eq_false_iff.trans Option.isNone_iff_eq_none

end Registry

namespace Schema

/-- The shapes of a schema, by name. -/
def registry (s : Schema) : Registry := s.shape?

/-- `Schema.fieldTag` is `wireTag` by the `registry` of the schema. -/
theorem fieldTag_eq (s : Schema) (field : FieldDecl) :
    s.fieldTag field = field.type.wireTag s.registry.contains := rfl

/-- Whatever `performAll` does to a schema, its names go on to stand for the shapes that they stood
for (`Within`). -/
theorem within_performAll (s : Schema) (ops : List Op) :
    s.registry.Within (s.performAll ops).2.registry := by
  intro name shape h
  have hfirst : s.shapes.find? (·.name == name) = some shape := h
  rw [registry, shape?_performAll, List.find?_append, hfirst, Option.some_or]

end Schema

/-! ### Candidates -/

namespace FieldType

variable {isShape wider : String → Bool} {members others names : List String} {name tag : String}

theorem mem_candidates_iff : name ∈ candidates members ↔ name ∈ members ∧ name ≠ Tag.null := by
  simp [candidates]

/-- How the candidates of a union decide on its tag. -/
inductive Resolves (isShape : String → Bool) : List String → String → Prop
  | nothing : Resolves isShape [] Tag.any
  | only (name : String) : Resolves isShape [name] name
  | shapes {names : List String} (hseveral : 2 ≤ names.length)
      (hall : ∀ name ∈ names, isShape name = true) : Resolves isShape names Tag.object
  | mixed {names : List String} (hseveral : 2 ≤ names.length)
      (hother : ∃ name ∈ names, isShape name = false) : Resolves isShape names Tag.any

theorem resolves_wireTag (isShape : String → Bool) (members : List String) :
    Resolves isShape (candidates members) (wireTag isShape (.union members)) := by
  rw [wireTag]
  split
  case h_1 hnil => exact hnil ▸ .nothing
  case h_2 only honly => exact honly ▸ .only only
  case h_3 several hnil honly =>
    have hseveral : 2 ≤ (candidates members).length := by
      match hnames : candidates members with
      | [] => exact absurd hnames hnil
      | [only] => exact absurd hnames (honly only)
      | _ :: _ :: _ => simp
    split
    case isTrue hall => exact .shapes hseveral (List.all_eq_true.mp hall)
    case isFalse hother => exact .mixed hseveral (by simpa using hother)

namespace Resolves

theorem perm (h : Resolves isShape names tag) (hperm : names.Perm others) :
    Resolves isShape others tag := by
  cases h with
  | nothing =>
      obtain rfl := List.perm_nil.mp hperm.symm
      exact .nothing
  | only =>
      obtain rfl := List.perm_singleton.mp hperm.symm
      exact .only tag
  | shapes hseveral hall =>
      exact .shapes (hperm.length_eq ▸ hseveral) fun name hmem =>
        hall name (hperm.mem_iff.mpr hmem)
  | mixed hseveral hother =>
      obtain ⟨name, hmem, hname⟩ := hother
      exact .mixed (hperm.length_eq ▸ hseveral) ⟨name, hperm.mem_iff.mp hmem, hname⟩

/-- Candidates that are more than one resolve to `object` if all of them are shapes, and else to
`any`. -/
theorem of_several (h : Resolves isShape names tag) (hseveral : 2 ≤ names.length) :
    (tag = Tag.object ↔ ∀ name ∈ names, isShape name = true) ∧
      (tag = Tag.any ↔ ∃ name ∈ names, isShape name = false) := by
  have hne : Tag.object ≠ Tag.any := by decide
  cases h with
  | nothing | only => simp at hseveral
  | shapes _ hall =>
      refine ⟨iff_of_true rfl hall, iff_of_false hne ?_⟩
      rintro ⟨name, hmem, hname⟩
      rw [hall name hmem] at hname
      cases hname
  | mixed _ hother =>
      refine ⟨iff_of_false hne.symm fun hall => ?_, iff_of_true rfl hother⟩
      obtain ⟨name, hmem, hname⟩ := hother
      rw [hall name hmem] at hname
      cases hname

theorem unique {other : String} (h : Resolves isShape names tag)
    (hother : Resolves isShape names other) : tag = other := by
  cases h with
  | nothing =>
      cases hother with
      | nothing => rfl
      | shapes hseveral | mixed hseveral => simp at hseveral
  | only =>
      cases hother with
      | only => rfl
      | shapes hseveral | mixed hseveral => simp at hseveral
  | shapes hseveral hall => exact ((hother.of_several hseveral).1.mpr hall).symm
  | mixed hseveral hmixed => exact ((hother.of_several hseveral).2.mpr hmixed).symm

/-- With more shapes, candidates that were mixed can come to be all shapes, and `Resolves` changes
in nothing else. -/
theorem widen (h : Resolves isShape names tag)
    (hwider : ∀ name, isShape name = true → wider name = true) :
    Resolves wider names tag ∨ tag = Tag.any ∧ Resolves wider names Tag.object := by
  cases h with
  | nothing => exact .inl .nothing
  | only => exact .inl (.only tag)
  | shapes hseveral hall =>
      exact .inl (.shapes hseveral fun name hmem => hwider name (hall name hmem))
  | mixed hseveral =>
      by_cases hall : ∀ name ∈ names, wider name = true
      · exact .inr ⟨rfl, .shapes hseveral hall⟩
      · exact .inl (.mixed hseveral (by simpa using hall))

end Resolves

/-! ### Unions -/

/-- The two lists have the same members, each as often, but for the absent value. -/
def SameMembers (members others : List String) : Prop :=
  ∃ added dropped, (members ++ List.replicate added Tag.null).Perm
    (others ++ List.replicate dropped Tag.null)

theorem candidates_append_replicate (members : List String) (count : Nat) :
    candidates (members ++ List.replicate count Tag.null) = candidates members := by
  simp [candidates]

theorem SameMembers.candidates_perm (h : SameMembers members others) :
    (candidates members).Perm (candidates others) := by
  obtain ⟨added, dropped, hperm⟩ := h
  rw [← candidates_append_replicate members added, ← candidates_append_replicate others dropped]
  exact hperm.filter _

/-- A union has the same tag however its members are ordered and however often the absent value
is among them. Shapes that are added to a registry leave the tag as it is or turn `any` into
`object`. Two or more members that can have a value, a repeated one counted each time, are
`object` if all of them are registered, and `any` if one is not. -/
theorem wireTag_union {r larger : Registry} (hsame : SameMembers members others)
    (hwithin : r.Within larger) :
    wireTag r.contains (.union others) = wireTag r.contains (.union members) ∧
    (wireTag larger.contains (.union members) = wireTag r.contains (.union members) ∨
      wireTag r.contains (.union members) = Tag.any ∧
        wireTag larger.contains (.union members) = Tag.object) ∧
    (2 ≤ members.countP (· != Tag.null) →
      (wireTag r.contains (.union members) = Tag.object ↔
        ∀ member ∈ members, member ≠ Tag.null → ∃ shape, r member = some shape) ∧
      (wireTag r.contains (.union members) = Tag.any ↔
        ∃ member ∈ members, member ≠ Tag.null ∧ r member = none)) := by
  have hmembers := resolves_wireTag r.contains members
  have hothers := resolves_wireTag r.contains others
  have hlarger := resolves_wireTag larger.contains members
  refine ⟨hothers.unique (hmembers.perm hsame.candidates_perm), ?_, fun hseveral => ?_⟩
  · obtain hkept | ⟨hany, hobject⟩ := hmembers.widen fun _ => hwithin.contains
    · exact .inl (hlarger.unique hkept)
    · exact .inr ⟨hany, hlarger.unique hobject⟩
  · rw [List.countP_eq_length_filter] at hseveral
    obtain ⟨hshapes, hmixed⟩ := hmembers.of_several hseveral
    refine ⟨hshapes.trans ?_, hmixed.trans ?_⟩
    · simp only [mem_candidates_iff, and_imp, Registry.contains, Option.isSome_iff_exists]
    · simp only [mem_candidates_iff, Registry.contains_eq_false_iff, and_assoc]

/-- A schema that has leaves and no nodes. -/
def leafSchema : Schema where
  shapes := [⟨"Leaf", []⟩]
  nodup := by decide
  shapeKey := "type"

/-- In `leafSchema`, leaves and nodes, listed in two orders, before and after there is a shape for
nodes. -/
theorem wireTag_union_of_leafSchema :
    (SameMembers ["Leaf", "null", "Node", "Leaf"] ["null", "Node", "Leaf", "null", "Leaf"] ∧
      leafSchema.registry.Within (leafSchema.performAll [.insert ⟨"Node", []⟩]).2.registry ∧
      2 ≤ ["Leaf", "null", "Node", "Leaf"].countP (· != Tag.null)) ∧
    leafSchema.fieldTag ⟨"child", .union ["Leaf", "null", "Node", "Leaf"]⟩ = Tag.any ∧
    leafSchema.fieldTag ⟨"child", .union ["null", "Node", "Leaf", "null", "Leaf"]⟩ = Tag.any ∧
    (leafSchema.performAll [.insert ⟨"Node", []⟩]).2.fieldTag
      ⟨"child", .union ["Leaf", "null", "Node", "Leaf"]⟩ = Tag.object := by
  have hsame : SameMembers ["Leaf", "null", "Node", "Leaf"]
      ["null", "Node", "Leaf", "null", "Leaf"] := ⟨1, 0, by decide⟩
  have hwithin := leafSchema.within_performAll [.insert ⟨"Node", []⟩]
  have hcount : 2 ≤ ["Leaf", "null", "Node", "Leaf"].countP (· != Tag.null) := by decide
  obtain ⟨hothers, hlarger, hseveral⟩ := wireTag_union hsame hwithin
  have hany := (hseveral hcount).2.mpr ⟨"Node", by decide, by decide, rfl⟩
  simp only [Schema.fieldTag_eq]
  refine ⟨⟨hsame, hwithin, hcount⟩, hany, hothers.trans hany, ?_⟩
  obtain hkept | ⟨-, hobject⟩ := hlarger
  · rw [hany] at hkept
    exact absurd hkept (by decide)
  · exact hobject

end FieldType

end BinaryAst
