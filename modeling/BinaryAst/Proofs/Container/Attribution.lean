import BinaryAst.Proofs.Container.Opening
/-!
# BinaryAst.Proofs.Container.Attribution

Which fields a failure is put down to.

An error names the fields that a decoder stood in when it failed. They are the way from an object
of a section down to where it failed: each is declared, each but the last can hold the next, and
each has been told, unless it is the last one and there was no stream to read it from
(`Module.errors_are_attributed`).
-/

namespace BinaryAst

namespace Decode

open Assemble

/-- What the fields are that a failure is put down to, the outermost first, in a run that told
these events. -/
structure Attributed (c : Configuration) (schema : Schema) (limits : Limits)
    (path : List (String × String)) (cause : DecodeError) (events : List Event) : Prop where
  /-- Each names a registered shape and a field of it. -/
  declared : ∀ place ∈ path, ∃ tag, Picks schema place tag
  length_le : path.length ≤ limits.maxDepth
  /-- Without inline objects there is at most one field. -/
  length_le_one : c.conditionalInlining = false → path.length ≤ 1
  /-- In each but the last there may be an object. -/
  nests : ∀ place ∈ path.dropLast, Nests schema place
  /-- Each but the last has been told, from the outermost in. -/
  told : path.dropLast.Sublist (events.filterMap Event.field?)
  /-- So has the last, if there is a stream for it. -/
  told_last : (∀ tag, cause ≠ .missingValueStream tag) →
    path.Sublist (events.filterMap Event.field?)

section

variable {c : Configuration} {schema : Schema} {limits : Limits} {cause : DecodeError}
  {events : List Event}

theorem Attributed.nil : Attributed c schema limits [] cause events where
  declared := by simp
  length_le := Nat.zero_le _
  length_le_one := fun _ => Nat.zero_le _
  nests := by simp
  told := List.nil_sublist _
  told_last := fun _ => List.nil_sublist _

/-- The fields around a standing that is `Nested` are declared (`Picks`), and each but the last can
hold the next (`Nests`). -/
theorem Standing.Nested.attributed {n : Nat} {ctx : Context n} {path : List (String × String)}
    {standing : Standing n} (h : standing.Nested ctx path) :
    (∀ place ∈ path, ∃ tag, Picks ctx.schema place tag) ∧
      ∀ place ∈ path.dropLast, Nests ctx.schema place := by
  cases standing with
  | value | tagged => exact ⟨Around.picks h, Around.nests_dropLast h⟩
  | fields levels host left =>
      obtain ⟨hpath, -, -⟩ := h
      refine ⟨fun place hplace => ?_, fun place hplace => hpath place (path.dropLast_subset hplace)⟩
      obtain ⟨tag, hpicks, -⟩ := hpath place hplace
      exact ⟨tag, hpicks⟩

variable {bytes : Bytes} {o : Opening} {stage : Stage} {own : Reader}
  {path : List (String × String)}

theorem Breaks.attributed (h : Breaks (o.context c schema limits)
    (Enters bytes c schema limits o stage own) path cause events) :
    Attributed c schema limits path cause events := by
  have hopens : ∀ standing s, Enters bytes c schema limits o stage own standing s →
      Opens (o.context c schema limits) standing s := fun _ _ h => h.opens
  cases h with
  | within hreached hearlier =>
      obtain ⟨hdeclared, hnests⟩ := (hreached.nested hopens).attributed
      have htold := (hreached.history hopens).around.trans (hearlier.sublist.filterMap Event.field?)
      have hlength : _ ≤ limits.maxDepth := hreached.length_add_room_le hopens
      exact {
        declared := hdeclared
        length_le := Nat.le_of_add_right_le hlength
        length_le_one := fun hoff => (hreached.length_le_one hoff).1
        nests := hnests
        told := (List.dropLast_sublist _).trans htold
        told_last := fun _ => htold }
  -- The field that has no stream is the innermost of the path, and is not told.
  | @missing path levels host field left s hreached =>
      obtain ⟨hnests, hshape, hleft⟩ := hreached.nested hopens
      have hlength : path.length + (levels + 1) ≤ limits.maxDepth :=
        hreached.length_add_room_le hopens
      have hpicks : Picks schema (host.shape.name, field.name) (schema.fieldTag field) :=
        ⟨host.shape, field, hshape, hleft List.mem_cons_self, rfl, rfl⟩
      exact {
        declared := (Around.last hnests hpicks).picks
        length_le := by
          rw [List.length_append, List.length_singleton]
          omega
        length_le_one := fun hoff => by
          rw [(hreached.length_le_one hoff).2 rfl]
          exact Nat.le_refl _
        nests := by
          rw [List.dropLast_concat]
          exact hnests
        told := by
          rw [List.dropLast_concat]
          exact (hreached.history hopens).around
        told_last := fun hcause => absurd rfl (hcause _) }

end

end Decode

open Decode

namespace Module

variable {bytes : Bytes} {c : Configuration} {schema : Schema} {limits : Limits} {e : DecodeError}

/-- Whatever `decode` fails for, the fields that it is put down to, its `path`, are the way down to
it (`Attributed`). Beneath them there is the `cause`, which is put down to none; and the cause, put
down to them from the innermost out, is the error. -/
theorem errors_are_attributed (h : (decode bytes c schema limits).result = .error e) :
    Attributed c schema limits e.path e.cause (decode bytes c schema limits).events ∧
      (∀ shape field source, e.cause ≠ .field shape field source) ∧
      e.path.foldr (fun place source => .field place.1 place.2 source) e.cause = e := by
  refine ⟨?_, e.cause_ne_field, e.within_path_cause⟩
  rcases (decode_told bytes c schema limits).2 e h with hpath | ⟨o, stage, own, hbreaks⟩
  · rw [hpath]
    exact .nil
  · exact hbreaks.attributed

end Module

/-! ### A tree that ends too soon -/

/-- A tree in the object table with an inline tree in it, whose children are missing. -/
def prunedContainer : Bytes :=
  Sections.toBytes
    { tags := ["Tree"]
      objectCount := 1
      inlining := some [1]
      typeTags := some (WriteStep.bytesAll {} (List.replicate 3 (.index (some 0))))
      objects := WriteStep.bytesAll {} [.uint32 1, .string (some "oak"), .varUInt32 1,
        .string (some "ash")]
      root := [] }

/-- What is told of the container. -/
def prunedEvents : List Event :=
  [.stream "tags" 28 12, .stream "inlining" 60 1, .stream "typeTags" 81 12,
    .stream "objects" 112 22, .tag "typeTags" "Tree", .field "Tree" "label" "objects" false,
    .field "Tree" "children" "objects" false, .tag "typeTags" "Tree", .tag "typeTags" "Tree",
    .inline "Tree" "objects", .field "Tree" "label" "objects" false,
    .field "Tree" "children" "objects" false]

set_option maxRecDepth 20000 in
theorem decode_prunedContainer : Module.decode prunedContainer treeConfiguration treeSchema {} =
    ⟨.error (.field "Tree" "children" (.field "Tree" "children" (.truncated "objects" 134 4 0))),
      prunedEvents⟩ := by
  cbv

/-- In `prunedContainer` the children are missing from the tree in the children of the other. -/
theorem Module.errors_are_attributed_of_prunedContainer :
    decode prunedContainer treeConfiguration treeSchema {} =
        ⟨.error (.field "Tree" "children" (.field "Tree" "children"
          (.truncated "objects" 134 4 0))), prunedEvents⟩ ∧
      Attributed treeConfiguration treeSchema {} [("Tree", "children"), ("Tree", "children")]
        (.truncated "objects" 134 4 0) prunedEvents := by
  have hattributed := (errors_are_attributed (congrArg Decoding.result decode_prunedContainer)).1
  rw [decode_prunedContainer] at hattributed
  exact ⟨decode_prunedContainer, hattributed⟩

end BinaryAst
