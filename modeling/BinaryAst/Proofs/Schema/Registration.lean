import Mathlib.Data.Finset.Card
import BinaryAst.Schema
/-!
# BinaryAst.Proofs.Schema.Registration

What a schema is after shapes were offered to it, some of which it refused.

What an operation can do is said once (`Schema.Steps`): a shape of a new name comes to the end, one
whose name is taken is refused and changes nothing, and another key leaves the shapes alone. So a
name stands for the first shape of that name that was ever offered (`Schema.shape?_performAll`).
Shapes that are registered in one go are refused for the first of them that has the name of an
earlier one (`Schema.ofShapes_eq_error_iff`).
-/

namespace BinaryAst.Schema

variable {s next : Schema} {shape : Shape} {shapes : List Shape} {name : String}
  {refusal : Option DecodeError} {e : DecodeError}

/-- A name is taken exactly if `shape?` finds something under it. -/
theorem mem_names_iff : name ∈ s.shapes.map (·.name) ↔ (s.shape? name).isSome = true :=
  contains_eq_true_iff.symm

/-- `shape?` finds each shape of the schema by its name, since names are pairwise distinct. -/
theorem shape?_of_mem (h : shape ∈ s.shapes) : s.shape? shape.name = some shape := by
  obtain ⟨other, hother⟩ := Option.isSome_iff_exists.mp (mem_names_iff.mp (List.mem_map_of_mem h))
  have hname : other.name = shape.name := by simpa using List.find?_some hother
  rw [hother, List.inj_on_of_nodup_map s.nodup (List.mem_of_find?_eq_some hother) h hname]

/-- `insert` refuses a shape whose name is taken, with `duplicateShape`. -/
theorem insert_of_mem (h : shape.name ∈ s.shapes.map (·.name)) :
    s.insert shape = .error (.duplicateShape shape.name) :=
  insert_eq_error_iff.mpr ⟨h, rfl⟩

/-- `insert` puts a shape of a new name at the end, and keeps the key of the schema. -/
theorem insert_of_notMem (h : shape.name ∉ s.shapes.map (·.name)) :
    ∃ next, s.insert shape = .ok next ∧ next.shapes = s.shapes ++ [shape] ∧
      next.shapeKey = s.shapeKey := by
  have hinsert : s.insert shape = .ok _ := dif_neg h
  exact ⟨_, hinsert, shapes_of_insert hinsert, rfl⟩

/-! ### One operation -/

/-- What can be done to a schema. -/
inductive Op
  | insert (shape : Shape)
  | setShapeKey (key : String)
  deriving DecidableEq, Repr

/-- The shape that an operation offers. -/
def Op.shape? : Op → Option Shape
  | .insert shape => some shape
  | .setShapeKey _ => none

/-- The key that an operation sets. -/
def Op.key? : Op → Option String
  | .insert _ => none
  | .setShapeKey key => some key

variable {op : Op} {ops : List Op}

/-- Performs one operation: why it is refused, if it is, and the schema after it. -/
def perform (s : Schema) : Op → Option DecodeError × Schema
  | .insert shape =>
    match s.insert shape with
    | .ok next => (none, next)
    | .error e => (some e, s)
  | .setShapeKey key => (none, s.setShapeKey key)

/-- What an operation can do, with the reason why it is refused and the schema after it. -/
inductive Steps (s : Schema) : Op → Option DecodeError → Schema → Prop
  | insert {shape : Shape} {next : Schema} (hfresh : shape.name ∉ s.shapes.map (·.name))
      (hshapes : next.shapes = s.shapes ++ [shape]) (hkey : next.shapeKey = s.shapeKey) :
      Steps s (.insert shape) none next
  | refuse {shape : Shape} (htaken : shape.name ∈ s.shapes.map (·.name)) :
      Steps s (.insert shape) (some (.duplicateShape shape.name)) s
  | setShapeKey {key : String} : Steps s (.setShapeKey key) none (s.setShapeKey key)

/-- Whatever is done to a schema is one of the three `Steps`. -/
theorem steps_perform (s : Schema) (op : Op) : Steps s op (s.perform op).1 (s.perform op).2 := by
  cases op with
  | insert shape =>
      by_cases h : shape.name ∈ s.shapes.map (·.name)
      · rw [perform, insert_of_mem h]
        exact .refuse h
      · obtain ⟨next, hinsert, hshapes, hkey⟩ := insert_of_notMem h
        rw [perform, hinsert]
        exact .insert h hshapes hkey
  | setShapeKey key => exact .setShapeKey

/-- The shape that an operation has put in. -/
def Op.accepted? (op : Op) (refusal : Option DecodeError) : Option Shape :=
  if refusal.isNone then op.shape? else none

namespace Steps

/-- `Steps` adds to the shapes at most the one that `accepted?` names, at the end. -/
theorem shapes_eq (h : Steps s op refusal next) :
    next.shapes = s.shapes ++ (op.accepted? refusal).toList := by
  cases h with
  | insert _ hshapes => exact hshapes
  | refuse | setShapeKey => exact (List.append_nil _).symm

/-- As far as `shape?` is concerned, a step puts its shape at the end whether it is accepted or
refused: one that is refused stands behind another of its name. -/
theorem shape?_eq (h : Steps s op refusal next) (name : String) :
    next.shape? name = (s.shapes ++ op.shape?.toList).find? (·.name == name) := by
  cases h with
  | insert _ hshapes => rw [shape?, hshapes, Op.shape?, Option.toList_some]
  | setShapeKey => exact congrArg _ (List.append_nil _).symm
  | @refuse shape htaken =>
      rw [Op.shape?, Option.toList_some, List.find?_append]
      cases hfind : s.shapes.find? (·.name == name) with
      | some first => exact hfind
      | none =>
          -- under the name of the shape one is found, because it is taken
          have hne : shape.name ≠ name := by
            rintro rfl
            rw [mem_names_iff, shape?, hfind] at htaken
            cases htaken
          rw [Option.none_or, List.find?_singleton, if_neg (by simpa using hne)]
          exact hfind

/-- After `Steps` the key is the one that the operation sets, if it sets one. -/
theorem shapeKey_eq (h : Steps s op refusal next) : next.shapeKey = op.key?.getD s.shapeKey := by
  cases h with
  | insert _ _ hkey => exact hkey
  | refuse | setShapeKey => rfl

end Steps

/-! ### Runs -/

/-- Performs operations one after the other, whether they are refused or not: why each of them
is, and the schema after all of them. -/
def performAll (s : Schema) : List Op → List (Option DecodeError) × Schema
  | [] => ([], s)
  | op :: ops =>
    let (refusal, next) := s.perform op
    let (refusals, last) := next.performAll ops
    (refusal :: refusals, last)

theorem performAll_cons (s : Schema) (op : Op) (ops : List Op) :
    s.performAll (op :: ops) =
      ((s.perform op).1 :: ((s.perform op).2.performAll ops).1,
        ((s.perform op).2.performAll ops).2) := rfl

/-- The shapes that operations offer, in this order. -/
def offered (ops : List Op) : List Shape := ops.flatMap (·.shape?.toList)

/-- The shapes of those operations that were not refused, in this order. -/
def accepted (ops : List Op) (refusals : List (Option DecodeError)) : List Shape :=
  (ops.zip refusals).flatMap fun (op, refusal) => (op.accepted? refusal).toList

/-- The key that was set last, or the one that was there before. -/
def lastKey (key : String) (ops : List Op) : String :=
  ops.foldl (fun key op => op.key?.getD key) key

/-- The run lemma for shapes: after `performAll` there is what was there before and what was
`accepted`, in the order in which it came. -/
theorem shapes_performAll (s : Schema) (ops : List Op) :
    (s.performAll ops).2.shapes = s.shapes ++ accepted ops (s.performAll ops).1 := by
  induction ops generalizing s with
  | nil => exact (List.append_nil _).symm
  | cons op ops ih =>
      rw [performAll_cons, ih, (steps_perform s op).shapes_eq, List.append_assoc]
      rfl

/-- After `performAll` a name stands for the first shape of that name that was there or was
`offered`. -/
theorem shape?_performAll (s : Schema) (ops : List Op) (name : String) :
    (s.performAll ops).2.shape? name =
      (s.shapes ++ offered ops).find? (·.name == name) := by
  induction ops generalizing s with
  | nil => exact congrArg _ (List.append_nil _).symm
  | cons op ops ih =>
      have hstep := (steps_perform s op).shape?_eq name
      rw [shape?] at hstep
      rw [performAll_cons, ih, List.find?_append, hstep, ← List.find?_append, List.append_assoc]
      rfl

/-- The run lemma for the key: after `performAll` it is the last one that was set (`lastKey`). -/
theorem shapeKey_performAll (s : Schema) (ops : List Op) :
    (s.performAll ops).2.shapeKey = lastKey s.shapeKey ops := by
  induction ops generalizing s with
  | nil => rfl
  | cons op ops ih =>
      rw [performAll_cons, ih, (steps_perform s op).shapeKey_eq]
      rfl

/-- From the empty schema, `size` comes to the number of names among the shapes that were `offered`.
-/
theorem size_performAll (ops : List Op) :
    (empty.performAll ops).2.size = ((offered ops).map (·.name)).toFinset.card := by
  have hnames : ((empty.performAll ops).2.shapes.map (·.name)).toFinset =
      ((offered ops).map (·.name)).toFinset := by
    ext name
    rw [List.mem_toFinset, List.mem_toFinset, mem_names_iff, shape?_performAll, List.find?_isSome]
    simp [empty]
  rw [← hnames, List.toFinset_card_of_nodup (empty.performAll ops).2.nodup, List.length_map, size]

/-- What a registry of shapes tells of itself. -/
structure Listing where
  shapes : List Shape
  shape? : String → Option Shape
  size : Nat
  shapeKey : String

/-- What a schema tells of itself. -/
def listing (s : Schema) : Listing := ⟨s.shapes, s.shape?, s.size, s.shapeKey⟩

/-- What is told after operations on a registry with no shapes. -/
structure Listing.Records (ops : List Op) (refusals : List (Option DecodeError)) (l : Listing) :
    Prop where
  /-- The shapes that were accepted are there, as they came. -/
  shapes_eq : l.shapes = accepted ops refusals
  /-- A name stands for the first shape that was offered under it. -/
  shape?_eq : ∀ name, l.shape? name = (offered ops).find? (·.name == name)
  /-- There are as many shapes as names were offered. -/
  size_eq : l.size = ((offered ops).map (·.name)).toFinset.card
  shapeKey_eq : l.shapeKey = lastKey defaultShapeKey ops

/-- What a schema tells of itself after a run is what `Listing.Records` says. -/
theorem records_performAll (ops : List Op) :
    (empty.performAll ops).2.listing.Records ops (empty.performAll ops).1 where
  shapes_eq := shapes_performAll empty ops
  shape?_eq := shape?_performAll empty ops
  size_eq := size_performAll ops
  shapeKey_eq := shapeKey_performAll empty ops

/-! ### Shapes in one go -/

/-- The first shape with the name of an earlier one has this name. -/
def FirstRepeat (shapes : List Shape) (name : String) : Prop :=
  ∃ before shape after, shapes = before ++ shape :: after ∧ (before.map (·.name)).Nodup ∧
    shape.name ∈ before.map (·.name) ∧ shape.name = name

/-- The names of a list of shapes are pairwise distinct, or one of them is a `FirstRepeat`. -/
theorem nodup_or_firstRepeat (shapes : List Shape) :
    (shapes.map (·.name)).Nodup ∨ ∃ name, FirstRepeat shapes name := by
  -- from the front to the end, since a shape repeats the names in front of it
  induction shapes using List.reverseRecOn with
  | nil => exact .inl .nil
  | append_singleton before shape ih =>
      obtain hnodup | ⟨name, earlier, again, after, rfl, hrepeat⟩ := ih
      · by_cases hmem : shape.name ∈ before.map (·.name)
        · exact .inr ⟨_, before, shape, [], rfl, hnodup, hmem, rfl⟩
        · refine .inl ?_
          rw [List.map_append, List.map_singleton, ← List.concat_eq_append]
          exact hnodup.concat hmem
      · exact .inr ⟨name, earlier, again, after ++ [shape], by simp, hrepeat⟩

/-- `insertAll` accepts shapes of new and pairwise distinct names, all of them, in order. -/
theorem insertAll_of_nodup (h : ((s.shapes ++ shapes).map (·.name)).Nodup) :
    ∃ next, s.insertAll shapes = .ok next ∧ next.shapes = s.shapes ++ shapes ∧
      next.shapeKey = s.shapeKey := by
  induction shapes generalizing s with
  | nil => exact ⟨s, rfl, (List.append_nil _).symm, rfl⟩
  | cons shape shapes ih =>
      have hfresh : shape.name ∉ s.shapes.map (·.name) := by
        rw [List.map_append, List.map_cons] at h
        exact fun hmem => List.disjoint_of_nodup_append h hmem List.mem_cons_self
      obtain ⟨mid, hinsert, hmid, hkey⟩ := insert_of_notMem hfresh
      rw [List.append_cons, ← hmid] at h ⊢
      obtain ⟨next, hrest, hshapes, hlast⟩ := ih h
      refine ⟨next, ?_, hshapes, hlast.trans hkey⟩
      rw [insertAll, List.foldlM_cons, hinsert]
      exact hrest

/-- `ofShapes` refuses a list at its `FirstRepeat`, whatever comes behind it. -/
theorem ofShapes_of_firstRepeat (h : FirstRepeat shapes name) :
    ofShapes shapes = .error (.duplicateShape name) := by
  obtain ⟨before, shape, after, rfl, hnodup, hmem, rfl⟩ := h
  obtain ⟨mid, hbefore, hshapes, -⟩ := @insertAll_of_nodup empty before hnodup
  have htaken : shape.name ∈ mid.shapes.map (·.name) := by rwa [hshapes]
  rw [insertAll] at hbefore
  rw [ofShapes, insertAll, List.foldlM_append, hbefore]
  change List.foldlM insert mid (shape :: after) = _
  rw [List.foldlM_cons, insert_of_mem htaken]
  rfl

/-- `ofShapes` accepts exactly the lists of pairwise distinct names, keeps their order, and gives
the schema `defaultShapeKey`. -/
theorem exists_ofShapes_iff :
    (∃ s, ofShapes shapes = .ok s ∧ s.shapes = shapes ∧ s.shapeKey = defaultShapeKey) ↔
      (shapes.map (·.name)).Nodup :=
  ⟨fun ⟨s, _, hshapes, _⟩ => hshapes ▸ s.nodup, insertAll_of_nodup (s := empty)⟩

/-- `ofShapes` fails exactly where there is a `FirstRepeat`, and the error names it. -/
theorem ofShapes_eq_error_iff :
    ofShapes shapes = .error e ↔ ∃ name, FirstRepeat shapes name ∧ e = .duplicateShape name := by
  constructor
  · intro h
    obtain hnodup | ⟨name, hrepeat⟩ := nodup_or_firstRepeat shapes
    · obtain ⟨s, hok, -⟩ := exists_ofShapes_iff.mpr hnodup
      rw [hok] at h
      cases h
    · rw [ofShapes_of_firstRepeat hrepeat] at h
      cases h
      exact ⟨name, hrepeat, rfl⟩
  · rintro ⟨name, hrepeat, rfl⟩
    exact ofShapes_of_firstRepeat hrepeat

example : ofShapes [⟨"Leaf", []⟩, ⟨"Node", []⟩, ⟨"Node", []⟩, ⟨"Leaf", []⟩] =
    .error (.duplicateShape "Node") := rfl

end BinaryAst.Schema
