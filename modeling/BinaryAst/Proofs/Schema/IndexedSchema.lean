import BinaryAst.Proofs.Conformance
import BinaryAst.Proofs.Outcome
import BinaryAst.Proofs.Schema.Registration
/-!
# BinaryAst.Proofs.Schema.IndexedSchema

A schema that keeps its shapes by name, and beside them their names in order.

The two parts of an `IndexedSchema` say the same twice, and each operation changes them one after
the other, with nothing that undoes the first change where the second one fails. They stay in
step because they stand for a `Schema` (`IndexedSchema.Represents`): each operation does to them
what it does to the schema, and an operation that is refused has changed neither.
-/

namespace BinaryAst

/-- A schema that is looked up by name and listed in order. -/
structure IndexedSchema where
  byName : Std.HashMap String Shape
  /-- The names, in the order of registration. -/
  order : List String
  shapeKey : String

namespace IndexedSchema

open Schema (Op Steps Listing FirstRepeat)

/-- The schema with no shapes. -/
def empty : IndexedSchema := ⟨∅, [], Schema.defaultShapeKey⟩

/-- The shape of a name. -/
def shape? (t : IndexedSchema) (name : String) : Option Shape := t.byName[name]?

/-- Number of shapes. -/
def size (t : IndexedSchema) : Nat := t.order.length

/-- The shapes, in the order of registration. A name without a shape is passed over. -/
def shapes (t : IndexedSchema) : List Shape := t.order.filterMap t.shape?

/-- What a schema tells of itself. -/
def listing (t : IndexedSchema) : Listing := ⟨t.shapes, t.shape?, t.size, t.shapeKey⟩

/-- Registers a shape. A name that is taken is refused. -/
def insert (shape : Shape) : EStateM DecodeError IndexedSchema Unit := do
  if (← get).byName.contains shape.name then
    throw (.duplicateShape shape.name)
  modify fun t => { t with order := t.order ++ [shape.name] }
  modify fun t => { t with byName := t.byName.insert shape.name shape }

/-- Sets another shape key. -/
def setShapeKey (key : String) : EStateM DecodeError IndexedSchema Unit :=
  modify fun t => { t with shapeKey := key }

/-- Performs one operation: why it is refused, if it is, and what it leaves behind. -/
def perform (t : IndexedSchema) (op : Op) : Option DecodeError × IndexedSchema :=
  let run := match op with
    | .insert shape => insert shape
    | .setShapeKey key => setShapeKey key
  match run t with
  | .ok () next => (none, next)
  | .error e next => (some e, next)

/-- Performs operations one after the other, whether they are refused or not. -/
def performAll (t : IndexedSchema) : List Op → List (Option DecodeError) × IndexedSchema
  | [] => ([], t)
  | op :: ops =>
    let (refusal, next) := t.perform op
    let (refusals, last) := next.performAll ops
    (refusal :: refusals, last)

/-- Registers shapes in order, up to the first that is refused. -/
def insertAll (shapes : List Shape) : EStateM DecodeError IndexedSchema Unit := forM shapes insert

/-- The schema of some shapes. -/
def ofShapes (shapes : List Shape) : Except DecodeError IndexedSchema :=
  match insertAll shapes empty with
  | .ok () t => .ok t
  | .error e _ => .error e

variable {t : IndexedSchema} {s next : Schema} {op : Op} {refusal : Option DecodeError}
  {shape : Shape} {shapes : List Shape} {e : DecodeError}

theorem insert_of_contains (h : t.byName.contains shape.name = true) :
    insert shape t = .error (.duplicateShape shape.name) t := by
  rw [insert, get_bind_eq, if_pos h]
  rfl

theorem insert_of_not_contains (h : ¬t.byName.contains shape.name = true) :
    insert shape t =
      .ok () ⟨t.byName.insert shape.name shape, t.order ++ [shape.name], t.shapeKey⟩ := by
  rw [insert, get_bind_eq, if_neg h]
  rfl

theorem perform_insert (t : IndexedSchema) (shape : Shape) :
    t.perform (.insert shape) =
      if t.byName.contains shape.name = true then (some (.duplicateShape shape.name), t)
      else (none, ⟨t.byName.insert shape.name shape, t.order ++ [shape.name], t.shapeKey⟩) := by
  split
  case isTrue h => rw [perform, insert_of_contains h]
  case isFalse h => rw [perform, insert_of_not_contains h]

/-! ### Two parts in step -/

/-- The order and the shapes by name are those of a schema. -/
structure Represents (t : IndexedSchema) (s : Schema) : Prop where
  order_eq : t.order = s.shapes.map (·.name)
  shape?_eq : ∀ name, t.shape? name = s.shape? name
  shapeKey_eq : t.shapeKey = s.shapeKey

/-- The order lists each name under which there is a shape once, and every shape is kept under
its own name. -/
structure Coherent (t : IndexedSchema) : Prop where
  nodup : t.order.Nodup
  perm_keys : t.order.Perm t.byName.keys
  name_eq : ∀ (name : String) (shape : Shape), t.byName[name]? = some shape → shape.name = name

theorem represents_empty : empty.Represents .empty where
  order_eq := rfl
  shape?_eq _ := Std.HashMap.getElem?_empty
  shapeKey_eq := rfl

namespace Represents

theorem contains_iff (h : t.Represents s) {name : String} :
    t.byName.contains name = true ↔ name ∈ s.shapes.map (·.name) := by
  rw [Schema.mem_names_iff, ← h.shape?_eq, shape?, Std.HashMap.isSome_getElem?_eq_contains]

theorem coherent (h : t.Represents s) : t.Coherent where
  nodup := h.order_eq ▸ s.nodup
  perm_keys := by
    rw [List.perm_ext_iff_of_nodup (h.order_eq ▸ s.nodup) Std.HashMap.nodup_keys]
    intro name
    rw [Std.HashMap.mem_keys, Std.HashMap.mem_iff_contains, h.contains_iff, h.order_eq]
  name_eq name shape hshape := Schema.name_of_shape? ((h.shape?_eq name).symm.trans hshape)

/-- The `shapes` of the index are those of the schema it `Represents`: no name in the order is
passed over. -/
theorem shapes_eq (h : t.Represents s) : t.shapes = s.shapes := by
  rw [shapes, h.order_eq, List.filterMap_map]
  calc s.shapes.filterMap (t.shape? ∘ (·.name))
      = s.shapes.filterMap some :=
        List.filterMap_congr fun shape hmem =>
          (h.shape?_eq shape.name).trans (Schema.shape?_of_mem hmem)
    _ = s.shapes := List.filterMap_some

theorem listing_eq (h : t.Represents s) : t.listing = s.listing := by
  have hsize : t.size = s.size := by rw [size, h.order_eq, List.length_map, Schema.size]
  rw [listing, Schema.listing, h.shapes_eq, funext h.shape?_eq, hsize, h.shapeKey_eq]

/-- A shape of a new name is put into both parts, and they go on to represent the schema with it at
the end. -/
theorem insert (h : t.Represents s) (hfresh : shape.name ∉ s.shapes.map (·.name))
    (hshapes : next.shapes = s.shapes ++ [shape]) (hkey : next.shapeKey = s.shapeKey) :
    Represents ⟨t.byName.insert shape.name shape, t.order ++ [shape.name], t.shapeKey⟩ next where
  order_eq := by rw [hshapes, List.map_append, List.map_singleton, h.order_eq]
  shape?_eq name := by
    have hold : t.byName[name]? = s.shape? name := h.shape?_eq name
    rw [shape?, Std.HashMap.getElem?_insert, hold, Schema.shape?, Schema.shape?, hshapes,
      List.find?_append, List.find?_singleton]
    split
    case isTrue heq =>
      obtain rfl := eq_of_beq heq
      -- nothing had this name before, so the shape at the end is the first of its name
      have hnone : s.shapes.find? (·.name == shape.name) = none := by
        rw [← Option.not_isSome_iff_eq_none, ← Schema.shape?, ← Schema.mem_names_iff]
        exact hfresh
      rw [hnone, Option.none_or]
    case isFalse => rw [Option.or_none]
  shapeKey_eq := h.shapeKey_eq.trans hkey.symm

/-- `perform` does to the two parts what `Steps` does to the schema, refusal included. -/
theorem perform_of_steps (h : t.Represents s) (hstep : Steps s op refusal next) :
    (t.perform op).1 = refusal ∧ (t.perform op).2.Represents next := by
  cases hstep with
  | insert hfresh hshapes hkey =>
      rw [perform_insert, if_neg (mt h.contains_iff.mp hfresh)]
      exact ⟨rfl, h.insert hfresh hshapes hkey⟩
  | refuse htaken =>
      rw [perform_insert, if_pos (h.contains_iff.mpr htaken)]
      exact ⟨rfl, h⟩
  | setShapeKey => exact ⟨rfl, h.order_eq, h.shape?_eq, rfl⟩

/-- `perform` refuses a shape exactly where the schema's `insert` does, before anything was changed.
-/
theorem perform_insert_eq_iff (h : t.Represents s) {next : IndexedSchema} :
    t.perform (.insert shape) = (some e, next) ↔ s.insert shape = .error e ∧ next = t := by
  rw [perform_insert, Schema.insert_eq_error_iff, ← h.contains_iff]
  split
  case isTrue htaken => simp [htaken, eq_comm]
  case isFalse hfresh => simp [hfresh]

theorem performAll (h : t.Represents s) (ops : List Op) :
    (t.performAll ops).1 = (s.performAll ops).1 ∧
      (t.performAll ops).2.Represents (s.performAll ops).2 := by
  induction ops generalizing t s with
  | nil => exact ⟨rfl, h⟩
  | cons op ops ih =>
      obtain ⟨hrefusal, hnext⟩ := h.perform_of_steps (s.steps_perform op)
      obtain ⟨hrefusals, hlast⟩ := ih hnext
      exact ⟨congrArg₂ List.cons hrefusal hrefusals, hlast⟩

/-- `IndexedSchema.insertAll` registers shapes as the schema's `insertAll` does, or refuses them for
the same reason. -/
theorem insertAll (h : t.Represents s) (shapes : List Shape) :
    match s.insertAll shapes with
    | .ok next => ∃ t', IndexedSchema.insertAll shapes t = .ok () t' ∧ t'.Represents next
    | .error e => ∃ t', IndexedSchema.insertAll shapes t = .error e t' := by
  induction shapes generalizing t s with
  | nil => exact ⟨t, rfl, h⟩
  | cons shape shapes ih =>
      rw [IndexedSchema.insertAll, List.forM_cons, Schema.insertAll, List.foldlM_cons]
      by_cases htaken : shape.name ∈ s.shapes.map (·.name)
      · rw [Schema.insert_of_mem htaken]
        exact ⟨t, bind_of_error (insert_of_contains (h.contains_iff.mpr htaken))⟩
      · obtain ⟨next, hinsert, hshapes, hkey⟩ := Schema.insert_of_notMem htaken
        rw [hinsert, bind_of_ok (insert_of_not_contains (mt h.contains_iff.mp htaken))]
        exact ih (h.insert htaken hshapes hkey)

end Represents

/-! ### New schemas -/

theorem ofShapes_of_ok (h : Schema.ofShapes shapes = .ok s) :
    ∃ t, ofShapes shapes = .ok t ∧ t.Represents s := by
  have hall := represents_empty.insertAll shapes
  rw [Schema.ofShapes] at h
  rw [h] at hall
  obtain ⟨t, hrun, hrepresents⟩ := hall
  exact ⟨t, by rw [ofShapes, hrun], hrepresents⟩

theorem ofShapes_of_error (h : Schema.ofShapes shapes = .error e) :
    ofShapes shapes = .error e := by
  have hall := represents_empty.insertAll shapes
  rw [Schema.ofShapes] at h
  rw [h] at hall
  obtain ⟨t, hrun⟩ := hall
  rw [ofShapes, hrun]

theorem ofShapes_eq_error_iff :
    ofShapes shapes = .error e ↔ Schema.ofShapes shapes = .error e := by
  refine ⟨fun h => ?_, ofShapes_of_error⟩
  cases hschema : Schema.ofShapes shapes with
  | ok s =>
      obtain ⟨t, hok, -⟩ := ofShapes_of_ok hschema
      rw [hok] at h
      cases h
  | error e' =>
      rw [ofShapes_of_error hschema] at h
      cases h
      rfl

/-- `ofShapes` makes up two parts that are `Coherent`, with all of the shapes in order, exactly if
their names are pairwise distinct. -/
theorem exists_ofShapes_iff :
    (∃ t, ofShapes shapes = .ok t ∧ t.Coherent ∧ t.shapes = shapes) ↔
      (shapes.map (·.name)).Nodup := by
  constructor
  · rintro ⟨t, hok, -⟩
    refine (Schema.nodup_or_firstRepeat shapes).resolve_right ?_
    rintro ⟨name, hrepeat⟩
    rw [ofShapes_of_error (Schema.ofShapes_of_firstRepeat hrepeat)] at hok
    cases hok
  · intro h
    obtain ⟨s, hschema, hshapes, -⟩ := Schema.exists_ofShapes_iff.mpr h
    obtain ⟨t, hok, hrepresents⟩ := ofShapes_of_ok hschema
    exact ⟨t, hok, hrepresents.coherent, hrepresents.shapes_eq.trans hshapes⟩

/-- After any operations, refused or not, the two parts are `Coherent`, and `listing` tells what
that of a schema tells after the same operations (`Records`): the shapes that were accepted in their
order, under each name the first that was offered, and as many as there are names. One more shape is
refused exactly if its name is in the order, and that changes nothing. `ofShapes` refuses shapes for
the first of them that has the name of an earlier one, and only for that. -/
theorem performAll_records (ops : List Op) :
    ∃ refusals t s,
      empty.performAll ops = (refusals, t) ∧ Schema.empty.performAll ops = (refusals, s) ∧
      t.Coherent ∧ t.listing = s.listing ∧ t.listing.Records ops refusals ∧
      (∀ shape e, s.insert shape = .error e ↔
        shape.name ∈ t.order ∧ e = .duplicateShape shape.name) ∧
      (∀ shape e next, t.perform (.insert shape) = (some e, next) ↔
        s.insert shape = .error e ∧ next = t) ∧
      ∀ shapes,
        ((∃ made, ofShapes shapes = .ok made ∧ made.Coherent ∧ made.shapes = shapes) ↔
          (shapes.map (·.name)).Nodup) ∧
        (∀ e, ofShapes shapes = .error e ↔ Schema.ofShapes shapes = .error e) ∧
        ∀ e, Schema.ofShapes shapes = .error e ↔
          ∃ name, FirstRepeat shapes name ∧ e = .duplicateShape name := by
  obtain ⟨hrefusals, hrepresents⟩ := represents_empty.performAll ops
  have hlisting := hrepresents.listing_eq
  refine ⟨_, _, _, rfl, Prod.ext hrefusals.symm rfl, hrepresents.coherent, hlisting, ?_, ?_, ?_,
    fun shapes => ⟨exists_ofShapes_iff, fun _ => ofShapes_eq_error_iff,
      fun _ => Schema.ofShapes_eq_error_iff⟩⟩
  · rw [hlisting, hrefusals]
    exact Schema.records_performAll ops
  · intro shape e
    rw [hrepresents.order_eq]
    exact Schema.insert_eq_error_iff
  · exact fun shape e next => hrepresents.perform_insert_eq_iff

end IndexedSchema

end BinaryAst
