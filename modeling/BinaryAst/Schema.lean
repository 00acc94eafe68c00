import BinaryAst.Schema.Shape
import BinaryAst.Error
/-!
# BinaryAst.Schema

The shapes of a language, by name.

A schema is the list of its shapes in the order of registration, and no two of
them have the same name.
-/

namespace BinaryAst

/-- Shapes with pairwise distinct names, and the key under which an object's shape
is written out beside its fields. -/
structure Schema where
  shapes : List Shape
  nodup : (shapes.map (·.name)).Nodup
  shapeKey : String

namespace Schema

/-- The key under which an object's shape is written out, unless another is given. -/
def defaultShapeKey : String := "type"

/-- The schema with no shapes. -/
def empty : Schema := ⟨[], .nil, defaultShapeKey⟩

/-- Number of shapes. -/
def size (s : Schema) : Nat := s.shapes.length

/-- The schema has no shapes. -/
def isEmpty (s : Schema) : Bool := s.shapes.isEmpty

/-- The shape of a name. -/
def shape? (s : Schema) (name : String) : Option Shape :=
  s.shapes.find? (·.name == name)

/-- A shape of this name is registered. -/
def contains (s : Schema) (name : String) : Bool := (s.shape? name).isSome

theorem contains_eq_true_iff {s : Schema} {name : String} :
    s.contains name = true ↔ name ∈ s.shapes.map (·.name) := by
  simp [contains, shape?]

/-- Registers a shape. A name that is taken is refused. -/
def insert (s : Schema) (shape : Shape) : Except DecodeError Schema :=
  if taken : shape.name ∈ s.shapes.map (·.name) then
    .error (.duplicateShape shape.name)
  else
    .ok { s with
      shapes := s.shapes ++ [shape]
      nodup := by
        rw [List.map_append, List.nodup_append]
        refine ⟨s.nodup, by simp, fun name mem other single => ?_⟩
        simp only [List.map_cons, List.map_nil, List.mem_singleton] at single
        rintro rfl
        exact taken (single ▸ mem) }

theorem insert_eq_error_iff {s : Schema} {shape : Shape} {e : DecodeError} :
    s.insert shape = .error e ↔
      shape.name ∈ s.shapes.map (·.name) ∧ e = .duplicateShape shape.name := by
  unfold insert
  split <;> simp_all [eq_comm]

theorem shapes_of_insert {s next : Schema} {shape : Shape} (h : s.insert shape = .ok next) :
    next.shapes = s.shapes ++ [shape] := by
  unfold insert at h
  split at h
  · cases h
  · cases h
    rfl

/-- Registers shapes in order; the first whose name is taken is refused. -/
def insertAll (s : Schema) (shapes : List Shape) : Except DecodeError Schema :=
  shapes.foldlM insert s

/-- The schema of some shapes. -/
def ofShapes (shapes : List Shape) : Except DecodeError Schema := empty.insertAll shapes

/-- The schema with another shape key. -/
def setShapeKey (s : Schema) (key : String) : Schema := { s with shapeKey := key }

/-- The tag that a field is encoded with. -/
def fieldTag (s : Schema) (field : FieldDecl) : String := field.type.wireTag s.contains

end Schema

end BinaryAst
