/-!
# BinaryAst.Decode.Repeat

Doing a step a given number of times.
-/

namespace BinaryAst.Decode

/-- Collects `left` results of a step that is told its position, on top of those
that are `done`, which are reversed. -/
@[specialize]
def collectFrom {m : Type → Type} [Monad m] {α : Type} (step : Nat → m α) :
    (left position : Nat) → (done : List α) → m (List α)
  | 0, _, done => pure done.reverse
  | left + 1, position, done => do
    collectFrom step left (position + 1) ((← step position) :: done)

/-- Collects the results of a step at positions `0`, `1`, … below `count`. -/
@[inline]
def collect {m : Type → Type} [Monad m] {α : Type} (count : Nat) (step : Nat → m α) :
    m (List α) :=
  collectFrom step count 0 []

theorem collectFrom_eq_append {m : Type → Type} [Monad m] [LawfulMonad m] {α : Type}
    (step : Nat → m α) (left position : Nat) (done : List α) :
    collectFrom step left position done =
      (done.reverse ++ ·) <$> collectFrom step left position [] := by
  induction left generalizing position done with
  | zero => simp [collectFrom]
  | succ left ih =>
    simp only [collectFrom, map_bind]
    congr 1
    funext value
    rw [ih, ih (position + 1) [value]]
    simp

theorem collectFrom_succ {m : Type → Type} [Monad m] [LawfulMonad m] {α : Type}
    (step : Nat → m α) (left position : Nat) :
    collectFrom step (left + 1) position [] =
      (do
        let value ← step position
        let values ← collectFrom step left (position + 1) []
        pure (value :: values)) := by
  simp only [collectFrom]
  congr 1
  funext value
  rw [collectFrom_eq_append]
  simp

end BinaryAst.Decode
