import BinaryAst.Decode.Repeat
import BinaryAst.Proofs.Outcome
/-!
# BinaryAst.Proofs.Normal.Mirror

Two steps that do the same, in states that are each other's image.

A step `Mirrors` another along a map of states when it takes the image of a state to the image
of where the other takes the state, with the same error or with the image of the same value. So
nothing that the map forgets has any influence. Steps that are put together from steps that
mirror each other mirror each other.
-/

namespace BinaryAst

variable {ε σ τ α β γ δ : Type}

/-- A run with the image of its state and of its value. -/
def carry (f : σ → τ) (g : α → β) : EStateM.Result ε σ α → EStateM.Result ε τ β
  | .ok v s => .ok (g v) (f s)
  | .error e s => .error e (f s)

/-- From the image of a state, the second step does the image of what the first does. -/
def Mirrors (f : σ → τ) (g : α → β) (x : EStateM ε σ α) (y : EStateM ε τ β) : Prop :=
  ∀ s, y (f s) = carry f g (x s)

namespace Mirrors

variable {f : σ → τ} {g : α → β} {h : γ → δ} {x : EStateM ε σ α} {y : EStateM ε τ β}

theorem congr {g' : α → β} (hx : Mirrors f g x y) (hg : ∀ v, g v = g' v) : Mirrors f g' x y := by
  obtain rfl : g = g' := funext hg
  exact hx

theorem pure {v : α} {w : β} (hv : g v = w) :
    Mirrors f g (Pure.pure v : EStateM ε σ α) (Pure.pure w) := fun s => by
  subst hv
  rfl

theorem throw (e : ε) : Mirrors f g (throw e : EStateM ε σ α) (throw e) := fun _ => rfl

/-- `Mirrors` is closed under `>>=`; the second steps have to mirror each other only for values that
the first can give. -/
theorem bind_of {k : α → EStateM ε σ γ} {l : β → EStateM ε τ δ} (hx : Mirrors f g x y)
    (hk : ∀ s v t, x s = .ok v t → Mirrors f h (k v) (l (g v))) :
    Mirrors f h (x >>= k) (y >>= l) := by
  intro s
  have hy := hx s
  cases hrun : x s with
  | ok v t =>
      rw [hrun] at hy
      rw [bind_of_ok hrun, bind_of_ok hy]
      exact hk s v t hrun t
  | error e t =>
      rw [hrun] at hy
      rw [bind_of_error hrun, bind_of_error hy]
      rfl

theorem bind {k : α → EStateM ε σ γ} {l : β → EStateM ε τ δ} (hx : Mirrors f g x y)
    (hk : ∀ v, Mirrors f h (k v) (l (g v))) : Mirrors f h (x >>= k) (y >>= l) :=
  hx.bind_of fun _ v _ _ => hk v

theorem map {k : α → γ} {l : β → δ} (hx : Mirrors f g x y) (hk : ∀ v, h (k v) = l (g v)) :
    Mirrors f h (k <$> x) (l <$> y) := by
  rw [map_eq_pure_bind, map_eq_pure_bind]
  exact hx.bind fun v => .pure (hk v)

theorem get_bind {k : σ → EStateM ε σ α} {l : τ → EStateM ε τ β}
    (hk : ∀ s, Mirrors f g (k s) (l (f s))) : Mirrors f g (get >>= k) (get >>= l) :=
  fun s => hk s s

theorem ite {p q : Prop} [Decidable p] [Decidable q] {x' : EStateM ε σ α} {y' : EStateM ε τ β}
    (hpq : p ↔ q) (hx : p → Mirrors f g x y) (hx' : ¬p → Mirrors f g x' y') :
    Mirrors f g (if p then x else x') (if q then y else y') := by
  by_cases hp : p
  · rw [if_pos hp, if_pos (hpq.mp hp)]
    exact hx hp
  · rw [if_neg hp, if_neg (mt hpq.mpr hp)]
    exact hx' hp

/-! ### Repetition -/

theorem collectFrom {step : Nat → EStateM ε σ α} {other : Nat → EStateM ε τ β}
    (hstep : ∀ position, Mirrors f g (step position) (other position)) (left position : Nat) :
    Mirrors f (List.map g) (Decode.collectFrom step left position [])
      (Decode.collectFrom other left position []) := by
  induction left generalizing position with
  | zero => exact .pure rfl
  | succ left ih =>
      rw [Decode.collectFrom_succ, Decode.collectFrom_succ]
      exact (hstep position).bind fun value => (ih (position + 1)).bind fun rest => .pure rfl

theorem mapM {step : γ → EStateM ε σ α} {other : γ → EStateM ε τ β}
    (hstep : ∀ c, Mirrors f g (step c) (other c)) (cs : List γ) :
    Mirrors f (List.map g) (cs.mapM step) (cs.mapM other) := by
  induction cs with
  | nil => exact .pure rfl
  | cons c cs ih =>
      rw [List.mapM_cons, List.mapM_cons]
      exact (hstep c).bind fun value => ih.bind fun rest => .pure rfl

end Mirrors

end BinaryAst
