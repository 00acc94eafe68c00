import BinaryAst.Decode.Repeat
import BinaryAst.Proofs.Outcome
/-!
# BinaryAst.Proofs.Triple

What a step ensures, also where it fails.

A `Triple` has a precondition on the state and two postconditions, one for each way in which the
step can end: a failed step hands its state on as well, so what holds of that state is worth
saying. `Meets` is the same of a single run. Both follow everything that steps are built with.
-/

namespace BinaryAst

variable {ε σ α β γ : Type}

/-- A run ends with a value and a state of which `post` holds, or with an error and a state of
which `fail` holds. -/
def Meets (post : α → σ → Prop) (fail : ε → σ → Prop) : EStateM.Result ε σ α → Prop
  | .ok v t => post v t
  | .error e t => fail e t

theorem Meets.mono {post post' : α → σ → Prop} {fail fail' : ε → σ → Prop}
    {r : EStateM.Result ε σ α} (h : Meets post fail r) (hpost : ∀ v s, post v s → post' v s)
    (hfail : ∀ e s, fail e s → fail' e s) : Meets post' fail' r := by
  cases r with
  | ok v t => exact hpost v t h
  | error e t => exact hfail e t h

/-- `Meets` is closed under `>>=`: the run goes on from where another ended. -/
theorem Meets.bind {x : EStateM ε σ α} {f : α → EStateM ε σ β} {mid : α → σ → Prop}
    {post : β → σ → Prop} {fail : ε → σ → Prop} {s : σ} (hx : Meets mid fail (x s))
    (hf : ∀ v t, x s = .ok v t → mid v t → Meets post fail (f v t)) :
    Meets post fail ((x >>= f) s) := by
  cases hrun : x s with
  | ok v t =>
      rw [hrun] at hx
      rw [bind_of_ok hrun]
      exact hf v t hrun hx
  | error e t =>
      rw [hrun] at hx
      rw [bind_of_error hrun]
      exact hx

/-- From each state of which `pre` holds, the step meets the two postconditions. -/
def Triple (pre : σ → Prop) (x : EStateM ε σ α) (post : α → σ → Prop) (fail : ε → σ → Prop) :
    Prop :=
  ∀ s, pre s → Meets post fail (x s)

namespace Triple

variable {pre : σ → Prop} {x : EStateM ε σ α} {post : α → σ → Prop} {fail : ε → σ → Prop}

theorem ok {s t : σ} {v : α} (h : Triple pre x post fail) (hs : pre s) (hrun : x s = .ok v t) :
    post v t := by
  have := h s hs
  rwa [hrun] at this

theorem error {s t : σ} {e : ε} (h : Triple pre x post fail) (hs : pre s)
    (hrun : x s = .error e t) : fail e t := by
  have := h s hs
  rwa [hrun] at this

theorem mono {pre' : σ → Prop} {post' : α → σ → Prop} {fail' : ε → σ → Prop}
    (h : Triple pre x post fail) (hpre : ∀ s, pre' s → pre s)
    (hpost : ∀ v s, post v s → post' v s) (hfail : ∀ e s, fail e s → fail' e s) :
    Triple pre' x post' fail' := fun s hs => (h s (hpre s hs)).mono hpost hfail

theorem pure {v : α} (h : ∀ s, pre s → post v s) :
    Triple pre (Pure.pure v : EStateM ε σ α) post fail := h

theorem throw {e : ε} (h : ∀ s, pre s → fail e s) :
    Triple pre (throw e : EStateM ε σ α) post fail := h

theorem bind {f : α → EStateM ε σ β} {mid : α → σ → Prop} {post : β → σ → Prop}
    (hx : Triple pre x mid fail) (hf : ∀ v, Triple (mid v) (f v) post fail) :
    Triple pre (x >>= f) post fail := fun s hs =>
  (hx s hs).bind fun v t _ hv => hf v t hv

theorem map {g : α → β} {post : β → σ → Prop} (hx : Triple pre x (fun v => post (g v)) fail) :
    Triple pre (g <$> x) post fail := by
  rw [map_eq_pure_bind]
  exact hx.bind fun v => .pure fun _ h => h

theorem get_bind {f : σ → EStateM ε σ β} {post : β → σ → Prop}
    (h : ∀ s, Triple (fun t => pre t ∧ t = s) (f s) post fail) :
    Triple pre (get >>= f) post fail := fun s hs => h s s ⟨hs, rfl⟩

theorem ite {p : Prop} [Decidable p] {y : EStateM ε σ α} (hx : p → Triple pre x post fail)
    (hy : ¬p → Triple pre y post fail) : Triple pre (if p then x else y) post fail := by
  split
  case isTrue h => exact hx h
  case isFalse h => exact hy h

/-! ### Repetition, under an invariant -/

theorem collectFrom {step : Nat → EStateM ε σ α} {inv : σ → Prop}
    (h : ∀ position, Triple inv (step position) (fun _ => inv) fail) (left position : Nat) :
    Triple inv (Decode.collectFrom step left position []) (fun _ => inv) fail := by
  induction left generalizing position with
  | zero => exact .pure fun _ hs => hs
  | succ left ih =>
      rw [Decode.collectFrom_succ]
      exact (h position).bind fun _ => (ih (position + 1)).bind fun _ => .pure fun _ hs => hs

/-- `collectFrom` gives as many results as it should. -/
theorem length_collectFrom (step : Nat → EStateM ε σ α) (left position : Nat) :
    Triple (fun _ => True) (Decode.collectFrom step left position [])
      (fun values _ => values.length = left) fun _ _ => True := by
  intro s _
  cases hrun : Decode.collectFrom step left position [] s with
  | error e t => trivial
  | ok values t =>
      induction left generalizing position s values t with
      | zero =>
          obtain ⟨rfl, -⟩ := pure_eq_ok_iff.mp hrun
          rfl
      | succ left ih =>
          rw [Decode.collectFrom_succ] at hrun
          obtain ⟨value, s', -, hrun⟩ := bind_eq_ok_iff.mp hrun
          obtain ⟨rest, t', hrest, hrun⟩ := bind_eq_ok_iff.mp hrun
          obtain ⟨rfl, -⟩ := pure_eq_ok_iff.mp hrun
          exact congrArg (· + 1) (ih _ _ _ _ hrest)

theorem mapM {step : γ → EStateM ε σ α} {inv : σ → Prop} {cs : List γ}
    (h : ∀ c ∈ cs, Triple inv (step c) (fun _ => inv) fail) :
    Triple inv (cs.mapM step) (fun _ => inv) fail := by
  induction cs with
  | nil => exact .pure fun _ hs => hs
  | cons c cs ih =>
      rw [List.mapM_cons]
      obtain ⟨hc, hcs⟩ := List.forall_mem_cons.mp h
      exact hc.bind fun _ => (ih hcs).bind fun _ => .pure fun _ hs => hs

end Triple

end BinaryAst
