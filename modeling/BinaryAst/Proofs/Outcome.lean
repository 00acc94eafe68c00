/-!
# BinaryAst.Proofs.Outcome

How a step that succeeds was put together.

Reads, steps and assemblies are all `EStateM`; a successful run of a compound one
is taken apart here, once, into successful runs of its parts.
-/

namespace BinaryAst

variable {ε σ α β : Type}

theorem bind_eq_ok_iff {x : EStateM ε σ α} {f : α → EStateM ε σ β} {s t : σ} {w : β} :
    (x >>= f) s = .ok w t ↔ ∃ v s', x s = .ok v s' ∧ f v s' = .ok w t := by
  change EStateM.bind x f s = .ok w t ↔ _
  unfold EStateM.bind
  cases x s with
  | ok v s' => simp [and_assoc]
  | error e s' => simp

theorem bind_of_ok {x : EStateM ε σ α} {f : α → EStateM ε σ β} {s s' : σ} {v : α}
    (h : x s = .ok v s') : (x >>= f) s = f v s' := by
  change EStateM.bind x f s = _
  simp [EStateM.bind, h]

theorem bind_of_error {x : EStateM ε σ α} {f : α → EStateM ε σ β} {s s' : σ} {e : ε}
    (h : x s = .error e s') : (x >>= f) s = .error e s' := by
  change EStateM.bind x f s = _
  simp [EStateM.bind, h]

theorem bind_eq_error_iff {x : EStateM ε σ α} {f : α → EStateM ε σ β} {s t : σ} {e : ε} :
    (x >>= f) s = .error e t ↔
      x s = .error e t ∨ ∃ v s', x s = .ok v s' ∧ f v s' = .error e t := by
  change EStateM.bind x f s = .error e t ↔ _
  unfold EStateM.bind
  cases x s with
  | ok v s' => simp [and_assoc]
  | error e s' => simp

theorem map_eq_ok_iff {g : α → β} {x : EStateM ε σ α} {s t : σ} {w : β} :
    (g <$> x) s = .ok w t ↔ ∃ v, x s = .ok v t ∧ g v = w := by
  change EStateM.map g x s = .ok w t ↔ _
  unfold EStateM.map
  cases x s with
  | ok v s' => simp [and_comm, and_assoc]
  | error e s' => simp

theorem pure_eq_ok_iff {v w : α} {s t : σ} :
    (pure v : EStateM ε σ α) s = .ok w t ↔ v = w ∧ s = t := by
  change EStateM.pure v s = .ok w t ↔ _
  simp [EStateM.pure]

theorem throw_ne_ok {e : ε} {w : α} {s t : σ} :
    (throw e : EStateM ε σ α) s ≠ .ok w t := by
  change EStateM.Result.error e s ≠ .ok w t
  intro h
  cases h

theorem throw_eq_error_iff {e e' : ε} {s t : σ} :
    (throw e : EStateM ε σ α) s = .error e' t ↔ e = e' ∧ s = t := by
  change EStateM.Result.error e s = .error e' t ↔ _
  simp

theorem get_bind_eq {f : σ → EStateM ε σ β} {s : σ} :
    ((get : EStateM ε σ σ) >>= f) s = f s s := rfl

end BinaryAst
