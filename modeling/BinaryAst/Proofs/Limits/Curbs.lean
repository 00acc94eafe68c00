import BinaryAst.Proofs.Decode.Footprint
/-!
# BinaryAst.Proofs.Limits.Curbs

Two runs of a step, side by side.

One step curbs another when it does the same from the same state, unless it stops with one
of certain errors. That is what a limit does to a decoder: a run under a tighter limit goes
on as the run under a wider one, until the limit stops it. No value is looked at, so the
relation follows the text of the decoders alone.

What a decoder may recurse into can also be bounded by the bytes that are still ahead of
it. The states that are compared are then only those with at most so many bytes ahead
(`State.Keeps`), and each read before a recursion lowers the bound.
-/

namespace BinaryAst.Decode

variable {σ α β : Type} {stops : DecodeError → Prop}

/-- From the states where they are compared, the first step does what the second does, or is
stopped. -/
def Curbs (stops : DecodeError → Prop) (start : σ → Prop) (x y : EStateM DecodeError σ α) : Prop :=
  ∀ s, start s → x s = y s ∨ ∃ e t, x s = .error e t ∧ stops e.cause

namespace Curbs

variable {start next : σ → Prop} {x y : EStateM DecodeError σ α}
  {f g : α → EStateM DecodeError σ β}

theorem refl (x : EStateM DecodeError σ α) : Curbs stops start x x := fun _ _ => .inl rfl

theorem throw {e : DecodeError} (h : stops e.cause) :
    Curbs stops start (throw e : EStateM DecodeError σ α) y := fun s _ => .inr ⟨e, s, rfl, h⟩

/-- `Curbs` is closed under `>>=`: the second steps are compared where the first can lead. -/
theorem bind_of (hx : Curbs stops start x y)
    (hf : ∀ s v t, start s → y s = .ok v t → ∃ next : σ → Prop, next t ∧
      Curbs stops next (f v) (g v)) : Curbs stops start (x >>= f) (y >>= g) := by
  intro s hs
  rcases hx s hs with heq | ⟨e, t, he, hstop⟩
  · cases hy : y s with
    | ok v t =>
        obtain ⟨next, ht, hnext⟩ := hf s v t hs hy
        rw [bind_of_ok (heq.trans hy), bind_of_ok hy]
        exact hnext t ht
    | error e t => exact .inl ((bind_of_error (heq.trans hy)).trans (bind_of_error hy).symm)
  · exact .inr ⟨e, t, bind_of_error he, hstop⟩

/-- `Curbs` is closed under `>>=` where all states are compared: it does not matter where the first
step leads. -/
theorem bind (hx : Curbs stops (fun _ => True) x y)
    (hf : ∀ v, Curbs stops (fun _ => True) (f v) (g v)) :
    Curbs stops (fun _ => True) (x >>= f) (y >>= g) :=
  hx.bind_of fun _ v _ _ _ => ⟨_, trivial, hf v⟩

theorem map (g : α → β) (hx : Curbs stops start x y) : Curbs stops start (g <$> x) (g <$> y) := by
  rw [map_eq_pure_bind, map_eq_pure_bind]
  exact hx.bind_of fun _ v _ _ _ => ⟨fun _ => True, trivial, .refl _⟩

end Curbs

/-! ### Steps of a section -/

variable {n : Nat} {site : Site}

/-- `inField` only puts a path to the error, which is no other cause. -/
theorem Curbs.inField {start : State n → Prop} {x y : Step n α} (h : Curbs stops start x y)
    (shape field : String) :
    Curbs stops start (Decode.inField shape field x) (Decode.inField shape field y) := by
  intro s hs
  unfold Decode.inField
  rcases h s hs with heq | ⟨e, t, he, hstop⟩
  · rw [heq]
    exact .inl rfl
  · rw [he]
    exact .inr ⟨_, t, rfl, hstop⟩

/-- The state has at most so many bytes ahead, where there is such a bound. -/
def State.Keeps (site : Site) (bound : Option Nat) (s : State n) : Prop :=
  ∀ bytes, bound = some bytes → s.Fits site ∧ s.remaining ≤ bytes

namespace Curbs

variable {bound : Option Nat} {x y : Step n α} {f g : α → Step n β} {language : Language α}

/-- Behind a step that takes bytes there are as many bytes less ahead, so the bound that a state
`Keeps` goes down by what the step costs. -/
theorem bind_taking {cost : Nat} (hx : Curbs stops (State.Keeps site bound) x y)
    (hy : Recognises site y language) (hcost : ∀ v log, language v log → cost ≤ log.size)
    (hf : (∀ bytes, bound = some bytes → cost ≤ bytes) →
      ∀ v, Curbs stops (State.Keeps site (bound.map (· - cost))) (f v) (g v)) :
    Curbs stops (State.Keeps site bound) (x >>= f) (y >>= g) := by
  refine hx.bind_of fun s v t hs hrun => ⟨_, ?_, hf ?_ v⟩
  · intro bytes hbytes
    obtain ⟨bytes, rfl, rfl⟩ := Option.map_eq_some_iff.mp hbytes
    obtain ⟨hfits, hle⟩ := hs bytes rfl
    have hpaid := hy.remaining_add_le hcost hfits hrun
    obtain ⟨log, -, -, rfl⟩ := (hy s v t hfits).mp hrun
    exact ⟨hfits.after log, by omega⟩
  · rintro bytes rfl
    obtain ⟨hfits, hle⟩ := hs bytes rfl
    have hpaid := hy.remaining_add_le hcost hfits hrun
    omega

theorem bind_step (hx : Curbs stops (State.Keeps site bound) x y)
    (hy : Recognises site y language)
    (hf : ∀ v, Curbs stops (State.Keeps site bound) (f v) (g v)) :
    Curbs stops (State.Keeps site bound) (x >>= f) (y >>= g) := by
  have hfree : ∀ v log, language v log → 0 ≤ log.size := fun _ _ _ => Nat.zero_le _
  refine hx.bind_taking hy hfree fun _ v => ?_
  simpa using hf v

theorem collectFrom {step other : Nat → Step n α} {language : Nat → Language α}
    (h : ∀ position, Curbs stops (State.Keeps site bound) (step position) (other position))
    (hother : ∀ position, Recognises site (other position) (language position))
    (left position : Nat) :
    Curbs stops (State.Keeps site bound) (Decode.collectFrom step left position [])
      (Decode.collectFrom other left position []) := by
  induction left generalizing position with
  | zero => exact .refl _
  | succ left ih =>
      rw [collectFrom_succ, collectFrom_succ]
      refine (h position).bind_step (hother position) fun value => ?_
      rw [bind_pure_comp, bind_pure_comp]
      exact (ih (position + 1)).map _

theorem mapM {γ : Type} {step other : γ → Step n α} {language : γ → Language α}
    (h : ∀ c, Curbs stops (State.Keeps site bound) (step c) (other c))
    (hother : ∀ c, Recognises site (other c) (language c)) (cs : List γ) :
    Curbs stops (State.Keeps site bound) (cs.mapM step) (cs.mapM other) := by
  induction cs with
  | nil => exact .refl _
  | cons c cs ih =>
      rw [List.mapM_cons, List.mapM_cons]
      refine (h c).bind_step (hother c) fun value => ?_
      rw [bind_pure_comp, bind_pure_comp]
      exact ih.map _

end Curbs

end BinaryAst.Decode
