import BinaryAst.Proofs.Arena.Decoder
/-!
# BinaryAst.Proofs.Arena.Simulation

Steps that do by handles what other steps do without.

`Simulates` says that, from any two states that are related, the step by handles ends as the
other one does: with the image of its value, or refusing the container with the very same error.
That leaves no room for the two ways of stopping that only a decoder by handles has. The
relation may be another one afterwards, as when a stream was opened, and yet another where the
container is refused. `Mimics` is the case of one relation all along, as it is within a section.
Steps that are put together from simulated steps are simulated.
-/

namespace BinaryAst.Decode

variable {σ τ α β γ δ : Type}

/-- From states that `pre` relates, the second step ends as the first does: in states that `post`
relates, with the image of the value, or in states that `fail` relates, with the error. -/
def Simulates (pre : σ → τ → Prop) (g : α → β) (x : EStateM DecodeError σ α)
    (y : EStateM Stop τ β) (post : α → σ → τ → Prop) (fail : σ → τ → Prop) : Prop :=
  ∀ s a, pre s a → match x s with
    | .ok v t => ∃ b, y a = .ok (g v) b ∧ post v t b
    | .error e t => ∃ b, y a = .error (.refused e) b ∧ fail t b

namespace Simulates

variable {pre : σ → τ → Prop} {g : α → β} {h : γ → δ} {x : EStateM DecodeError σ α}
  {y : EStateM Stop τ β} {post : α → σ → τ → Prop} {fail : σ → τ → Prop}

/-- `pre` may be stronger, `post` and `fail` weaker. -/
theorem mono {pre' : σ → τ → Prop} {post' : α → σ → τ → Prop} {fail' : σ → τ → Prop}
    (hx : Simulates pre g x y post fail) (hpre : ∀ s a, pre' s a → pre s a)
    (hpost : ∀ v s a, post v s a → post' v s a) (hfail : ∀ s a, fail s a → fail' s a) :
    Simulates pre' g x y post' fail' := by
  intro s a hsa
  have hrun := hx s a (hpre s a hsa)
  cases hxs : x s with
  | ok v t =>
      rw [hxs] at hrun
      obtain ⟨b, hy, hb⟩ := hrun
      exact ⟨b, hy, hpost v t b hb⟩
  | error e t =>
      rw [hxs] at hrun
      obtain ⟨b, hy, hb⟩ := hrun
      exact ⟨b, hy, hfail t b hb⟩

theorem pure {v : α} {w : β} (hv : g v = w) (hpost : ∀ s a, pre s a → post v s a) :
    Simulates pre g (Pure.pure v) (Pure.pure w) post fail := fun s a hsa => by
  subst hv
  exact ⟨a, rfl, hpost s a hsa⟩

theorem throw (e : DecodeError) (hfail : ∀ s a, pre s a → fail s a) :
    Simulates pre g (throw e) (MonadExceptOf.throw (Stop.refused e)) post fail :=
  fun s a hsa => ⟨a, rfl, hfail s a hsa⟩

/-- `Simulates` is closed under `>>=`: what comes behind the first step is simulated from the states
that this ends in, for each value of it. What is refused on the way stays refused. -/
theorem bind {k : α → EStateM DecodeError σ γ} {l : β → EStateM Stop τ δ}
    {after : γ → σ → τ → Prop} (hx : Simulates pre g x y post fail)
    (hk : ∀ v, Simulates (post v) h (k v) (l (g v)) after fail) :
    Simulates pre h (x >>= k) (y >>= l) after fail := by
  intro s a hsa
  have hrun := hx s a hsa
  cases hxs : x s with
  | ok v t =>
      rw [hxs] at hrun
      obtain ⟨b, hy, hb⟩ := hrun
      rw [bind_of_ok hxs, bind_of_ok hy]
      exact hk v t b hb
  | error e t =>
      rw [hxs] at hrun
      obtain ⟨b, hy, hb⟩ := hrun
      rw [bind_of_error hxs, bind_of_error hy]
      exact ⟨b, rfl, hb⟩

/-- Values may be mapped on both sides, with another image as long as it is that of the mapped
value. -/
theorem map {k : α → γ} {l : β → δ} {after : γ → σ → τ → Prop}
    (hx : Simulates pre g x y post fail) (hk : ∀ v, h (k v) = l (g v))
    (hafter : ∀ v s a, post v s a → after (k v) s a) :
    Simulates pre h (k <$> x) (l <$> y) after fail := by
  rw [map_eq_pure_bind, map_eq_pure_bind]
  exact hx.bind fun v => .pure (hk v) (hafter v)

/-- Values may be mapped by `<$>` on one side only: the decoder by handles has put into its state
what the other one hands on. -/
theorem map_left {k : α → γ} {h : γ → β} {after : γ → σ → τ → Prop}
    (hx : Simulates pre g x y post fail) (hk : ∀ v, h (k v) = g v)
    (hafter : ∀ v s a, post v s a → after (k v) s a) :
    Simulates pre h (k <$> x) y after fail := by
  rw [← id_map y]
  exact hx.map hk hafter

/-- Both sides go the same way. The conditions may be spelled differently. -/
theorem ite {p q : Prop} [Decidable p] [Decidable q] {x' : EStateM DecodeError σ α}
    {y' : EStateM Stop τ β} (hpq : p ↔ q) (hx : p → Simulates pre g x y post fail)
    (hx' : ¬p → Simulates pre g x' y' post fail) :
    Simulates pre g (if p then x else x') (if q then y else y') post fail := by
  by_cases hp : p
  · rw [if_pos hp, if_pos (hpq.mp hp)]
    exact hx hp
  · rw [if_neg hp, if_neg (mt hpq.mpr hp)]
    exact hx' hp

/-- A look-up in the state (`MonadState.get`) that only the decoder by handles makes. The relation
settles what is found, so the look-up is gone before the steps are compared. -/
theorem get {l : τ → EStateM Stop τ β} (hl : ∀ s a, pre s a → l a = y)
    (hx : Simulates pre g x y post fail) : Simulates pre g x (MonadState.get >>= l) post fail :=
  fun s a hsa => by
    rw [get_bind_eq, hl s a hsa]
    exact hx s a hsa

/-- A part `p` of the relation that is about no state may be taken out of it. -/
theorem assume {p : Prop} (hx : p → Simulates pre g x y post fail) :
    Simulates (fun s a => p ∧ pre s a) g x y post fail :=
  fun s a hsa => hx hsa.1 s a hsa.2

/-- A `modify` of its state that the decoder by handles makes on its own. -/
theorem modify {f : τ → τ} {l : Unit → EStateM Stop τ β} {mid : σ → τ → Prop}
    (hf : ∀ s a, pre s a → mid s (f a)) (hx : Simulates mid g x (l ()) post fail) :
    Simulates pre g x (modify f >>= l) post fail :=
  fun s a hsa => hx s (f a) (hf s a hsa)

end Simulates

/-- From states that are related, the second step ends as the first does, in related states. -/
abbrev Mimics (R : σ → τ → Prop) (g : α → β) (x : EStateM DecodeError σ α)
    (y : EStateM Stop τ β) : Prop :=
  Simulates R g x y (fun _ => R) R

namespace Mimics

variable {R : σ → τ → Prop} {g : α → β} {h : γ → δ} {x : EStateM DecodeError σ α}
  {y : EStateM Stop τ β}

theorem congr {g' : α → β} (hx : Mimics R g x y) (hg : ∀ v, g v = g' v) : Mimics R g' x y := by
  obtain rfl : g = g' := funext hg
  exact hx

theorem pure {v : α} {w : β} (hv : g v = w) : Mimics R g (Pure.pure v) (Pure.pure w) :=
  Simulates.pure hv fun _ _ hsa => hsa

theorem throw (e : DecodeError) :
    Mimics R g (throw e) (MonadExceptOf.throw (Stop.refused e)) :=
  Simulates.throw e fun _ _ hsa => hsa

theorem map {k : α → γ} {l : β → δ} (hx : Mimics R g x y) (hk : ∀ v, h (k v) = l (g v)) :
    Mimics R h (k <$> x) (l <$> y) :=
  Simulates.map hx hk fun _ _ _ hsa => hsa

/-- `collectFrom` over positions, item by item. -/
theorem collectFrom {step : Nat → EStateM DecodeError σ α} {other : Nat → EStateM Stop τ β}
    (hstep : ∀ position, Mimics R g (step position) (other position)) (left position : Nat) :
    Mimics R (List.map g) (Decode.collectFrom step left position [])
      (Decode.collectFrom other left position []) := by
  induction left generalizing position with
  | zero => exact Mimics.pure rfl
  | succ left ih =>
      rw [Decode.collectFrom_succ, Decode.collectFrom_succ]
      exact (hstep position).bind fun value => (ih (position + 1)).bind fun rest => Mimics.pure rfl

theorem mapM {step : γ → EStateM DecodeError σ α} {other : γ → EStateM Stop τ β}
    (hstep : ∀ c, Mimics R g (step c) (other c)) (cs : List γ) :
    Mimics R (List.map g) (cs.mapM step) (cs.mapM other) := by
  induction cs with
  | nil => exact Mimics.pure rfl
  | cons c cs ih =>
      rw [List.mapM_cons, List.mapM_cons]
      exact (hstep c).bind fun value => ih.bind fun rest => Mimics.pure rfl

end Mimics

end BinaryAst.Decode
