import Tig.Lib.Program

set_option relaxedAutoImplicit false
set_option autoImplicit false

/-!
# Two runs side by side

A relation between two runs of programs of the error-and-state monad, for properties that compare
what a program returns in two states: non-interference, and the like. The runs go in step: they
both return or both fail, and the states that they end in are related again.

## Main definitions

* `Program.Agree` — two runs end alike.
* `Program.outcome` — how a run ends, without the state.

## Main results

* `Program.agree_bind`, `Program.agree_pure`, … — the rules of the monad.
* `Program.Agree.outcome` — runs that end alike in the same value have the same outcome.
-/

namespace Program

variable {ε ε' σ τ α β γ δ : Type}

/-- How a run ends: with a value, or with an error. -/
def outcome (x : EStateM ε σ α) (s : σ) : Except ε α :=
  match x s with
  | .ok a _ => .ok a
  | .error e _ => .error e

/-- The runs of `x` from `s` and of `y` from `t` end alike: both return, values that are related by
`V`, or both fail, with the same error; and `R` relates the states they end in. -/
def Agree (R : σ → τ → Prop) (V : α → β → Prop) (x : EStateM ε σ α) (y : EStateM ε τ β) (s : σ)
    (t : τ) : Prop :=
  match x s, y t with
  | .ok a s', .ok b t' => V a b ∧ R s' t'
  | .error e s', .error e' t' => e = e' ∧ R s' t'
  | _, _ => False

variable {R : σ → τ → Prop} {V : α → β → Prop} {W : γ → δ → Prop} {x : EStateM ε σ α}
  {y : EStateM ε τ β} {s : σ} {t : τ}

theorem agree_pure {a : α} {b : β} (hR : R s t) (hV : V a b) :
    Agree R V (pure a : EStateM ε σ α) (pure b) s t :=
  ⟨hV, hR⟩

theorem agree_throw (e : ε) (hR : R s t) :
    Agree R V (throw e : EStateM ε σ α) (throw e) s t :=
  ⟨rfl, hR⟩

/-- Reading the state gives related states. -/
theorem agree_get (hR : R s t) : Agree R R (get : EStateM ε σ σ) get s t := ⟨hR, hR⟩

/-- **Sequencing.** The second programs are compared where the first ones have returned. -/
theorem agree_bind {f : α → EStateM ε σ γ} {g : β → EStateM ε τ δ} (h : Agree R V x y s t)
    (hfg : ∀ a s' b t', x s = .ok a s' → y t = .ok b t' → V a b → R s' t' →
      Agree R W (f a) (g b) s' t') :
    Agree R W (x >>= f) (y >>= g) s t := by
  unfold Agree at h
  show Agree R W (EStateM.bind x f) (EStateM.bind y g) s t
  unfold Agree EStateM.bind
  cases hx : x s with
  | ok a s' =>
    cases hy : y t with
    | ok b t' =>
      rw [hx, hy] at h
      exact hfg a s' b t' hx hy h.1 h.2
    | error e t' =>
      rw [hx, hy] at h
      exact h.elim
  | error e s' =>
    cases hy : y t with
    | ok b t' =>
      rw [hx, hy] at h
      exact h.elim
    | error e' t' =>
      rw [hx, hy] at h
      exact h

/-- The same pure computation. -/
theorem agree_fromExcept (r : Except ε α) (hR : R s t) :
    Agree R Eq (fromExcept r : EStateM ε σ α) (fromExcept r) s t := by
  cases r with
  | ok a => exact ⟨rfl, hR⟩
  | error e => exact ⟨rfl, hR⟩

/-- Translating the errors of both programs in the same way. -/
theorem agree_adaptExcept (f : ε → ε') (h : Agree R V x y s t) :
    Agree R V (EStateM.adaptExcept f x) (EStateM.adaptExcept f y) s t := by
  unfold Agree at h ⊢
  unfold EStateM.adaptExcept
  revert h
  cases x s <;> cases y t
  · exact fun h => h
  · exact fun h => h.elim
  · exact fun h => h.elim
  · exact fun h => ⟨congrArg f h.1, h.2⟩

/-- **Runs that end alike** in equal values have the same outcome. -/
theorem Agree.outcome {x y : EStateM ε σ α} {R : σ → σ → Prop} {s t : σ}
    (h : Agree R Eq x y s t) : outcome x s = outcome y t := by
  unfold Agree at h
  unfold Program.outcome
  revert h
  cases x s <;> cases y t
  · exact fun h => congrArg Except.ok h.1
  · exact fun h => h.elim
  · exact fun h => h.elim
  · exact fun h => congrArg Except.error h.1

/-- **Sequencing**, where the states after the second programs are related by less. -/
theorem agree_bind_of {S : σ → τ → Prop} {f : α → EStateM ε σ γ} {g : β → EStateM ε τ δ}
    (h : Agree R V x y s t) (hS : ∀ s' t', R s' t' → S s' t')
    (hfg : ∀ a s' b t', V a b → R s' t' → Agree S W (f a) (g b) s' t') :
    Agree S W (x >>= f) (y >>= g) s t := by
  unfold Agree at h
  show Agree S W (EStateM.bind x f) (EStateM.bind y g) s t
  unfold Agree EStateM.bind
  cases hx : x s with
  | ok a s' =>
    cases hy : y t with
    | ok b t' =>
      rw [hx, hy] at h
      exact hfg a s' b t' h.1 h.2
    | error e t' =>
      rw [hx, hy] at h
      exact h.elim
  | error e s' =>
    cases hy : y t with
    | ok b t' =>
      rw [hx, hy] at h
      exact h.elim
    | error e' t' =>
      rw [hx, hy] at h
      exact ⟨h.1, hS s' t' h.2⟩

/-- Programs that return, each on its own. -/
theorem agree_of_post {Q : α → σ → Prop} {Q' : β → τ → Prop} (hx : Post x s Q fun _ _ => False)
    (hy : Post y t Q' fun _ _ => False)
    (h : ∀ a s' b t', Q a s' → Q' b t' → V a b ∧ R s' t') : Agree R V x y s t := by
  unfold Post at hx hy
  unfold Agree
  cases hxs : x s with
  | ok a s' =>
    cases hyt : y t with
    | ok b t' =>
      rw [hxs] at hx
      rw [hyt] at hy
      exact h a s' b t' hx hy
    | error e t' =>
      rw [hyt] at hy
      exact hy.elim
  | error e s' =>
    rw [hxs] at hx
    exact hx.elim

/-- Programs that fail, each on its own, with the same error. -/
theorem agree_of_post_error {e : ε} {Q : σ → Prop} {Q' : τ → Prop}
    (hx : Post x s (fun _ _ => False) fun e' s' => e' = e ∧ Q s')
    (hy : Post y t (fun _ _ => False) fun e' t' => e' = e ∧ Q' t')
    (h : ∀ s' t', Q s' → Q' t' → R s' t') : Agree R V x y s t := by
  unfold Post at hx hy
  unfold Agree
  cases hxs : x s with
  | ok a s' =>
    rw [hxs] at hx
    exact hx.elim
  | error e₁ s' =>
    cases hyt : y t with
    | ok b t' =>
      rw [hyt] at hy
      exact hy.elim
    | error e₂ t' =>
      rw [hxs] at hx
      rw [hyt] at hy
      exact ⟨hx.1.trans hy.1.symm, h s' t' hx.2 hy.2⟩

theorem Agree.mono {R' : σ → τ → Prop} {V' : α → β → Prop} (h : Agree R V x y s t)
    (hV : ∀ a b, V a b → V' a b) (hR : ∀ s' t', R s' t' → R' s' t') : Agree R' V' x y s t := by
  unfold Agree at h ⊢
  revert h
  cases x s <;> cases y t
  · exact fun h => ⟨hV _ _ h.1, hR _ _ h.2⟩
  · exact fun h => h.elim
  · exact fun h => h.elim
  · exact fun h => ⟨h.1, hR _ _ h.2⟩

/-- When the one run returns, so does the other. -/
theorem Agree.ok (h : Agree R V x y s t) {a : α} {s' : σ} (hx : x s = .ok a s') :
    ∃ b t', y t = .ok b t' ∧ V a b ∧ R s' t' := by
  unfold Agree at h
  rw [hx] at h
  cases hy : y t with
  | ok b t' =>
    rw [hy] at h
    exact ⟨b, t', rfl, h.1, h.2⟩
  | error e t' =>
    rw [hy] at h
    exact h.elim

/-- A program that cannot return fails with an error that meets its postcondition. -/
theorem Post.outcome_error {x : EStateM ε σ α} {E : ε → σ → Prop}
    (h : Post x s (fun _ _ => False) E) :
    ∃ e s', Program.outcome x s = .error e ∧ E e s' := by
  unfold Program.outcome
  cases hx : x s with
  | ok a s' => exact (h.ok hx).elim
  | error e s' => exact ⟨e, s', rfl, h.error hx⟩

end Program
