import Mathlib.Logic.Basic

set_option relaxedAutoImplicit false
set_option autoImplicit false

/-!
# Programs with state and errors

Postconditions for programs of the error-and-state monad `EStateM ε σ`, in which the state
reached before an error is kept (a program that fails half way has done the first half).
A postcondition has two parts, one for a normal result and one for an error.

## Main definitions

* `Program.Post` — the outcome of a program run from a state meets its postcondition.
* `Program.fromExcept` — a pure computation that may fail, as a program.
* `Program.attempt` — run a program, turning its error into an absent result.

## Main results

* `Program.post_bind`, `Program.post_pure`, `Program.post_throw` — the rules of the monad.
* `Program.Post.mono`, `Program.Post.and` — consequence and conjunction.
* `Program.Post.ok`, `Program.Post.error` — what a run that is known says.
* `Program.except_bind_eq_ok`, `Program.except_bind_eq_error` — how a pure computation that may
  fail ends, one step at a time.
-/

namespace Program

variable {ε σ α β : Type}

/-- The outcome of `x` run from `s` meets `Q` when it is a result and `E` when it is an
error. -/
def Post (x : EStateM ε σ α) (s : σ) (Q : α → σ → Prop) (E : ε → σ → Prop) : Prop :=
  match x s with
  | .ok a s' => Q a s'
  | .error e s' => E e s'

/-- A pure computation that may fail, run as a program: it leaves the state alone. -/
def fromExcept (r : Except ε α) : EStateM ε σ α :=
  match r with
  | .ok a => pure a
  | .error e => throw e

/-- Run `x` and turn an error into `none`, keeping whatever `x` did to the state. -/
def attempt (x : EStateM ε σ α) : EStateM ε σ (Option α) := fun s =>
  match x s with
  | .ok a s' => .ok (some a) s'
  | .error _ s' => .ok none s'

/-- A sequence returns what its second step returns for what the first has returned. -/
theorem except_bind_eq_ok {r : Except ε α} {f : α → Except ε β} {b : β} :
    (r >>= f) = .ok b ↔ ∃ a, r = .ok a ∧ f a = .ok b := by
  cases r <;> simp [bind, Except.bind]

/-- A sequence fails as its first step or as its second. -/
theorem except_bind_eq_error {r : Except ε α} {f : α → Except ε β} {e : ε} :
    (r >>= f) = .error e ↔ r = .error e ∨ ∃ a, r = .ok a ∧ f a = .error e := by
  cases r <;> simp [bind, Except.bind]

/-- Two sequences with the same first step agree when their second steps do. -/
theorem except_bind_congr {r r' : Except ε α} {f g : α → Except ε β} (h : r = r')
    (hfg : ∀ a, r = .ok a → f a = g a) : (r >>= f) = (r' >>= g) := by
  subst h
  cases r with
  | error e => rfl
  | ok a => exact hfg a rfl

/-- A result is the same once errors have been translated. -/
theorem eq_ok_of_mapError {ε' : Type} {f : ε → ε'} {r : Except ε α} {a : α}
    (h : r.mapError f = .ok a) : r = .ok a := by
  cases r with
  | ok b => exact congrArg Except.ok (Except.ok.inj h)
  | error e => cases h

variable {x : EStateM ε σ α} {s : σ} {Q Q' : α → σ → Prop} {E E' : ε → σ → Prop}

/-- A returned value meets what is asked of the value. -/
@[simp] theorem post_pure (a : α) : Post (pure a : EStateM ε σ α) s Q E ↔ Q a s := Iff.rfl

/-- A thrown error meets what is asked of the error. -/
@[simp] theorem post_throw (e : ε) : Post (throw e : EStateM ε σ α) s Q E ↔ E e s := Iff.rfl

/-- Sequencing: the first program must establish what the second needs. -/
@[simp] theorem post_bind (f : α → EStateM ε σ β) {R : β → σ → Prop} :
    Post (x >>= f) s R E ↔ Post x s (fun a s' => Post (f a) s' R E) E := by
  simp only [Post, bind, EStateM.bind]
  cases x s <;> rfl

/-- Mapping a function over the result. -/
@[simp] theorem post_map (f : α → β) {R : β → σ → Prop} :
    Post (f <$> x) s R E ↔ Post x s (fun a s' => R (f a) s') E := by
  simp only [Post, Functor.map, EStateM.map]
  cases x s <;> rfl

@[simp] theorem post_get {R : σ → σ → Prop} :
    Post (get : EStateM ε σ σ) s R E ↔ R s s := Iff.rfl

@[simp] theorem post_modify (f : σ → σ) {R : PUnit → σ → Prop} :
    Post (modify f : EStateM ε σ PUnit) s R E ↔ R ⟨⟩ (f s) := Iff.rfl

@[simp] theorem post_set (t : σ) {R : PUnit → σ → Prop} :
    Post (set t : EStateM ε σ PUnit) s R E ↔ R ⟨⟩ t := Iff.rfl

@[simp] theorem post_fromExcept (r : Except ε α) :
    Post (fromExcept r : EStateM ε σ α) s Q E ↔
      (∀ a, r = .ok a → Q a s) ∧ ∀ e, r = .error e → E e s := by
  cases r <;> simp [fromExcept]

@[simp] theorem post_attempt {R : Option α → σ → Prop} :
    Post (attempt x) s R E ↔ Post x s (fun a s' => R (some a) s') (fun _ s' => R none s') := by
  simp only [Post, attempt]
  cases x s <;> rfl

/-- Handling an error: the handler starts in the state the error left. -/
@[simp] theorem post_tryCatch (handle : ε → EStateM ε σ α) :
    Post (tryCatch x handle) s Q E ↔ Post x s Q (fun e s' => Post (handle e) s' Q E) := by
  simp only [Post, tryCatch, tryCatchThe, MonadExceptOf.tryCatch]
  delta EStateM.tryCatch
  cases x s <;> rfl

/-- Translating the errors of a program. -/
@[simp] theorem post_adaptExcept {ε' : Type} (f : ε → ε') {E : ε' → σ → Prop} :
    Post (EStateM.adaptExcept f x) s Q E ↔ Post x s Q (fun e s' => E (f e) s') := by
  simp only [Post, EStateM.adaptExcept]
  cases x s <;> rfl

@[simp] theorem post_ite (c : Prop) [Decidable c] (y : EStateM ε σ α) :
    Post (if c then x else y) s Q E ↔ (c → Post x s Q E) ∧ (¬c → Post y s Q E) := by
  by_cases h : c <;> simp [h]

/-- Consequence: a postcondition may be weakened. -/
theorem Post.mono (h : Post x s Q E) (hQ : ∀ a s', Q a s' → Q' a s')
    (hE : ∀ e s', E e s' → E' e s') : Post x s Q' E' := by
  unfold Post at h ⊢
  cases hx : x s with
  | ok a s' => rw [hx] at h; exact hQ a s' h
  | error e s' => rw [hx] at h; exact hE e s' h

/-- Two postconditions of one run hold together. -/
theorem Post.and (h : Post x s Q E) (h' : Post x s Q' E') :
    Post x s (fun a s' => Q a s' ∧ Q' a s') (fun e s' => E e s' ∧ E' e s') := by
  unfold Post at h h' ⊢
  cases hx : x s with
  | ok a s' => rw [hx] at h h'; exact ⟨h, h'⟩
  | error e s' => rw [hx] at h h'; exact ⟨h, h'⟩

/-- What a postcondition says of a run that returned. -/
theorem Post.ok (h : Post x s Q E) {a : α} {s' : σ} (hx : x s = .ok a s') : Q a s' := by
  unfold Post at h
  rwa [hx] at h

/-- What a postcondition says of a run that failed. -/
theorem Post.error (h : Post x s Q E) {e : ε} {s' : σ} (hx : x s = .error e s') : E e s' := by
  unfold Post at h
  rwa [hx] at h

/-- A postcondition holds as soon as it holds of the outcome, whichever it is. -/
theorem Post.of_cases (hok : ∀ a s', x s = .ok a s' → Q a s')
    (herr : ∀ e s', x s = .error e s' → E e s') : Post x s Q E := by
  unfold Post
  cases hx : x s with
  | ok a s' => exact hok a s' hx
  | error e s' => exact herr e s' hx

/-- Two programs are equal when one meets every postcondition the other meets. -/
theorem eq_of_post {y : EStateM ε σ α} (h : ∀ s Q E, Post y s Q E → Post x s Q E) : x = y := by
  funext s
  have hy : Post y s (fun a s' => y s = .ok a s') (fun e s' => y s = .error e s') :=
    .of_cases (fun _ _ h => h) (fun _ _ h => h)
  have hx := h s _ _ hy
  unfold Post at hx
  cases hxs : x s with
  | ok a s' => rw [hxs] at hx; exact hx.symm
  | error e s' => rw [hxs] at hx; exact hx.symm

/-- A sequence goes on from where a first program that returned has ended. -/
theorem run_bind_ok (f : α → EStateM ε σ β) {a : α} {s' : σ} (h : x s = .ok a s') :
    (x >>= f) s = f a s' := by
  change EStateM.bind x f s = _
  unfold EStateM.bind
  rw [h]

/-- A sequence fails as its first program does. -/
theorem run_bind_error (f : α → EStateM ε σ β) {e : ε} {s' : σ} (h : x s = .error e s') :
    (x >>= f) s = .error e s' := by
  change EStateM.bind x f s = _
  unfold EStateM.bind
  rw [h]

/-- A program that cannot fail returns. -/
theorem Post.exists_ok (h : Post x s Q (fun _ _ => False)) :
    ∃ a s', x s = .ok a s' ∧ Q a s' := by
  unfold Post at h
  cases hx : x s with
  | ok a s' => rw [hx] at h; exact ⟨a, s', rfl, h⟩
  | error e s' => rw [hx] at h; exact h.elim

/-- The state a run ends in, whether it returned or failed. -/
def final (x : EStateM ε σ α) (s : σ) : σ :=
  match x s with
  | .ok _ s' => s'
  | .error _ s' => s'

/-- Does a run return? -/
def returns (x : EStateM ε σ α) (s : σ) : Bool :=
  match x s with
  | .ok _ _ => true
  | .error _ _ => false

/-- A run that returns ends in its final state. -/
theorem exists_eq_final (h : returns x s = true) : ∃ a, x s = .ok a (final x s) := by
  unfold returns at h
  unfold final
  cases hx : x s with
  | ok a s' => exact ⟨a, rfl⟩
  | error e s' => rw [hx] at h; cases h

/-- What holds of the final state of a run, read off a postcondition that does not care how
the run ended. -/
theorem Post.final {P : σ → Prop} (h : Post x s (fun _ s' => P s') (fun _ s' => P s')) :
    P (Program.final x s) := by
  unfold Post at h
  unfold Program.final
  cases hx : x s with
  | ok a s' => rw [hx] at h; exact h
  | error e s' => rw [hx] at h; exact h

/-- What is known of the state in which a run ends. -/
theorem Post.of_final {P : σ → Prop} (h : P (Program.final x s)) :
    Post x s (fun _ s' => P s') (fun _ s' => P s') := by
  refine .of_cases (fun a s' hx => ?_) (fun e s' hx => ?_)
  · rwa [Program.final, hx] at h
  · rwa [Program.final, hx] at h

end Program
