/-
# Library.Mutating — computations on a state that a failure does not roll back

A `Mutating` computation returns or raises, and in either case leaves a state: what it
wrote before it raised stays written.  `Keeps f` says that a part of the state is
written nowhere, `Reverts` that a raise leaves the state as it was.  A body that keeps
all but what a handler restores reverts under that handler (`revertsFrom_restoring`).

`Computes` compares a computation with a function from states to results: on success
they agree in value and state, on failure in what the error says.
-/
import OneLink.Library.Checked

namespace OneLink.Library

set_option autoImplicit false

/-- A result or an error, and the state either way. -/
def Mutating (σ ε α : Type) : Type := σ → Except ε α × σ

namespace Mutating

variable {σ ε α β : Type}

instance : Monad (Mutating σ ε) where
  pure a := fun s => (.ok a, s)
  bind m f := fun s =>
    match m s with
    | (.ok a, s') => f a s'
    | (.error e, s') => (.error e, s')

def read : Mutating σ ε σ := fun s => (.ok s, s)

def write (f : σ → σ) : Mutating σ ε Unit := fun s => (.ok (), f s)

def raise (e : ε) : Mutating σ ε α := fun s => (.error e, s)

/-- A call that does not touch the state. -/
def call (x : Except ε α) : Mutating σ ε α := fun s => (x, s)

def check (p : Prop) [Decidable p] (e : ε) : Mutating σ ε Unit :=
  if p then pure () else raise e

/-- `try: body`, `except: restore; raise`; the handler sees the state at entry and the
one the failure left. -/
def restoring (restore : σ → σ → σ) (body : Mutating σ ε α) : Mutating σ ε α := fun s =>
  match body s with
  | (.ok a, s') => (.ok a, s')
  | (.error e, s') => (.error e, restore s s')

theorem bind_apply (m : Mutating σ ε α) (f : α → Mutating σ ε β) (s : σ) :
    (m >>= f) s = match m s with
      | (.ok a, s') => f a s'
      | (.error e, s') => (.error e, s') := rfl

@[simp] theorem pure_apply (a : α) (s : σ) : (pure a : Mutating σ ε α) s = (.ok a, s) := rfl

@[simp] theorem read_apply (s : σ) : (read : Mutating σ ε σ) s = (.ok s, s) := rfl

@[simp] theorem write_apply (f : σ → σ) (s : σ) :
    (write f : Mutating σ ε Unit) s = (.ok (), f s) := rfl

@[simp] theorem raise_apply (e : ε) (s : σ) : (raise e : Mutating σ ε α) s = (.error e, s) := rfl

@[simp] theorem call_apply (x : Except ε α) (s : σ) : (call x : Mutating σ ε α) s = (x, s) := rfl

/-! ## Parts of the state that are not written -/

/-- The part `f` of the state is the same after a run, whether it returns or raises. -/
def Keeps (f : σ → β) (m : Mutating σ ε α) : Prop := ∀ s, f (m s).2 = f s

section Keeps

variable {γ : Type} {f : σ → γ}

theorem keeps_pure (a : α) : Keeps f (pure a : Mutating σ ε α) := fun _ => rfl

theorem keeps_read : Keeps f (read : Mutating σ ε σ) := fun _ => rfl

theorem keeps_raise (e : ε) : Keeps f (raise e : Mutating σ ε α) := fun _ => rfl

theorem keeps_call (x : Except ε α) : Keeps f (call x : Mutating σ ε α) := fun _ => rfl

theorem keeps_write {g : σ → σ} (same : ∀ s, f (g s) = f s) :
    Keeps f (write g : Mutating σ ε Unit) := same

theorem keeps_check (p : Prop) [Decidable p] (e : ε) :
    Keeps f (check p e : Mutating σ ε Unit) := by
  unfold check
  split
  · exact keeps_pure ()
  · exact keeps_raise e

theorem keeps_bind {m : Mutating σ ε α} {k : α → Mutating σ ε β} (first : Keeps f m)
    (rest : ∀ a, Keeps f (k a)) : Keeps f (m >>= k) := by
  intro s
  rw [bind_apply]
  have here := first s
  cases result : m s with
  | mk value s' =>
    rw [result] at here
    cases value with
    | ok a => exact (rest a s').trans here
    | error e => exact here

end Keeps

/-! ## Failures that leave the state as it was -/

/-- A raise from `s` leaves `s`. -/
def RevertsFrom (s : σ) (m : Mutating σ ε α) : Prop := ∀ e, (m s).1 = .error e → (m s).2 = s

/-- A raise leaves the state as it was. -/
def Reverts (m : Mutating σ ε α) : Prop := ∀ s, RevertsFrom s m

section Reverts

variable {s : σ}

theorem revertsFrom_pure (a : α) : RevertsFrom s (pure a : Mutating σ ε α) := fun _ _ => rfl

theorem RevertsFrom.of_read {k : σ → Mutating σ ε β} (rest : RevertsFrom s (k s)) :
    RevertsFrom s (read >>= k) := rest

theorem RevertsFrom.of_check {p : Prop} [Decidable p] {e : ε} {k : Unit → Mutating σ ε β}
    (rest : p → RevertsFrom s (k ())) : RevertsFrom s (check p e >>= k) := by
  by_cases holds : p
  · rw [check, if_pos holds]
    exact rest holds
  · rw [check, if_neg holds]
    exact fun _ _ => rfl

/-- After a first part that reverts, what follows has to go back to the entry of both. -/
theorem RevertsFrom.bind {m : Mutating σ ε α} {k : α → Mutating σ ε β} (first : RevertsFrom s m)
    (rest : ∀ a s', m s = (.ok a, s') → ∀ e, (k a s').1 = .error e → (k a s').2 = s) :
    RevertsFrom s (m >>= k) := by
  intro e raised
  rw [bind_apply] at raised ⊢
  cases result : m s with
  | mk value s' =>
    rw [result] at raised
    cases value with
    | ok a => exact rest a s' result e raised
    | error e' =>
      have here := first e' (by rw [result])
      rw [result] at here
      exact here

/-- A body that keeps what the handler does not restore reverts under the handler. -/
theorem revertsFrom_restoring {γ : Type} {f : σ → γ} {restore : σ → σ → σ}
    {body : Mutating σ ε α} (keeps : Keeps f body)
    (restores : ∀ s', f s' = f s → restore s s' = s) :
    RevertsFrom s (restoring restore body) := by
  intro e raised
  have kept := keeps s
  unfold restoring at raised ⊢
  cases result : body s with
  | mk value s' =>
    rw [result] at kept raised
    cases value with
    | ok a => simp at raised
    | error e' => exact restores s' kept

end Reverts

/-! ## Calls that succeed or change nothing -/

/-- From `s` the computation returns with `Q`, or raises and leaves `s`. -/
def Attempts (s : σ) (m : Mutating σ ε α) (Q : α → σ → Prop) : Prop :=
  match m s with
  | (.ok a, s') => Q a s'
  | (.error _, s') => s' = s

section Attempts

variable {s : σ} {Q : β → σ → Prop}

theorem Attempts.of_read {k : σ → Mutating σ ε β} (rest : Attempts s (k s) Q) :
    Attempts s (read >>= k) Q := rest

theorem Attempts.of_check {p : Prop} [Decidable p] {e : ε} {k : Unit → Mutating σ ε β}
    (rest : p → Attempts s (k ()) Q) : Attempts s (check p e >>= k) Q := by
  by_cases holds : p
  · rw [check, if_pos holds]
    exact rest holds
  · rw [check, if_neg holds]
    exact rfl

theorem Attempts.of_call {x : Except ε α} {k : α → Mutating σ ε β}
    (rest : ∀ a, x = .ok a → Attempts s (k a) Q) : Attempts s (call x >>= k) Q := by
  cases x with
  | ok a => exact rest a rfl
  | error e => exact rfl

theorem Attempts.bind {P : α → σ → Prop} {m : Mutating σ ε α} {k : α → Mutating σ ε β}
    (first : Attempts s m P) (rest : ∀ a s', P a s' → ∃ b s'', k a s' = (.ok b, s'') ∧ Q b s'') :
    Attempts s (m >>= k) Q := by
  unfold Attempts at first ⊢
  rw [bind_apply]
  cases result : m s with
  | mk value s' =>
    rw [result] at first
    cases value with
    | ok a =>
      obtain ⟨b, s'', returns, after⟩ := rest a s' first
      simp only [returns]
      exact after
    | error e => exact first

theorem Attempts.unchanged {m : Mutating σ ε β} (attempts : Attempts s m Q) {e : ε}
    (raised : (m s).1 = .error e) : (m s).2 = s := by
  unfold Attempts at attempts
  cases result : m s with
  | mk value s' =>
    rw [result] at attempts raised
    cases raised
    exact attempts

end Attempts

/-! ## Comparison with a function -/

variable {δ : Type}

/-- From `s` the computation returns what `r` says, in value and state, or raises what
`told` reads as the error of `r`. -/
def Computes (told : ε → δ) (m : Mutating σ ε α) (s : σ) (r : Except δ (α × σ)) : Prop :=
  match r with
  | .ok (a, s') => m s = (.ok a, s')
  | .error d => ∃ e, (m s).1 = .error e ∧ told e = d

section Computes

variable {told : ε → δ}

/-- What follows a computation that agrees with `r`; `f` reads its value and state. -/
theorem Computes.bind {γ : Type} {m : Mutating σ ε α} {k : α → Mutating σ ε β} {s : σ}
    {r : Except δ γ} {f : γ → α × σ} {q : γ → Except δ (β × σ)}
    (first : Computes told m s (r.map f))
    (rest : ∀ c, r = .ok c → Computes told (k (f c).1) (f c).2 (q c)) :
    Computes told (m >>= k) s (r >>= q) := by
  cases r with
  | ok c =>
    have here : m s = (.ok (f c).1, (f c).2) := first
    have next := rest c rfl
    show Computes told (m >>= k) s (q c)
    unfold Computes at next ⊢
    rw [bind_apply, here]
    exact next
  | error d =>
    obtain ⟨e, raised, reads⟩ := first
    refine ⟨e, ?_, reads⟩
    rw [bind_apply]
    cases result : m s with
    | mk value s' =>
      rw [result] at raised
      simp only at raised
      rw [raised]

theorem Computes.of_read {k : σ → Mutating σ ε β} {s : σ} {r : Except δ (β × σ)}
    (rest : Computes told (k s) s r) : Computes told (read >>= k) s r := rest

/-- A call that agrees with `x`, and what follows it. -/
theorem Computes.of_call {y : Except ε α} {x : Except δ α} {k : α → Mutating σ ε β} {s : σ}
    {q : α → Except δ (β × σ)} (agree : y.mapError told = x)
    (rest : ∀ a, x = .ok a → Computes told (k a) s (q a)) :
    Computes told (call y >>= k) s (x >>= q) := by
  subst agree
  cases y with
  | ok a => exact rest a rfl
  | error e => exact ⟨e, rfl, rfl⟩

theorem Computes.of_check {p p' : Prop} [Decidable p] [Decidable p'] {e : ε} {d : δ}
    {k : Unit → Mutating σ ε β} {s : σ} {q : Unit → Except δ (β × σ)} (same : p ↔ p')
    (agree : told e = d) (rest : p' → Computes told (k ()) s (q ())) :
    Computes told (check p e >>= k) s ((require p' d) >>= q) := by
  by_cases holds : p
  · rw [require_of (same.mp holds), check, if_pos holds]
    exact rest (same.mp holds)
  · rw [require_of_not (mt same.mpr holds), check, if_neg holds]
    exact ⟨e, rfl, agree⟩

/-- A handler does not change what is computed. -/
theorem Computes.restoring {restore : σ → σ → σ} {m : Mutating σ ε α} {s : σ}
    {r : Except δ (α × σ)} (body : Computes told m s r) :
    Computes told (restoring restore m) s r := by
  cases r with
  | ok result =>
    obtain ⟨a, s'⟩ := result
    have here : m s = (.ok a, s') := body
    show Mutating.restoring restore m s = (.ok a, s')
    unfold Mutating.restoring
    rw [here]
  | error d =>
    obtain ⟨e, raised, reads⟩ := body
    refine ⟨e, ?_, reads⟩
    unfold Mutating.restoring
    cases result : m s with
    | mk value s' =>
      rw [result] at raised
      simp only at raised
      rw [raised]

end Computes

end Mutating

end OneLink.Library
