/-
# Library.Run — invariants of whole runs

A run folds a step function over a list of actions.  `EachStep guard` says the
guard holds of every action at the state it is taken in; `run_invariant` is the
one induction that the results about runs share.
-/
import Mathlib.Logic.Basic

namespace OneLink.Library

set_option autoImplicit false

variable {S A : Type} (step : S → A → S)

def run (s : S) (actions : List A) : S := actions.foldl step s

/-- Every action of the run meets `guard` at the state it is taken in. -/
def EachStep (guard : S → A → Prop) : S → List A → Prop
  | _, [] => True
  | s, a :: rest => guard s a ∧ EachStep guard (step s a) rest

instance instDecidableEachStep (guard : S → A → Prop) [∀ s a, Decidable (guard s a)] :
    (s : S) → (actions : List A) → Decidable (EachStep step guard s actions)
  | _, [] => inferInstanceAs (Decidable True)
  | s, a :: rest =>
    haveI := instDecidableEachStep guard (step s a) rest
    inferInstanceAs (Decidable (_ ∧ _))

@[simp] theorem run_nil (s : S) : run step s [] = s := rfl

@[simp] theorem run_cons (s : S) (a : A) (rest : List A) :
    run step s (a :: rest) = run step (step s a) rest := rfl

theorem run_append (s : S) (early late : List A) :
    run step s (early ++ late) = run step (run step s early) late :=
  List.foldl_append

variable {step}

theorem eachStep_append {guard : S → A → Prop} {s : S} {early late : List A} :
    EachStep step guard s (early ++ late) ↔
      EachStep step guard s early ∧ EachStep step guard (run step s early) late := by
  induction early generalizing s with
  | nil => simp [EachStep]
  | cons a rest ih => simp only [List.cons_append, EachStep, ih, run_cons, and_assoc]

theorem eachStep_and {guard guard' : S → A → Prop} {s : S} {actions : List A} :
    EachStep step (fun s a => guard s a ∧ guard' s a) s actions ↔
      EachStep step guard s actions ∧ EachStep step guard' s actions := by
  induction actions generalizing s with
  | nil => simp [EachStep]
  | cons a rest ih => simp only [EachStep, ih, and_and_and_comm]

/-- A guard at each step is a guard at every split of the run. -/
theorem eachStep_iff_split {guard : S → A → Prop} {s : S} {actions : List A} :
    EachStep step guard s actions ↔
      ∀ early a late, actions = early ++ a :: late → guard (run step s early) a := by
  induction actions generalizing s with
  | nil => simp [EachStep]
  | cons b rest ih =>
    rw [EachStep, ih]
    constructor
    · rintro ⟨first, later⟩ early a late split
      obtain _ | ⟨c, early⟩ := early
      · obtain ⟨rfl, _⟩ := List.cons.inj split
        exact first
      · obtain ⟨rfl, behind⟩ := List.cons.inj split
        exact later early a late behind
    · intro splits
      exact ⟨splits [] b rest rfl, fun early a late split =>
        splits (b :: early) a late (by rw [split, List.cons_append])⟩

/-- What every guarded step preserves holds at the end of every guarded run. -/
theorem run_invariant {guard : S → A → Prop} {Inv : S → Prop}
    (preserved : ∀ s a, Inv s → guard s a → Inv (step s a))
    {s : S} {actions : List A} (initial : Inv s) (guarded : EachStep step guard s actions) :
    Inv (run step s actions) := by
  induction actions generalizing s with
  | nil => exact initial
  | cons a rest ih => exact ih (preserved s a initial guarded.1) guarded.2

/-- What every step preserves holds at the end of every run. -/
theorem run_preserves {Inv : S → Prop} (preserved : ∀ s a, Inv s → Inv (step s a)) {s : S}
    (actions : List A) (initial : Inv s) : Inv (run step s actions) := by
  induction actions generalizing s with
  | nil => exact initial
  | cons a rest ih => exact ih (preserved s a initial)

end OneLink.Library
