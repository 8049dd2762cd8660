/-
# Library.TrapLoop -- loops whose body may trap

A loop runs its body until the body leaves or stops.  It may run forever, so it takes fuel; `none`
is a loop that has not ended.  To know what it comes to, it is enough to say so of every state an
invariant holds of and to check one turn of the body (`Computes`): the loop then returns nothing
else (`Computes.sound`), and it does return once the fuel exceeds a measure that each turn lowers
(`Computes.total`).
-/
import OneLink.Library.Trap

namespace OneLink.Library

set_option autoImplicit false

variable {ε σ ρ : Type}

/-- One turn of a loop. -/
inductive Turn (σ ρ : Type) where
  | again (s : σ)
  | leave (r : ρ)
deriving DecidableEq

def loop (body : σ → Except (Stop ε) (Turn σ ρ)) :
    (fuel : Nat) → σ → Option (Except (Stop ε) ρ)
  | 0, _ => none
  | fuel + 1, s =>
    match body s with
    | .error stop => some (.error stop)
    | .ok (.leave r) => some (.ok r)
    | .ok (.again s') => loop body fuel s'

/-- A turn from `s` comes to `value s`, or leads to a smaller state that does. -/
def ComesTo (inv : σ → Prop) (measure : σ → Nat) (value : σ → Except (Stop ε) ρ) (s : σ) :
    Except (Stop ε) (Turn σ ρ) → Prop
  | .error stop => value s = .error stop
  | .ok (.leave r) => value s = .ok r
  | .ok (.again s') => inv s' ∧ measure s' < measure s ∧ value s' = value s

/-- From every state that `inv` holds of, the loop comes to `value`. -/
def Computes (body : σ → Except (Stop ε) (Turn σ ρ)) (inv : σ → Prop) (measure : σ → Nat)
    (value : σ → Except (Stop ε) ρ) : Prop :=
  ∀ s, inv s → ComesTo inv measure value s (body s)

variable {body : σ → Except (Stop ε) (Turn σ ρ)} {inv : σ → Prop} {measure : σ → Nat}
  {value : σ → Except (Stop ε) ρ}

theorem Computes.sound (computes : Computes body inv measure value) {fuel : Nat} {s : σ}
    {r : Except (Stop ε) ρ} (holds : inv s) (returned : loop body fuel s = some r) : r = value s := by
  induction fuel generalizing s with
  | zero => cases returned
  | succ fuel ih =>
    have turn := computes s holds
    rw [loop] at returned
    cases ran : body s with
    | error stop =>
      rw [ran] at returned turn
      obtain rfl := Option.some.inj returned
      exact turn.symm
    | ok next =>
      cases next with
      | leave r =>
        rw [ran] at returned turn
        obtain rfl := Option.some.inj returned
        exact turn.symm
      | again s' =>
        rw [ran] at returned turn
        obtain ⟨holds', -, same⟩ := turn
        exact (ih holds' returned).trans same

theorem Computes.total (computes : Computes body inv measure value) {fuel : Nat} {s : σ}
    (holds : inv s) (enough : measure s < fuel) : loop body fuel s = some (value s) := by
  induction fuel generalizing s with
  | zero => cases enough
  | succ fuel ih =>
    have turn := computes s holds
    rw [loop]
    cases ran : body s with
    | error stop =>
      rw [ran] at turn
      rw [turn]
    | ok next =>
      cases next with
      | leave r =>
        rw [ran] at turn
        rw [turn]
      | again s' =>
        rw [ran] at turn
        obtain ⟨holds', less, same⟩ := turn
        dsimp only
        rw [ih holds' (by omega), same]

/-- With fuel enough the computation comes to `value`, and with less to nothing else. -/
structure Returns (run : Nat → Option (Except (Stop ε) ρ)) (value : Except (Stop ε) ρ) : Prop where
  only : ∀ {fuel r}, run fuel = some r → r = value
  ends : ∃ fuel, run fuel = some value

theorem Computes.returns (computes : Computes body inv measure value) {s : σ} (holds : inv s) :
    Returns (fun fuel => loop body fuel s) (value s) :=
  ⟨computes.sound holds, _, computes.total holds (Nat.lt_succ_self _)⟩

theorem returns_some (value : Except (Stop ε) ρ) : Returns (fun _ => some value) value :=
  ⟨fun returned => (Option.some.inj returned).symm, 0, rfl⟩

/-- What follows a loop sees its result. -/
theorem Returns.map {τ : Type} {run : Nat → Option (Except (Stop ε) ρ)} {r : Except (Stop ε) ρ}
    (returns : Returns run r) (next : Except (Stop ε) ρ → Except (Stop ε) τ) :
    Returns (fun fuel => (run fuel).map next) (next r) := by
  refine ⟨fun {fuel} t returned => ?_, ?_⟩
  · obtain ⟨r', ran, rfl⟩ := Option.map_eq_some_iff.mp returned
    rw [returns.only ran]
  · obtain ⟨fuel, ran⟩ := returns.ends
    exact ⟨fuel, by rw [ran, Option.map_some]⟩

/-- Such a computation comes to a value that satisfies `P` exactly if its one value does. -/
theorem Returns.exists_iff {run : Nat → Option (Except (Stop ε) ρ)} {value : Except (Stop ε) ρ}
    (returns : Returns run value) (P : ρ → Prop) :
    (∃ fuel r, run fuel = some (.ok r) ∧ P r) ↔ ∃ r, value = .ok r ∧ P r := by
  constructor
  · rintro ⟨fuel, r, ran, holds⟩
    exact ⟨r, (returns.only ran).symm, holds⟩
  · rintro ⟨r, rfl, holds⟩
    obtain ⟨fuel, ran⟩ := returns.ends
    exact ⟨fuel, r, ran, holds⟩

end OneLink.Library
