/-
# Library.Peeling -- the peeling closure of a set of equations

Each equation names some unknowns.  An equation all of whose unknowns but one are
known makes the last one known; `Peeled` is the least set of unknowns closed under
this rule (`peeled_closed`, `peeled_least`), and it depends on which equations are
held, not on the order in which they came.
-/
import Mathlib.Logic.Basic

namespace OneLink.Library

set_option autoImplicit false

variable {E V : Type}

/-- A set of unknowns that the equations held add nothing to. -/
def PeelClosed (unknowns : E → List V) (held : E → Prop) (known : V → Prop) : Prop :=
  ∀ e, held e → ∀ v ∈ unknowns e, (∀ w ∈ unknowns e, w ≠ v → known w) → known v

/-- The unknowns that peeling makes known. -/
inductive Peeled (unknowns : E → List V) (held : E → Prop) : V → Prop where
  | last {e : E} {v : V} (here : held e) (member : v ∈ unknowns e)
      (others : ∀ w ∈ unknowns e, w ≠ v → Peeled unknowns held w) : Peeled unknowns held v

variable {unknowns : E → List V} {held held' : E → Prop}

theorem peeled_closed : PeelClosed unknowns held (Peeled unknowns held) :=
  fun _ here _ member others => .last here member others

theorem peeled_least {known : V → Prop} (closed : PeelClosed unknowns held known) {v : V}
    (peeled : Peeled unknowns held v) : known v := by
  induction peeled with
  | last here member _ ih => exact closed _ here _ member ih

theorem peeled_mono (more : ∀ e, held e → held' e) {v : V} (peeled : Peeled unknowns held v) :
    Peeled unknowns held' v :=
  peeled_least (fun _ here _ member others => .last (more _ here) member others) peeled

end OneLink.Library
