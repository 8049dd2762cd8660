/-
# Library.Sharing -- polynomial secret sharing over a field

A secret is the constant term of a polynomial, a share its value at a nonzero
position.  `atZero_of_degree_lt` is reconstruction: as many values as the degree
bound fix the value at zero.  `exists_unique_coeffs` and `top_eq_zero_iff` are
what secrecy rests on: one position fewer leaves every secret exactly one
coefficient vector, and only the secret that those values already determine has
a vector whose top coefficient vanishes.  Views that match each other one to one
have the same distribution (`uniform_map_eq`).
-/
import Mathlib.Data.List.GetD
import Mathlib.LinearAlgebra.Lagrange
import Mathlib.Probability.Distributions.Uniform

namespace OneLink.Library.Sharing

set_option autoImplicit false

open Polynomial

variable {F : Type} [Field F]

/-! ## Coefficient lists and polynomials -/

/-- Horner's rule on coefficients given from the constant term up. -/
def horner (coeffs : List F) (x : F) : F :=
  coeffs.foldr (fun coeff acc => acc * x + coeff) 0

/-- The polynomial with these coefficients, from the constant term up. -/
noncomputable def polynomial (coeffs : List F) : F[X] :=
  coeffs.foldr (fun coeff rest => rest * X + C coeff) 0

@[simp] theorem horner_nil (x : F) : horner [] x = 0 := rfl

@[simp] theorem horner_cons (coeff : F) (rest : List F) (x : F) :
    horner (coeff :: rest) x = horner rest x * x + coeff := rfl

@[simp] theorem polynomial_nil : polynomial ([] : List F) = 0 := rfl

@[simp] theorem polynomial_cons (coeff : F) (rest : List F) :
    polynomial (coeff :: rest) = polynomial rest * X + C coeff := rfl

theorem eval_polynomial (coeffs : List F) (x : F) : (polynomial coeffs).eval x = horner coeffs x := by
  induction coeffs with
  | nil => simp
  | cons coeff rest ih => simp [ih]

theorem coeff_polynomial (coeffs : List F) (i : Nat) :
    (polynomial coeffs).coeff i = coeffs.getD i 0 := by
  induction coeffs generalizing i with
  | nil => simp
  | cons coeff rest ih =>
    cases i with
    | zero => simp
    | succ i => simp [ih i]

theorem degree_polynomial (coeffs : List F) : (polynomial coeffs).degree < coeffs.length := by
  rw [degree_lt_iff_coeff_zero]
  intro i large
  rw [coeff_polynomial, List.getD_eq_default _ _ large]

/-- Every polynomial of degree below `n` has a list of `n` coefficients. -/
theorem exists_coeffs {p : F[X]} {n : Nat} (small : p.degree < n) :
    ∃ coeffs : List F, coeffs.length = n ∧ polynomial coeffs = p := by
  refine ⟨List.ofFn fun i : Fin n => p.coeff i, List.length_ofFn, ?_⟩
  ext i
  rw [coeff_polynomial]
  by_cases inside : i < n
  · simp [inside]
  · rw [List.getD_eq_default _ _ (by simpa using inside)]
    exact ((degree_lt_iff_coeff_zero p n).1 small i (Nat.le_of_not_lt inside)).symm

theorem polynomial_injective {as bs : List F} (lengths : as.length = bs.length)
    (same : polynomial as = polynomial bs) : as = bs := by
  refine List.ext_getElem lengths fun i inside inside' => ?_
  have coeffs := congrArg (fun p : F[X] => p.coeff i) same
  simpa [coeff_polynomial, inside, inside'] using coeffs

/-! ## The value at zero -/

variable [DecidableEq F]

/-- What the value at `x` contributes to the value at zero, among the positions `s`. -/
def weight (s : Finset F) (x : F) : F :=
  ∏ y ∈ s.erase x, (0 - y) / (x - y)

theorem eval_basis_zero (s : Finset F) (x : F) : (Lagrange.basis s id x).eval 0 = weight s x := by
  rw [Lagrange.basis, eval_prod, weight]
  refine Finset.prod_congr rfl fun y _ => ?_
  simp only [Lagrange.basisDivisor, id, eval_mul, eval_C, eval_sub, eval_X]
  rw [div_eq_mul_inv, mul_comm]

/-- The value at zero of the polynomial through the given points. -/
def atZero (s : Finset F) (values : F → F) : F :=
  ∑ x ∈ s, values x * weight s x

theorem eval_interpolate_zero (s : Finset F) (values : F → F) :
    (Lagrange.interpolate s id values).eval 0 = atZero s values := by
  rw [Lagrange.interpolate_apply, eval_finsetSum, atZero]
  exact Finset.sum_congr rfl fun x _ => by rw [eval_mul, eval_C, eval_basis_zero]

/-- **Reconstruction.**  As many values as the degree bound determine the value at zero. -/
theorem atZero_of_degree_lt {s : Finset F} {p : F[X]} (small : p.degree < s.card)
    {values : F → F} (sampled : ∀ x ∈ s, values x = p.eval x) : atZero s values = p.eval 0 := by
  have through := Lagrange.eq_interpolate_of_eval_eq values (Set.injOn_id _) small
    (fun x mem => (sampled x mem).symm)
  rw [← eval_interpolate_zero, ← through]

/-! ## Coefficient vectors through given shares -/

/-- One coefficient vector goes through a secret at zero and values at the given positions. -/
theorem exists_unique_coeffs {s : Finset F} (reserved : (0 : F) ∉ s) (values : F → F) (secret : F) :
    ∃! tail : List F, tail.length = s.card ∧
      ∀ x ∈ s, horner (secret :: tail) x = values x := by
  have points : (insert 0 s).card = s.card + 1 := Finset.card_insert_of_notMem reserved
  let target : F → F := fun x => if x = 0 then secret else values x
  have atTarget : ∀ x ∈ s, target x = values x := fun x mem =>
    if_neg fun zero : x = 0 => reserved (zero ▸ mem)
  have degree := Lagrange.degree_interpolate_lt target (Set.injOn_id ((insert 0 s : Finset F) : Set F))
  rw [points] at degree
  obtain ⟨coeffs, length, same⟩ := exists_coeffs degree
  have evals : ∀ x ∈ insert 0 s, horner coeffs x = target x := fun x mem => by
    rw [← eval_polynomial, same]
    exact Lagrange.eval_interpolate_at_node target (Set.injOn_id _) mem
  obtain _ | ⟨head, tail⟩ := coeffs
  · simp at length
  have headed : head = secret := by simpa [target] using evals 0 (Finset.mem_insert_self 0 s)
  subst headed
  refine ⟨tail, ⟨by simpa using length, fun x mem => ?_⟩, ?_⟩
  · rw [evals x (Finset.mem_insert_of_mem mem), atTarget x mem]
  · intro other ⟨otherLength, otherEvals⟩
    have small : (polynomial (head :: other)).degree < (insert 0 s).card := by
      rw [points, ← otherLength]
      exact degree_polynomial _
    have through := Lagrange.eq_interpolate_of_eval_eq target (Set.injOn_id _) small (by
      intro x mem
      rw [id, eval_polynomial]
      obtain rfl | mem := Finset.mem_insert.1 mem
      · simp [target]
      · rw [otherEvals x mem, atTarget x mem])
    have lists := polynomial_injective (by simp_all) (through.trans same.symm)
    exact (List.cons.inj lists).2

/-- The top coefficient vanishes exactly if one value fewer already determines the secret. -/
theorem top_eq_zero_iff {s : Finset F} (reserved : (0 : F) ∉ s) {values : F → F} {secret : F}
    {tail : List F} (length : tail.length = s.card)
    (through : ∀ x ∈ s, horner (secret :: tail) x = values x) :
    (polynomial (secret :: tail)).coeff s.card = 0 ↔ atZero s values = secret := by
  have evals : ∀ x ∈ s, values x = (polynomial (secret :: tail)).eval x := fun x mem => by
    rw [eval_polynomial, through x mem]
  have constant : (polynomial (secret :: tail)).eval 0 = secret := by simp
  have degree := degree_polynomial (secret :: tail)
  rw [List.length_cons, length] at degree
  constructor
  · intro vanishes
    have small : (polynomial (secret :: tail)).degree < s.card := by
      rw [degree_lt_iff_coeff_zero] at degree ⊢
      intro i large
      obtain rfl | above := Nat.eq_or_lt_of_le large
      · exact vanishes
      · exact degree i above
    rw [atZero_of_degree_lt small evals, constant]
  · intro determined
    have lower := Lagrange.degree_interpolate_lt values (Set.injOn_id (s : Set F))
    have same : polynomial (secret :: tail) = Lagrange.interpolate s id values := by
      refine eq_of_degrees_lt_of_eval_finset_eq (insert 0 s) ?_ ?_ fun x mem => ?_
      · rwa [Finset.card_insert_of_notMem reserved]
      · rw [Finset.card_insert_of_notMem reserved]
        exact lower.trans (by exact_mod_cast Nat.lt_succ_self s.card)
      · obtain rfl | mem := Finset.mem_insert.1 mem
        · rw [constant, eval_interpolate_zero, determined]
        · rw [← evals x mem]
          exact (Lagrange.eval_interpolate_at_node values (Set.injOn_id _) mem).symm
    rw [same]
    exact (degree_lt_iff_coeff_zero _ _).1 lower s.card le_rfl

/-! ## Distributions -/

/-- Two views of uniform randomness that match one to one are equally distributed. -/
theorem uniform_map_eq {α β : Type} [Fintype α] [Nonempty α] {f g : α → β}
    (forth : ∀ a, ∃! b, g b = f a) (back : ∀ b, ∃! a, f a = g b) :
    (PMF.uniformOfFintype α).map f = (PMF.uniformOfFintype α).map g := by
  classical
  choose matched same using fun a => (forth a).exists
  have injective : Function.Injective matched := by
    intro a a' equal
    refine (back (matched a)).unique (same a).symm ?_
    rw [equal, same a']
  have surjective : Function.Surjective matched := by
    intro b
    obtain ⟨a, reached, -⟩ := back b
    exact ⟨a, (forth a).unique (same a) reached.symm⟩
  ext view
  rw [PMF.map_apply, PMF.map_apply]
  refine Eq.trans ?_ ((Equiv.ofBijective matched ⟨injective, surjective⟩).tsum_eq _)
  refine tsum_congr fun a => ?_
  have moved : g (Equiv.ofBijective matched ⟨injective, surjective⟩ a) = f a := same a
  rw [PMF.uniformOfFintype_apply, PMF.uniformOfFintype_apply]
  exact if_congr (by rw [moved]) rfl rfl

end OneLink.Library.Sharing
