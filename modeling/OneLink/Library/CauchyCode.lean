/-
# Library.CauchyCode -- a systematic code whose parities are Cauchy sums

The first `k` places of a word are its data, each later place `r` is the sum of
the data divided by `node r - node c`.  Any `k` places determine the data
(`values_determine`): the data still unknown are the weights of an interpolation
polynomial of smaller degree than the number of parities at which it vanishes.
-/
import Mathlib.LinearAlgebra.Lagrange

namespace OneLink.Library.CauchyCode

set_option autoImplicit false

open Finset Polynomial

variable {F : Type} [Field F]

/-- The value at a place: a datum as it is, or a parity of all the data. -/
def value (k : Nat) (node data : Nat → F) (r : Nat) : F :=
  if r < k then data r else ∑ c ∈ range k, (node r - node c)⁻¹ * data c

/-- The polynomial whose values are the data, each scaled by the weight of its node. -/
noncomputable def scaled (missing : Finset Nat) (node data : Nat → F) : F[X] :=
  Lagrange.interpolate missing node fun c => (Lagrange.nodalWeight missing node c)⁻¹ * data c

theorem eval_scaled {missing : Finset Nat} {node : Nat → F} (data : Nat → F) {point : F}
    (distinct : Set.InjOn node missing) (apart : ∀ c ∈ missing, point ≠ node c) :
    (scaled missing node data).eval point =
      (Lagrange.nodal missing node).eval point * ∑ c ∈ missing, (point - node c)⁻¹ * data c := by
  rw [scaled, Lagrange.eval_interpolate_not_at_node _ apart]
  congr 1
  refine sum_congr rfl fun c present => ?_
  have weight := Lagrange.nodalWeight_ne_zero distinct present
  rw [mul_comm (Lagrange.nodalWeight missing node c), mul_assoc, mul_inv_cancel_left₀ weight]

/-- The places known leave no more data unknown than they hold parities. -/
theorem card_missing_le {k : Nat} {known : Finset Nat} (enough : k ≤ known.card) :
    ((range k).filter (· ∉ known)).card ≤ (known.filter (k ≤ ·)).card := by
  have data := card_filter_add_card_filter_not (s := range k) (· ∈ known)
  have places := card_filter_add_card_filter_not (s := known) (k ≤ ·)
  have shared : (range k).filter (· ∈ known) = known.filter (¬ k ≤ ·) := by
    ext r
    simp only [mem_filter, mem_range, not_le, and_comm]
  rw [card_range, shared] at data
  omega

/-- **Any `k` places determine the data.** -/
theorem values_determine {k total : Nat} {node data : Nat → F} (known : Finset Nat)
    (distinct : Set.InjOn node (range total)) (within : k ≤ total) (places : known ⊆ range total)
    (enough : k ≤ known.card) (zero : ∀ r ∈ known, value k node data r = 0) :
    ∀ c < k, data c = 0 := by
  let missing := (range k).filter (· ∉ known)
  let parities := known.filter (k ≤ ·)
  have knownZero : ∀ c < k, c ∈ known → data c = 0 := by
    intro c below present
    have value := zero c present
    rwa [CauchyCode.value, if_pos below] at value
  have inside : ∀ c ∈ missing, c < k := fun c present => mem_range.1 (mem_filter.1 present).1
  have distinctMissing : Set.InjOn node missing := fun a left b right same =>
    distinct (mem_coe.2 (mem_range.2 ((inside a left).trans_le within)))
      (mem_coe.2 (mem_range.2 ((inside b right).trans_le within))) same
  have distinctParities : Set.InjOn node parities := fun a left b right same =>
    distinct (places (mem_filter.1 left).1) (places (mem_filter.1 right).1) same
  have vanishes : ∀ r ∈ parities, (scaled missing node data).eval (node r) = 0 := by
    intro r present
    obtain ⟨chosen, beyond⟩ := mem_filter.1 present
    have apart : ∀ c ∈ missing, node r ≠ node c := by
      intro c unknown same
      have := distinct (places chosen) (mem_coe.2 (mem_range.2 ((inside c unknown).trans_le within))) same
      have := inside c unknown
      omega
    have whole : ∑ c ∈ missing, (node r - node c)⁻¹ * data c =
        ∑ c ∈ range k, (node r - node c)⁻¹ * data c := by
      refine sum_subset (filter_subset _ _) fun c below kept => ?_
      have present : c ∈ known := by
        by_contra absent
        exact kept (mem_filter.2 ⟨below, absent⟩)
      rw [knownZero c (mem_range.1 below) present, mul_zero]
    have sum := zero r chosen
    rw [value, if_neg (by omega)] at sum
    rw [eval_scaled data distinctMissing apart, whole, sum, mul_zero]
  have degree : (scaled missing node data).degree < parities.card :=
    (Lagrange.degree_interpolate_lt _ distinctMissing).trans_le
      (Nat.cast_le.2 (card_missing_le enough))
  have nothing := eq_zero_of_degree_lt_of_eval_index_eq_zero _ distinctParities degree vanishes
  intro c below
  by_cases present : c ∈ known
  · exact knownZero c below present
  have unknown : c ∈ missing := mem_filter.2 ⟨mem_range.2 below, present⟩
  have datum := Lagrange.eval_interpolate_at_node
    (fun c => (Lagrange.nodalWeight missing node c)⁻¹ * data c) distinctMissing unknown
  change (scaled missing node data).eval (node c) = _ at datum
  rw [nothing, eval_zero] at datum
  exact (mul_eq_zero.1 datum.symm).resolve_left
    (inv_ne_zero (Lagrange.nodalWeight_ne_zero distinctMissing unknown))

end OneLink.Library.CauchyCode
