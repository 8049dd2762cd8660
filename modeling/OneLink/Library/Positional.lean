/-
# Library.Positional -- digits of one base, the highest first

`digitsValue b` reads a list of digits from the left; `digitsOf b n v` are the lowest `n`
digits of `v`.  On digits below the base each undoes the other.
-/
import Mathlib

namespace OneLink.Library

set_option autoImplicit false

variable {b : Nat}

def digitsValue (b : Nat) (digits : List Nat) : Nat := digits.foldl (fun v d => v * b + d) 0

def digitsOf (b n v : Nat) : List Nat := (List.range n).map fun i => v / b ^ (n - 1 - i) % b

@[simp] theorem length_digitsOf (b n v : Nat) : (digitsOf b n v).length = n := by simp [digitsOf]

theorem digitsOf_lt (positive : 0 < b) (n v : Nat) : ∀ d ∈ digitsOf b n v, d < b := by
  intro d member
  obtain ⟨i, -, rfl⟩ := List.mem_map.1 member
  exact Nat.mod_lt _ positive

theorem digitsValue_concat (digits : List Nat) (d : Nat) :
    digitsValue b (digits ++ [d]) = digitsValue b digits * b + d := by
  rw [digitsValue, List.foldl_append]
  rfl

theorem digitsOf_succ (n v : Nat) : digitsOf b (n + 1) v = digitsOf b n (v / b) ++ [v % b] := by
  rw [digitsOf, List.range_succ, List.map_append, digitsOf]
  congr 1
  · refine List.map_congr_left fun i member => ?_
    have inside := List.mem_range.1 member
    have power : b ^ (n + 1 - 1 - i) = b * b ^ (n - 1 - i) := by
      rw [← Nat.pow_succ', show n + 1 - 1 - i = n - 1 - i + 1 by omega]
    rw [power, Nat.div_div_eq_div_mul]
  · simp

theorem digitsValue_lt {digits : List Nat} (small : ∀ d ∈ digits, d < b) :
    digitsValue b digits < b ^ digits.length := by
  induction digits using List.reverseRecOn with
  | nil => exact Nat.one_pos
  | append_singleton digits d ih =>
    have front := ih fun e member => small e (List.mem_append_left _ member)
    have last := small d (List.mem_append_right _ List.mem_cons_self)
    rw [digitsValue_concat, List.length_append, List.length_singleton, Nat.pow_succ]
    calc digitsValue b digits * b + d < (digitsValue b digits + 1) * b := by
          rw [Nat.add_mul, Nat.one_mul]; omega
      _ ≤ b ^ digits.length * b := Nat.mul_le_mul_right b front

theorem digitsValue_digitsOf {n v : Nat} (small : v < b ^ n) : digitsValue b (digitsOf b n v) = v := by
  induction n generalizing v with
  | zero =>
    rw [Nat.pow_zero, Nat.lt_one_iff] at small
    subst small
    rfl
  | succ n ih =>
    have quotient : v / b < b ^ n := Nat.div_lt_of_lt_mul (by rwa [← Nat.pow_succ'])
    rw [digitsOf_succ, digitsValue_concat, ih quotient, Nat.div_add_mod']

theorem digitsOf_digitsValue {digits : List Nat} (small : ∀ d ∈ digits, d < b) :
    digitsOf b digits.length (digitsValue b digits) = digits := by
  induction digits using List.reverseRecOn with
  | nil => rfl
  | append_singleton digits d ih =>
    have last := small d (List.mem_append_right _ List.mem_cons_self)
    rw [digitsValue_concat, List.length_append, List.length_singleton, digitsOf_succ,
      Nat.mul_comm, Nat.mul_add_div (by omega), Nat.div_eq_of_lt last, Nat.add_zero,
      Nat.mul_add_mod, Nat.mod_eq_of_lt last,
      ih fun e member => small e (List.mem_append_left _ member)]

end OneLink.Library
