/-
# Library.DepthFirst — the nodes of a complete binary tree, numbered depth first

Leaves have the even numbers, and a node at height `m` whose leftmost leaf is `lo` has the number
`lo + 2 ^ m - 1`; `lo` is a multiple of `2 ^ (m + 1)`.  So the bits below `m` are set, the bit at
`m` is not, and going up or down flips the bits around it.
-/
import Mathlib.Data.Nat.Bitwise

namespace OneLink.Library.DepthFirst

set_option autoImplicit false

/-- The node at height `m` whose leftmost leaf is the `a`-th of every `2 ^ m`. -/
def node (a m : Nat) : Nat := 2 ^ (m + 1) * a + (2 ^ m - 1)

theorem low_lt (m : Nat) : 2 ^ m - 1 < 2 ^ (m + 1) := by
  have pow := Nat.pow_succ 2 m
  have one := Nat.one_le_two_pow (n := m)
  omega

theorem testBit_node (a m i : Nat) :
    (node a m).testBit i = if i < m + 1 then decide (i < m) else a.testBit (i - (m + 1)) := by
  rw [node, Nat.testBit_two_pow_mul_add a (low_lt m), Nat.testBit_two_pow_sub_one]

/-- Set the bit at the height and clear the one above. -/
theorem node_up (a m : Nat) :
    Nat.ldiff (node a m ||| 1 <<< m) (1 <<< (m + 1)) = node (a / 2) (m + 1) := by
  apply Nat.eq_of_testBit_eq
  intro i
  rw [Nat.testBit_ldiff, Nat.testBit_or, testBit_node, testBit_node, Nat.one_shiftLeft,
    Nat.one_shiftLeft, Nat.testBit_two_pow, Nat.testBit_two_pow]
  rcases Nat.lt_trichotomy i (m + 1) with below | here | above
  · rw [if_pos below, if_pos (by omega), decide_eq_true below,
      decide_eq_false (by omega : ¬ m + 1 = i)]
    rcases Nat.lt_or_ge i m with less | same
    · simp [less]
    · simp [show m = i by omega]
  · subst here
    simp
  · rw [if_neg (by omega), if_neg (by omega), decide_eq_false (by omega : ¬ m = i),
      decide_eq_false (by omega : ¬ m + 1 = i), Nat.testBit_div_two]
    simp [show i - (m + 1 + 1) + 1 = i - (m + 1) by omega]

/-- Flip the bit below the height. -/
theorem node_left (a m : Nat) : node a (m + 1) ^^^ 1 <<< m = node (2 * a) m := by
  apply Nat.eq_of_testBit_eq
  intro i
  rw [Nat.testBit_xor, testBit_node, testBit_node, Nat.one_shiftLeft, Nat.testBit_two_pow]
  rcases Nat.lt_trichotomy i m with below | here | above
  · rw [if_pos (by omega), if_pos (by omega), decide_eq_false (by omega : ¬ m = i)]
    simp [below, show i < m + 1 by omega]
  · subst here
    simp [show i < i + 1 + 1 by omega]
  · rw [decide_eq_false (by omega : ¬ m = i), Bool.xor_false]
    rcases Nat.lt_or_ge i (m + 2) with next | far
    · rw [if_pos next, if_neg (by omega), decide_eq_false (by omega : ¬ i < m + 1),
        show i - (m + 1) = 0 by omega]
      simp
    · rw [if_neg (by omega), if_neg (by omega), show i - (m + 1) = i - (m + 1 + 1) + 1 by omega,
        ← Nat.testBit_div_two, Nat.mul_div_cancel_left a (by decide)]

/-- Flip the bit below the height and the one at it. -/
theorem node_right (a m : Nat) : node a (m + 1) ^^^ 3 <<< m = node (2 * a + 1) m := by
  have three (j : Nat) : Nat.testBit 3 j = decide (j < 2) := Nat.testBit_two_pow_sub_one 2 j
  apply Nat.eq_of_testBit_eq
  intro i
  rw [Nat.testBit_xor, testBit_node, testBit_node, Nat.testBit_shiftLeft, three]
  rcases Nat.lt_or_ge i m with below | from_
  · simp [below, show i < m + 1 by omega, show i < m + 1 + 1 by omega, show ¬ m ≤ i by omega]
  · rcases Nat.lt_or_ge i (m + 2) with next | far
    · rcases Nat.lt_or_ge i (m + 1) with here | up
      · obtain rfl : i = m := by omega
        simp [show i < i + 1 + 1 by omega]
      · simp [show i = m + 1 by omega]
    · rw [if_neg (by omega), if_neg (by omega), decide_eq_false (by omega : ¬ i - m < 2),
        show i - (m + 1) = i - (m + 1 + 1) + 1 by omega, ← Nat.testBit_div_two,
        show (2 * a + 1) / 2 = a by omega]
      simp

/-- The height is the number of bits set at the low end. -/
theorem testBit_node_height (a m : Nat) : (node a m).testBit m = false := by
  rw [testBit_node, if_pos (Nat.lt_succ_self m), decide_eq_false (Nat.lt_irrefl m)]

theorem testBit_node_below (a : Nat) {m i : Nat} (below : i < m) : (node a m).testBit i = true := by
  rw [testBit_node, if_pos (Nat.lt_succ_of_lt below), decide_eq_true below]

/-- Every number is a node. -/
theorem exists_node (x : Nat) : ∃ a m, x = node a m := by
  induction x using Nat.strongRecOn with
  | _ x ih =>
    rcases Nat.even_or_odd' x with ⟨k, rfl | rfl⟩
    · exact ⟨k, 0, by simp [node]⟩
    · obtain ⟨a, m, rfl⟩ := ih k (by omega)
      refine ⟨a, m + 1, ?_⟩
      have one := Nat.one_le_two_pow (n := m)
      rw [node, node, Nat.pow_succ 2 (m + 1), Nat.pow_succ 2 m]
      have twice : 2 * (2 ^ m * 2 * a + (2 ^ m - 1)) + 1 = 2 ^ m * 2 * 2 * a + (2 ^ m * 2 - 1) := by
        rw [Nat.mul_add, ← Nat.mul_assoc, Nat.mul_comm 2 (2 ^ m * 2)]
        omega
      exact twice

end OneLink.Library.DepthFirst
