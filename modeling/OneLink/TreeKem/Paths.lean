/-
# TreeKem.Paths — the way from a leaf to the root, and the subtrees beside it

`direct_path` climbs from a leaf to the root; `copath` collects the other child at each step.  The
leaves below a node are those reached through `left` and `right`.  One step of the climb adds the
leaves below the other child to those below the node, and these are apart, so that the leaf itself
and the copath's subtrees divide all leaves (`treeArithmetic`).
-/
import OneLink.TreeKem.Tree

namespace OneLink.TreeKem

open Library Library.DepthFirst

set_option autoImplicit false

/-- Leaf `y` is `x` or below it. -/
inductive LeafBelow (fuel n : Nat) : (x : Nat) → (y : Nat) → Prop where
  | leaf {x : Nat} (bottom : isLeaf x = true) : LeafBelow fuel n x x
  | left {x c y : Nat} (child : left x = .ok c) (below : LeafBelow fuel n c y) : LeafBelow fuel n x y
  | right {x c y : Nat} (child : right fuel x n = .ok c) (below : LeafBelow fuel n c y) :
      LeafBelow fuel n x y

/-- `x` and `c` are the children of `p`. -/
def OtherChild (fuel n x p c : Nat) : Prop :=
  (left p = .ok x ∧ right fuel p n = .ok c) ∨ (left p = .ok c ∧ right fuel p n = .ok x)

/-- The leaves of the complete tree's subtree, as far as they are there. -/
structure Covers (nNodes a m y : Nat) : Prop where
  even : y % 2 = 0
  first : 2 ^ (m + 1) * a ≤ y
  last : y < 2 ^ (m + 1) * (a + 1)
  there : y < nNodes

section Leaves

variable {fuel n a m i y : Nat}

theorem covers_leaf (there : node a 0 < 2 * n - 1) : Covers (2 * n - 1) a 0 y ↔ y = node a 0 := by
  rw [node_zero] at there ⊢
  constructor
  · rintro ⟨even, first, last, _⟩
    rw [Nat.zero_add, Nat.pow_one] at first last
    omega
  · rintro rfl
    exact ⟨Nat.mul_mod_right 2 a, by simp, by simp, there⟩

theorem covers_left (covered : Covers (2 * n - 1) (2 * a) m y) : Covers (2 * n - 1) a (m + 1) y := by
  obtain ⟨even, first, last, there⟩ := covered
  have pow : 2 ^ (m + 1 + 1) * a = 2 ^ (m + 1) * (2 * a) := by
    rw [Nat.pow_succ, Nat.mul_assoc]
  rw [Nat.mul_succ] at last
  refine ⟨even, pow ▸ first, ?_, there⟩
  rw [Nat.mul_succ, pow, Nat.pow_succ 2 (m + 1)]
  omega

theorem rightChild_first (within : i ≤ m) :
    2 ^ (m - i + 1) * (2 ^ i * (2 * a + 1)) = 2 ^ (m + 1) * (2 * a + 1) := by
  rw [← Nat.mul_assoc, ← Nat.pow_add, show m - i + 1 + i = m + 1 by omega]

theorem covers_right (child : RightChild (2 * n - 1) a m i)
    (covered : Covers (2 * n - 1) (2 ^ i * (2 * a + 1)) (m - i) y) :
    Covers (2 * n - 1) a (m + 1) y := by
  obtain ⟨even, first, last, there⟩ := covered
  have low : 2 ^ (m - i + 1) ≤ 2 ^ (m + 1) := Nat.pow_le_pow_right (by decide) (by omega)
  have pow : 2 ^ (m + 1 + 1) * a = 2 ^ (m + 1) * (2 * a) := by
    rw [Nat.pow_succ, Nat.mul_assoc]
  rw [rightChild_first child.within, Nat.mul_succ] at first
  rw [Nat.mul_succ, rightChild_first child.within, Nat.mul_succ] at last
  refine ⟨even, ?_, ?_, there⟩
  · omega
  · rw [Nat.mul_succ, pow, Nat.pow_succ 2 (m + 1)]
    omega

/-- The leaves below a node are those below its children. -/
theorem covers_split (child : RightChild (2 * n - 1) a m i) :
    Covers (2 * n - 1) a (m + 1) y ↔
      Covers (2 * n - 1) (2 * a) m y ∨ Covers (2 * n - 1) (2 ^ i * (2 * a + 1)) (m - i) y := by
  constructor
  · rintro ⟨even, first, last, there⟩
    have pow : 2 ^ (m + 1 + 1) * a = 2 ^ (m + 1) * (2 * a) := by
      rw [Nat.pow_succ, Nat.mul_assoc]
    rw [Nat.mul_succ, pow, Nat.pow_succ 2 (m + 1)] at last
    rw [pow] at first
    rcases Nat.lt_or_ge y (2 ^ (m + 1) * (2 * a + 1)) with inLeft | inRight
    · exact .inl ⟨even, first, inLeft, there⟩
    · refine .inr ⟨even, by rwa [rightChild_first child.within], ?_, there⟩
      rw [Nat.mul_succ, rightChild_first child.within]
      cases i with
      | zero =>
        rw [Nat.mul_succ, Nat.sub_zero]
        omega
      | succ i =>
        -- the node above on the left edge is missing, so the leaves end below it
        have missing := child.above i (Nat.lt_succ_self i)
        have height : m - i = m - (i + 1) + 1 := by
          have within := child.within
          omega
        rw [node, rightChild_first (by have within := child.within; omega), height] at missing
        omega
  · rintro (inLeft | inRight)
    · exact covers_left inLeft
    · exact covers_right child inRight

theorem covers_apart (child : RightChild (2 * n - 1) a m i) (inLeft : Covers (2 * n - 1) (2 * a) m y) :
    ¬ Covers (2 * n - 1) (2 ^ i * (2 * a + 1)) (m - i) y := by
  intro inRight
  have last := inLeft.last
  have first := inRight.first
  rw [rightChild_first child.within] at first
  omega

theorem leafBelow_covers (positive : 0 < n) (enough : n ≤ fuel) {x : Nat}
    (below : LeafBelow fuel n x y) :
    ∀ a m, x = node a m → node a m < 2 * n - 1 → Covers (2 * n - 1) a m y := by
  induction below with
  | leaf bottom =>
    rintro a m rfl there
    cases m with
    | zero => exact (covers_leaf there).mpr rfl
    | succ m =>
      rw [isLeaf_node_succ] at bottom
      exact absurd bottom Bool.false_ne_true
  | left child _ ih =>
    rintro a m rfl there
    cases m with
    | zero => simp [left, isLeaf, node_zero, require] at child
    | succ m =>
      rw [left_node] at child
      cases child
      exact covers_left (ih _ m rfl (left_there there))
  | right child _ ih =>
    rintro a m rfl there
    cases m with
    | zero => simp [right, isLeaf, node_zero, require] at child
    | succ m =>
      obtain ⟨i, first⟩ := exists_rightChild there
      rw [right_eq positive enough there first] at child
      cases child
      exact covers_right first (ih _ _ rfl first.there)

theorem covers_leafBelow (positive : 0 < n) (enough : n ≤ fuel) :
    ∀ m a, node a m < 2 * n - 1 → Covers (2 * n - 1) a m y → LeafBelow fuel n (node a m) y := by
  intro m
  induction m using Nat.strongRecOn with
  | _ m ih =>
    intro a there covered
    cases m with
    | zero =>
      obtain rfl := (covers_leaf there).mp covered
      exact .leaf (by simp [isLeaf, node_zero])
    | succ m =>
      obtain ⟨i, first⟩ := exists_rightChild there
      rcases (covers_split first).mp covered with inLeft | inRight
      · exact .left (left_node a m) (ih m (Nat.lt_succ_self m) _ (left_there there) inLeft)
      · exact .right (right_eq positive enough there first)
          (ih (m - i) (by omega) _ first.there inRight)

/-- What is below a node, by number. -/
theorem leafBelow_iff (positive : 0 < n) (enough : n ≤ fuel) (there : node a m < 2 * n - 1) :
    LeafBelow fuel n (node a m) y ↔ Covers (2 * n - 1) a m y :=
  ⟨fun below => leafBelow_covers positive enough below a m rfl there,
    covers_leafBelow positive enough m a there⟩

end Leaves

/-! ## One step of the climb -/

section Climb

variable {fuel n : Nat}

/-- The other child of the node above, and the leaves below them. -/
structure Step (fuel n x p c : Nat) : Prop where
  up : parent fuel x n = .ok p
  beside : sibling fuel x n = .ok c
  children : OtherChild fuel n x p c
  thereUp : p < 2 * n - 1
  thereBeside : c < 2 * n - 1
  leaves : ∀ y, LeafBelow fuel n p y ↔ LeafBelow fuel n x y ∨ LeafBelow fuel n c y
  apart : ∀ y, LeafBelow fuel n x y → ¬ LeafBelow fuel n c y
  higher : level x < level p

theorem step_of_left (positive : 0 < n) (enough : n ≤ fuel) {a m i : Nat}
    (there : node a (m + 1) < 2 * n - 1) (child : RightChild (2 * n - 1) a m i) :
    Step fuel n (node (2 * a) m) (node a (m + 1)) (node (2 ^ i * (2 * a + 1)) (m - i)) where
  up := parent_of_left positive enough there
  beside := by
    rw [sibling, parent_of_left positive enough there, ok_bind, left_node, ok_bind, if_pos rfl]
    exact right_eq positive enough there child
  children := .inl ⟨left_node a m, right_eq positive enough there child⟩
  thereUp := there
  thereBeside := child.there
  leaves y := by
    rw [leafBelow_iff positive enough there, leafBelow_iff positive enough (left_there there),
      leafBelow_iff positive enough child.there]
    exact covers_split child
  apart y := by
    rw [leafBelow_iff positive enough (left_there there), leafBelow_iff positive enough child.there]
    exact covers_apart child
  higher := by
    rw [level_node, level_node]
    exact Nat.lt_succ_self m

theorem step_of_right (positive : 0 < n) (enough : n ≤ fuel) {a m i : Nat}
    (there : node a (m + 1) < 2 * n - 1) (child : RightChild (2 * n - 1) a m i) :
    Step fuel n (node (2 ^ i * (2 * a + 1)) (m - i)) (node a (m + 1)) (node (2 * a) m) where
  up := parent_of_right positive enough there child
  beside := by
    rw [sibling, parent_of_right positive enough there child, ok_bind, left_node, ok_bind,
      if_neg (left_ne_right child)]
    rfl
  children := .inr ⟨left_node a m, right_eq positive enough there child⟩
  thereUp := there
  thereBeside := left_there there
  leaves y := by
    rw [leafBelow_iff positive enough there, leafBelow_iff positive enough (left_there there),
      leafBelow_iff positive enough child.there, Or.comm]
    exact covers_split child
  apart y := by
    rw [leafBelow_iff positive enough (left_there there), leafBelow_iff positive enough child.there]
    exact fun inRight inLeft => covers_apart child inLeft inRight
  higher := by
    rw [level_node, level_node]
    omega

theorem exists_step (positive : 0 < n) (enough : n ≤ fuel) {x : Nat} (there : x < 2 * n - 1)
    (notRoot : x ≠ node 0 (n - 1).size) : ∃ p c, Step fuel n x p c := by
  obtain ⟨a, m, above, isChild⟩ := exists_parent positive there notRoot
  rcases isChild with rfl | ⟨i, child, rfl⟩
  · obtain ⟨i, child⟩ := exists_rightChild above
    exact ⟨_, _, step_of_left positive enough above child⟩
  · exact ⟨_, _, step_of_right positive enough above child⟩

/-! ## The whole climb -/

/-- The nodes climbed to and those beside them. -/
inductive Climbs (fuel n : Nat) : (x : Nat) → (path cop : List Nat) → Prop where
  | here : Climbs fuel n (node 0 (n - 1).size) [] []
  | step {x p c : Nat} {path cop : List Nat} (first : Step fuel n x p c)
      (rest : Climbs fuel n p path cop) : Climbs fuel n x (p :: path) (c :: cop)

theorem exists_climbs (positive : 0 < n) (enough : n ≤ fuel) (steps : Nat) :
    ∀ x : Nat, x < 2 * n - 1 → (n - 1).size < level x + steps →
      ∃ path cop, Climbs fuel n x path cop ∧
        directPathFrom fuel n (node 0 (n - 1).size) steps x = .ok path ∧
        copathFrom fuel n (node 0 (n - 1).size) steps x = .ok cop := by
  induction steps with
  | zero =>
    intro x there tall
    obtain ⟨a, m, rfl⟩ := exists_node x
    have low := height_le positive there
    rw [level_node] at tall
    omega
  | succ steps ih =>
    intro x there tall
    by_cases top : x = node 0 (n - 1).size
    · subst top
      refine ⟨[], [], .here, ?_, ?_⟩
      · rw [directPathFrom, if_pos rfl]
        rfl
      · rw [copathFrom, if_pos rfl]
        rfl
    · obtain ⟨p, c, first⟩ := exists_step positive enough there top
      have higher := first.higher
      obtain ⟨path, cop, climbs, paths, copaths⟩ := ih p first.thereUp (by omega)
      refine ⟨p :: path, c :: cop, .step first climbs, ?_, ?_⟩
      · rw [directPathFrom, if_neg top, first.up, ok_bind, paths]
        rfl
      · rw [copathFrom, if_neg top, first.beside, ok_bind, first.up, ok_bind, copaths]
        rfl

variable {x : Nat} {path cop : List Nat}

theorem Climbs.last (climbs : Climbs fuel n x path cop) :
    (x :: path).getLast? = some (node 0 (n - 1).size) := by
  induction climbs with
  | here => rfl
  | step _ _ ih => rw [List.getLast?_cons_cons, ih]

theorem Climbs.length_eq (climbs : Climbs fuel n x path cop) : cop.length = path.length := by
  induction climbs with
  | here => rfl
  | step _ _ ih => rw [List.length_cons, List.length_cons, ih]

theorem Climbs.otherChild (climbs : Climbs fuel n x path cop) :
    ∀ i y p c : Nat, (x :: path)[i]? = some y → path[i]? = some p → cop[i]? = some c →
      OtherChild fuel n y p c := by
  induction climbs with
  | here =>
    intro i y p c _ none
    simp at none
  | step first _ ih =>
    intro i y p c at_ up beside
    cases i with
    | zero =>
      simp only [List.getElem?_cons_zero, Option.some.injEq] at at_ up beside
      subst at_ up beside
      exact first.children
    | succ i =>
      rw [List.getElem?_cons_succ] at at_ up beside
      exact ih i y p c at_ up beside

theorem Climbs.leaves (climbs : Climbs fuel n x path cop) :
    ∀ y, LeafBelow fuel n (node 0 (n - 1).size) y ↔
      LeafBelow fuel n x y ∨ ∃ c ∈ cop, LeafBelow fuel n c y := by
  intro y
  induction climbs with
  | here => simp
  | step first _ ih => simp only [ih, first.leaves y, List.mem_cons, exists_eq_or_imp, or_assoc]

theorem Climbs.apart (climbs : Climbs fuel n x path cop) :
    ∀ y, LeafBelow fuel n x y → ∀ c ∈ cop, ¬ LeafBelow fuel n c y := by
  intro y
  induction climbs with
  | here => exact fun _ c none => absurd none List.not_mem_nil
  | step first _ ih =>
    intro below
    rw [List.forall_mem_cons]
    exact ⟨first.apart y below, ih ((first.leaves y).mpr (.inl below))⟩

theorem Climbs.pairwise (climbs : Climbs fuel n x path cop) :
    cop.Pairwise fun c d => ∀ y, LeafBelow fuel n c y → ¬ LeafBelow fuel n d y := by
  induction climbs with
  | here => exact .nil
  | step first rest ih =>
    refine .cons (fun d member y below => ?_) ih
    exact rest.apart y ((first.leaves y).mpr (.inr below)) d member

theorem Climbs.there (climbs : Climbs fuel n x path cop) : ∀ c ∈ cop, c < 2 * n - 1 := by
  induction climbs with
  | here => exact fun c none => absurd none List.not_mem_nil
  | step first _ ih =>
    rw [List.forall_mem_cons]
    exact ⟨first.thereBeside, ih⟩

end Climb

/-! ## The ratchet tree -/

theorem leafBelow_root {fuel n : Nat} (positive : 0 < n) (enough : n ≤ fuel) (y : Nat) :
    LeafBelow fuel n (node 0 (n - 1).size) y ↔ ∃ leafPosition < n, y = leafIndex leafPosition := by
  have leaves := leaves_le positive
  have pow := Nat.pow_succ 2 (n - 1).size
  rw [leafBelow_iff positive enough (root_there positive)]
  constructor
  · rintro ⟨even, _, _, there⟩
    exact ⟨y / 2, by omega, by rw [leafIndex]; omega⟩
  · rintro ⟨leafPosition, inRange, rfl⟩
    refine ⟨Nat.mul_mod_right 2 _, by simp, ?_, ?_⟩
    · rw [leafIndex]
      omega
    · rw [leafIndex]
      omega

theorem exists_leafBelow {fuel n : Nat} (positive : 0 < n) (enough : n ≤ fuel) {x : Nat}
    (there : x < 2 * n - 1) : ∃ y, LeafBelow fuel n x y := by
  obtain ⟨a, m, rfl⟩ := exists_node x
  refine ⟨2 ^ (m + 1) * a, (leafBelow_iff positive enough there).mpr ⟨?_, Nat.le_refl _, ?_, ?_⟩⟩
  · rw [Nat.pow_succ', Nat.mul_assoc]
    exact Nat.mul_mod_right 2 _
  · exact Nat.mul_lt_mul_of_pos_left (Nat.lt_succ_self a) (Nat.two_pow_pos _)
  · exact Nat.lt_of_le_of_lt (pow_le_node a m) there

theorem leafBelow_leaf {fuel n leafPosition y : Nat} (positive : 0 < n) (enough : n ≤ fuel)
    (inRange : leafPosition < n) :
    LeafBelow fuel n (leafIndex leafPosition) y ↔ y = leafIndex leafPosition := by
  have there : node leafPosition 0 < 2 * n - 1 := by
    rw [node_zero]
    omega
  rw [show leafIndex leafPosition = node leafPosition 0 from (node_zero leafPosition).symm,
    leafBelow_iff positive enough there, covers_leaf there]

/-- **The arithmetic is a tree's.**  With fuel for as many steps as there are leaves, every node
but the root is a child of its parent, every inner node is the parent of its two children, and the
leaves are divided among a leaf and the subtrees beside its way to the root. -/
theorem treeArithmetic (n fuel : Nat) (positive : 1 ≤ n) (enough : n ≤ fuel) :
    (∀ x < 2 * n - 1, root n ≠ .ok x →
      ∃ p, parent fuel x n = .ok p ∧ p < 2 * n - 1 ∧ (left p = .ok x ∨ right fuel p n = .ok x)) ∧
    (∀ x < 2 * n - 1, isLeaf x = false →
      ∃ l r, left x = .ok l ∧ right fuel x n = .ok r ∧ l ≠ r ∧ l < 2 * n - 1 ∧ r < 2 * n - 1 ∧
        parent fuel l n = .ok x ∧ parent fuel r n = .ok x) ∧
    (∀ leafPosition < n, ∃ path cop top,
      directPath fuel leafPosition n = .ok path ∧ copath fuel leafPosition n = .ok cop ∧
      root n = .ok top ∧ (leafIndex leafPosition :: path).getLast? = some top ∧
      cop.length = path.length ∧
      (∀ i x p c : Nat, (leafIndex leafPosition :: path)[i]? = some x → path[i]? = some p →
        cop[i]? = some c → OtherChild fuel n x p c) ∧
      (∀ y, (∃ other < n, y = leafIndex other) ↔
        y = leafIndex leafPosition ∨ ∃ c ∈ cop, LeafBelow fuel n c y) ∧
      (∀ c ∈ cop, (∃ y, LeafBelow fuel n c y) ∧ ¬ LeafBelow fuel n c (leafIndex leafPosition)) ∧
      cop.Pairwise fun c d => ∀ y, LeafBelow fuel n c y → ¬ LeafBelow fuel n d y) := by
  refine ⟨?_, ?_, ?_⟩
  · intro x there notRoot
    have notTop : x ≠ node 0 (n - 1).size := fun same => notRoot (by rw [root_eq positive, same])
    obtain ⟨p, c, step⟩ := exists_step positive enough there notTop
    refine ⟨p, step.up, step.thereUp, ?_⟩
    rcases step.children with ⟨isLeft, _⟩ | ⟨_, isRight⟩
    · exact .inl isLeft
    · exact .inr isRight
  · intro x there inner
    obtain ⟨a, m, rfl⟩ := exists_node x
    cases m with
    | zero => simp [isLeaf, node_zero] at inner
    | succ m =>
      obtain ⟨i, child⟩ := exists_rightChild there
      exact ⟨_, _, left_node a m, right_eq positive enough there child, left_ne_right child,
        left_there there, child.there, parent_of_left positive enough there,
        parent_of_right positive enough there child⟩
  · intro leafPosition inRange
    have there : leafIndex leafPosition < 2 * n - 1 := by
      rw [leafIndex]
      omega
    have few := size_lt positive
    obtain ⟨path, cop, climbs, paths, copaths⟩ :=
      exists_climbs positive enough fuel (leafIndex leafPosition) there (by omega)
    refine ⟨path, cop, _, ?_, ?_, root_eq positive, climbs.last, climbs.length_eq, climbs.otherChild,
      fun y => ?_, fun c member => ⟨?_, fun below => ?_⟩, climbs.pairwise⟩
    · rw [directPath, nLeavesToNNodes_eq positive, ok_bind, require_of (Nat.not_le.mpr there),
        ok_bind, root_eq positive, ok_bind, paths]
    · rw [copath, nLeavesToNNodes_eq positive, ok_bind, require_of (Nat.not_le.mpr there),
        ok_bind, root_eq positive, ok_bind, copaths]
    · rw [← leafBelow_root positive enough y, climbs.leaves y, leafBelow_leaf positive enough inRange]
    · exact exists_leafBelow positive enough (climbs.there c member)
    · exact climbs.apart _ ((leafBelow_leaf positive enough inRange).mpr rfl) c member below

/-- Five leaves: the way up from the last one passes missing nodes. -/
theorem treeArithmetic_five :
    (∃ p, parent 5 8 5 = .ok p ∧ p < 9 ∧ (left p = .ok 8 ∨ right 5 p 5 = .ok 8)) ∧
      ∃ path, directPath 5 4 5 = .ok path ∧ (8 :: path).getLast? = some 7 := by
  have top : root 5 = .ok 7 := root_eq (by decide)
  obtain ⟨up, _, climb⟩ := treeArithmetic 5 5 (by decide) (by decide)
  obtain ⟨path, _, top', paths, _, isTop, last, _⟩ := climb 4 (by decide)
  rw [top] at isTop
  cases isTop
  exact ⟨up 8 (by decide) (by rw [top]; decide), path, paths, last⟩

end OneLink.TreeKem
