/-
# TreeKem.Tree — the tree arithmetic of the ratchet tree

The nodes of a left-balanced tree over `n` leaves are those of the complete tree whose number is
below `2 n - 1`.  `parent` goes up past the nodes that are not there and `right` goes down past
them.  A node is a left child where the node above it is there; otherwise the way up goes along
the left edge of a subtree to the first node that is there, and the way down from its right side
leads back (`parent_of_left`, `parent_of_right`).

Indices and sizes are natural numbers; the functions refuse negative ones.  Loops take fuel.
-/
import OneLink.Library.Checked
import OneLink.Library.DepthFirst
import Mathlib.Data.Nat.Find
import Mathlib.Data.Nat.Size

namespace OneLink.TreeKem

open Library Library.DepthFirst

set_option autoImplicit false

inductive TreeError where
  | nLeavesNotPositive
  | leafPositionOutOfRange (leafPosition : Nat)
  | isRoot (idx : Nat)
  | outOfBounds (idx nLeaves : Nat)
  | isLeaf (idx : Nat)
  /-- A loop has not ended. -/
  | outOfFuel
  deriving DecidableEq

def nLeavesToNNodes (nLeaves : Nat) : Except TreeError Nat := do
  require (0 < nLeaves) .nLeavesNotPositive
  return 2 * nLeaves - 1

def isLeaf (idx : Nat) : Bool := idx % 2 = 0

def leafIndex (leafPosition : Nat) : Nat := 2 * leafPosition

/-- The loop of `level`. -/
def levelFrom (idx k : Nat) : Nat :=
  if _set : (idx >>> k) &&& 1 = 1 then levelFrom idx (k + 1) else k
termination_by idx >>> k
decreasing_by
  have odd : (idx >>> k) % 2 = 1 := (Nat.and_one_is_mod _).symm.trans _set
  rw [Nat.shiftRight_succ]
  exact Nat.div_lt_self (Nat.pos_of_ne_zero fun none => by simp [none] at odd) (by decide)

def level (idx : Nat) : Nat := levelFrom idx 0

def parentPow2 (idx : Nat) : Nat :=
  let lvl := level idx
  Nat.ldiff (idx ||| 1 <<< lvl) (1 <<< (lvl + 1))

def left (idx : Nat) : Except TreeError Nat := do
  require (¬ isLeaf idx) (.isLeaf idx)
  return idx ^^^ 1 <<< (level idx - 1)

def root (nLeaves : Nat) : Except TreeError Nat := do
  require (0 < nLeaves) .nLeavesNotPositive
  if nLeaves = 1 then return 0
  else
    let k := (nLeaves - 1).size
    return 1 <<< k - 1

/-- The loop of `parent`. -/
def climb (nNodes : Nat) : (fuel : Nat) → (candidate : Nat) → Except TreeError Nat
  | 0, _ => throw .outOfFuel
  | fuel + 1, candidate =>
    if candidate ≥ nNodes then climb nNodes fuel (parentPow2 candidate) else return candidate

def parent (fuel idx nLeaves : Nat) : Except TreeError Nat := do
  let nNodes ← nLeavesToNNodes nLeaves
  let r ← root nLeaves
  require (idx ≠ r) (.isRoot idx)
  require (¬ idx ≥ nNodes) (.outOfBounds idx nLeaves)
  climb nNodes fuel (parentPow2 idx)

/-- The loop of `right`. -/
def descend (nNodes : Nat) : (fuel : Nat) → (candidate : Nat) → Except TreeError Nat
  | 0, _ => throw .outOfFuel
  | fuel + 1, candidate =>
    if candidate ≥ nNodes then do descend nNodes fuel (← left candidate) else return candidate

def right (fuel idx nLeaves : Nat) : Except TreeError Nat := do
  require (¬ isLeaf idx) (.isLeaf idx)
  let candidate := idx ^^^ 3 <<< (level idx - 1)
  let nNodes ← nLeavesToNNodes nLeaves
  descend nNodes fuel candidate

def sibling (fuel idx nLeaves : Nat) : Except TreeError Nat := do
  let p ← parent fuel idx nLeaves
  let l ← left p
  if l = idx then right fuel p nLeaves else return l

/-- The loop of `direct_path`. -/
def directPathFrom (fuel nLeaves r : Nat) : (steps : Nat) → (idx : Nat) → Except TreeError (List Nat)
  | 0, _ => throw .outOfFuel
  | steps + 1, idx =>
    if idx = r then return []
    else do
      let p ← parent fuel idx nLeaves
      return p :: (← directPathFrom fuel nLeaves r steps p)

def directPath (fuel leafPosition nLeaves : Nat) : Except TreeError (List Nat) := do
  let idx := leafIndex leafPosition
  let nNodes ← nLeavesToNNodes nLeaves
  require (¬ idx ≥ nNodes) (.leafPositionOutOfRange leafPosition)
  let r ← root nLeaves
  directPathFrom fuel nLeaves r fuel idx

/-- The loop of `copath`. -/
def copathFrom (fuel nLeaves r : Nat) : (steps : Nat) → (idx : Nat) → Except TreeError (List Nat)
  | 0, _ => throw .outOfFuel
  | steps + 1, idx =>
    if idx = r then return []
    else do
      let c ← sibling fuel idx nLeaves
      let p ← parent fuel idx nLeaves
      return c :: (← copathFrom fuel nLeaves r steps p)

def copath (fuel leafPosition nLeaves : Nat) : Except TreeError (List Nat) := do
  let idx := leafIndex leafPosition
  let nNodes ← nLeavesToNNodes nLeaves
  require (¬ idx ≥ nNodes) (.leafPositionOutOfRange leafPosition)
  let r ← root nLeaves
  copathFrom fuel nLeaves r fuel idx

/-! ## One step in the complete tree -/

theorem levelFrom_node (a m d : Nat) : ∀ k, k + d = m → levelFrom (node a m) k = m := by
  have bit (k : Nat) : (node a m >>> k) &&& 1 = 1 ↔ (node a m).testBit k = true := by
    rw [Nat.testBit_eq_decide_div_mod_eq, decide_eq_true_iff, Nat.and_one_is_mod,
      Nat.shiftRight_eq_div_pow]
  induction d with
  | zero =>
    intro k here
    obtain rfl : k = m := here
    unfold levelFrom
    rw [dif_neg]
    rw [bit, testBit_node_height]
    exact Bool.false_ne_true
  | succ d ih =>
    intro k below
    unfold levelFrom
    rw [dif_pos ((bit k).mpr (testBit_node_below a (by omega)))]
    exact ih (k + 1) (by omega)

@[simp] theorem level_node (a m : Nat) : level (node a m) = m :=
  levelFrom_node a m m 0 (Nat.zero_add m)

theorem node_inj {a a' m m' : Nat} : node a m = node a' m' ↔ a = a' ∧ m = m' := by
  constructor
  · intro same
    have heights : m = m' := by rw [← level_node a m, same, level_node]
    subst heights
    refine ⟨?_, rfl⟩
    rw [node, node, Nat.add_right_cancel_iff] at same
    exact Nat.eq_of_mul_eq_mul_left (Nat.two_pow_pos _) same
  · rintro ⟨rfl, rfl⟩
    rfl

@[simp] theorem parentPow2_node (a m : Nat) : parentPow2 (node a m) = node (a / 2) (m + 1) := by
  rw [parentPow2, level_node]
  exact node_up a m

theorem node_mod_two (a m : Nat) : node a (m + 1) % 2 = 1 := by
  have low := testBit_node_below a (Nat.succ_pos m)
  rw [Nat.testBit_zero] at low
  exact of_decide_eq_true low

theorem isLeaf_node_succ (a m : Nat) : isLeaf (node a (m + 1)) = false :=
  decide_eq_false (by rw [node_mod_two]; decide)

theorem node_zero (a : Nat) : node a 0 = 2 * a := by
  rw [node]
  omega

theorem left_node (a m : Nat) : left (node a (m + 1)) = .ok (node (2 * a) m) := by
  simp only [left, bind_eq_ok, require_eq_ok, exists_const, pure_eq_ok_iff, level_node,
    Nat.add_sub_cancel, isLeaf_node_succ]
  exact ⟨Bool.false_ne_true, node_left a m⟩

/-! ## The order of the nodes -/

theorem pow_le_node (a m : Nat) : 2 ^ (m + 1) * a ≤ node a m := Nat.le_add_right _ _

/-- A left child comes before its parent. -/
theorem node_left_lt (a m : Nat) : node (2 * a) m < node a (m + 1) := by
  rw [node, node, ← Nat.mul_assoc, ← Nat.pow_succ]
  have one := Nat.one_le_two_pow (n := m)
  have pow := Nat.pow_succ 2 m
  exact Nat.add_lt_add_left (by omega) _

/-! ## Up and down past the missing nodes -/

/-- The first node that is there, of those down the left edge of the right subtree below
`node a (m + 1)`. -/
structure RightChild (nNodes a m i : Nat) : Prop where
  within : i ≤ m
  there : node (2 ^ i * (2 * a + 1)) (m - i) < nNodes
  above : ∀ j < i, nNodes ≤ node (2 ^ j * (2 * a + 1)) (m - j)

theorem descend_eq {nNodes b : Nat} (i : Nat) :
    ∀ j fuel m : Nat, i + j ≤ m → i < fuel →
      (∀ t, j ≤ t → t < i + j → nNodes ≤ node (2 ^ t * b) (m - t)) →
      node (2 ^ (i + j) * b) (m - (i + j)) < nNodes →
      descend nNodes fuel (node (2 ^ j * b) (m - j)) = .ok (node (2 ^ (i + j) * b) (m - (i + j))) := by
  induction i with
  | zero =>
    intro j fuel m _ enough _ there
    obtain ⟨fuel, rfl⟩ := Nat.exists_eq_add_of_lt enough
    rw [Nat.zero_add] at there ⊢
    rw [Nat.zero_add, descend, if_neg (Nat.not_le.mpr there)]
    rfl
  | succ i ih =>
    intro j fuel m within enough above there
    cases fuel with
    | zero => exact absurd enough (Nat.not_lt_zero _)
    | succ fuel =>
      have height : m - j = m - (j + 1) + 1 := by omega
      have next : i + 1 + j = i + (j + 1) := by omega
      rw [descend, if_pos (above j (Nat.le_refl j) (by omega)), height, left_node, ok_bind,
        ← Nat.mul_assoc, ← Nat.pow_succ', next]
      rw [next] at there
      exact ih (j + 1) fuel m (by omega) (by omega) (fun t from_ below => above t (by omega) (by omega))
        there

/-- The way up along missing nodes of the left edge ends above its top. -/
theorem climb_eq {nNodes a : Nat} (i : Nat) :
    ∀ m fuel : Nat, i < fuel →
      (∀ j < i, nNodes ≤ node (2 ^ (i - 1 - j) * (2 * a + 1)) (m + j)) →
      node a (m + i) < nNodes →
      climb nNodes fuel (node (2 ^ i * (2 * a + 1) / 2) m) = .ok (node a (m + i)) := by
  induction i with
  | zero =>
    intro m fuel enough _ there
    obtain ⟨fuel, rfl⟩ := Nat.exists_eq_add_of_lt enough
    rw [Nat.zero_add, climb, Nat.pow_zero, Nat.one_mul, show (2 * a + 1) / 2 = a by omega, if_neg]
    · rfl
    · exact Nat.not_le.mpr there
  | succ i ih =>
    intro m fuel enough missing there
    cases fuel with
    | zero => omega
    | succ fuel =>
      have half : 2 ^ (i + 1) * (2 * a + 1) / 2 = 2 ^ i * (2 * a + 1) := by
        rw [Nat.pow_succ, Nat.mul_comm (2 ^ i) 2, Nat.mul_assoc]
        exact Nat.mul_div_cancel_left _ (by decide)
      have first : nNodes ≤ node (2 ^ i * (2 * a + 1)) m := missing 0 (Nat.succ_pos i)
      rw [half, climb, if_pos first, parentPow2_node,
        ih (m + 1) fuel (by omega) ?_ (by rwa [show m + 1 + i = m + (i + 1) by omega]),
        show m + 1 + i = m + (i + 1) by omega]
      intro j below
      have next := missing (j + 1) (by omega)
      rwa [show i + 1 - 1 - (j + 1) = i - 1 - j by omega,
        show m + (j + 1) = m + 1 + j by omega] at next

/-! ## The root -/

theorem root_eq {n : Nat} (positive : 0 < n) : root n = .ok (node 0 (n - 1).size) := by
  have top : node 0 (n - 1).size = 1 <<< (n - 1).size - 1 := by
    rw [node, Nat.mul_zero, Nat.zero_add, Nat.one_shiftLeft]
  rw [root, require_of positive, ok_bind]
  split
  · rename_i one
    subst one
    rfl
  · rw [top]
    rfl

theorem root_there {n : Nat} (positive : 0 < n) : node 0 (n - 1).size < 2 * n - 1 := by
  rw [node, Nat.mul_zero, Nat.zero_add]
  rcases Nat.eq_zero_or_pos (n - 1).size with zero | height
  · rw [zero]
    omega
  · have low : 2 ^ ((n - 1).size - 1) ≤ n - 1 := Nat.lt_size.mp (by omega)
    have pow : 2 ^ (n - 1).size = 2 ^ ((n - 1).size - 1) * 2 := by
      rw [← Nat.pow_succ, show ((n - 1).size - 1).succ = (n - 1).size by omega]
    omega

theorem leaves_le {n : Nat} (positive : 0 < n) : n ≤ 2 ^ (n - 1).size := by
  have bound := Nat.lt_size_self (n - 1)
  omega

/-- No node that is there is above the root. -/
theorem height_le {n a m : Nat} (positive : 0 < n) (there : node a m < 2 * n - 1) :
    m ≤ (n - 1).size := by
  by_contra above
  have tall : 2 ^ ((n - 1).size + 1) ≤ 2 ^ m := Nat.pow_le_pow_right (by decide) (by omega)
  have bound := leaves_le positive
  have low : 2 ^ m - 1 ≤ node a m := Nat.le_add_left _ _
  rw [Nat.pow_succ] at tall
  omega

theorem size_lt {n : Nat} (positive : 0 < n) : (n - 1).size < n := by
  rcases Nat.eq_zero_or_pos (n - 1).size with zero | height
  · omega
  · have low : 2 ^ ((n - 1).size - 1) ≤ n - 1 := Nat.lt_size.mp (by omega)
    have grows := Nat.lt_two_pow_self (n := (n - 1).size - 1)
    omega

/-! ## Children and parents -/

section Nodes

variable {fuel n a m i : Nat}

theorem nLeavesToNNodes_eq (positive : 0 < n) : nLeavesToNNodes n = .ok (2 * n - 1) := by
  rw [nLeavesToNNodes, require_of positive]
  rfl

theorem parent_eq {x : Nat} (positive : 0 < n) (notRoot : x ≠ node 0 (n - 1).size)
    (there : x < 2 * n - 1) : parent fuel x n = climb (2 * n - 1) fuel (parentPow2 x) := by
  rw [parent, nLeavesToNNodes_eq positive, ok_bind, root_eq positive, ok_bind,
    require_of notRoot, ok_bind, require_of (Nat.not_le.mpr there), ok_bind]

/-- The leaves below the right subtree begin right after a node. -/
theorem node_succ (a m : Nat) : node a (m + 1) + 1 = 2 ^ (m + 1) * (2 * a + 1) := by
  have one := Nat.one_le_two_pow (n := m + 1)
  have pow := Nat.pow_succ 2 (m + 1)
  rw [node, pow, Nat.mul_assoc, Nat.mul_succ]
  omega

theorem left_there (there : node a (m + 1) < 2 * n - 1) : node (2 * a) m < 2 * n - 1 :=
  Nat.lt_trans (node_left_lt a m) there

theorem exists_rightChild (there : node a (m + 1) < 2 * n - 1) :
    ∃ i, RightChild (2 * n - 1) a m i := by
  have bottom : ∃ i, node (2 ^ i * (2 * a + 1)) (m - i) < 2 * n - 1 ∨ m ≤ i := ⟨m, .inr (Nat.le_refl m)⟩
  have leafThere : node (2 ^ m * (2 * a + 1)) (m - m) < 2 * n - 1 := by
    have next := node_succ a m
    rw [Nat.sub_self, node_zero, ← Nat.mul_assoc, ← Nat.pow_succ', ← next]
    have odd := node_mod_two a m
    omega
  have least := Nat.find_spec bottom
  have within : Nat.find bottom ≤ m := Nat.find_le (.inr (Nat.le_refl m))
  refine ⟨Nat.find bottom, within, ?_, fun j below => ?_⟩
  · rcases least with there' | atBottom
    · exact there'
    · rwa [Nat.le_antisymm within atBottom]
  · have missing := Nat.find_min bottom below
    exact Nat.not_lt.mp fun there' => missing (.inl there')

theorem right_eq (positive : 0 < n) (enough : n ≤ fuel) (there : node a (m + 1) < 2 * n - 1)
    (child : RightChild (2 * n - 1) a m i) :
    right fuel (node a (m + 1)) n = .ok (node (2 ^ i * (2 * a + 1)) (m - i)) := by
  have internal : ¬ isLeaf (node a (m + 1)) = true := by
    rw [isLeaf_node_succ]
    exact Bool.false_ne_true
  have low := height_le positive there
  have few := size_lt positive
  have within := child.within
  have ends := descend_eq (b := 2 * a + 1) i 0 fuel m (by omega) (by omega)
    (fun t _ below => child.above t below) child.there
  rw [Nat.pow_zero, Nat.one_mul, Nat.sub_zero] at ends
  rw [right, require_of internal, ok_bind, level_node, Nat.add_sub_cancel, node_right,
    nLeavesToNNodes_eq positive, ok_bind]
  exact ends

theorem parent_of_left (positive : 0 < n) (enough : n ≤ fuel) (there : node a (m + 1) < 2 * n - 1) :
    parent fuel (node (2 * a) m) n = .ok (node a (m + 1)) := by
  have notRoot : node (2 * a) m ≠ node 0 (n - 1).size := by
    intro same
    have height := (node_inj.mp same).2
    have low := height_le positive there
    omega
  obtain ⟨fuel, rfl⟩ : ∃ f, fuel = f + 1 := ⟨fuel - 1, by omega⟩
  rw [parent_eq positive notRoot (left_there there), parentPow2_node,
    Nat.mul_div_cancel_left a (by decide), climb, if_neg (Nat.not_le.mpr there)]
  rfl

theorem parent_of_right (positive : 0 < n) (enough : n ≤ fuel)
    (there : node a (m + 1) < 2 * n - 1) (child : RightChild (2 * n - 1) a m i) :
    parent fuel (node (2 ^ i * (2 * a + 1)) (m - i)) n = .ok (node a (m + 1)) := by
  have within := child.within
  have low := height_le positive there
  have few := size_lt positive
  have notRoot : node (2 ^ i * (2 * a + 1)) (m - i) ≠ node 0 (n - 1).size := by
    intro same
    have height := (node_inj.mp same).2
    omega
  have ends := climb_eq (a := a) i (m - i + 1) fuel (by omega) (fun j below => ?_)
    (by rwa [show m - i + 1 + i = m + 1 by omega])
  · rw [parent_eq positive notRoot child.there, parentPow2_node, ends,
      show m - i + 1 + i = m + 1 by omega]
  · have missing := child.above (i - 1 - j) (by omega)
    rwa [show m - (i - 1 - j) = m - i + 1 + j by omega] at missing

/-- A left child is before its parent and a right child after it. -/
theorem left_ne_right (child : RightChild (2 * n - 1) a m i) :
    node (2 * a) m ≠ node (2 ^ i * (2 * a + 1)) (m - i) := by
  intro same
  obtain ⟨lows, heights⟩ := node_inj.mp same
  have within := child.within
  obtain rfl : i = 0 := by omega
  rw [Nat.pow_zero] at lows
  omega

theorem exists_odd (c : Nat) (positive : 0 < c) : ∃ i a, c = 2 ^ i * (2 * a + 1) := by
  induction c using Nat.strongRecOn with
  | _ c ih =>
    rcases Nat.even_or_odd' c with ⟨b, rfl | rfl⟩
    · obtain ⟨i, a, rfl⟩ := ih b (by omega) (by omega)
      refine ⟨i + 1, a, ?_⟩
      rw [Nat.pow_succ', Nat.mul_assoc]
    · refine ⟨0, b, ?_⟩
      rw [Nat.pow_zero, Nat.one_mul]

/-- A node below the root is a child of a node that is there. -/
theorem exists_parent {x : Nat} (positive : 0 < n) (there : x < 2 * n - 1)
    (notRoot : x ≠ node 0 (n - 1).size) :
    ∃ a m, node a (m + 1) < 2 * n - 1 ∧
      (x = node (2 * a) m ∨
        ∃ i, RightChild (2 * n - 1) a m i ∧ x = node (2 ^ i * (2 * a + 1)) (m - i)) := by
  obtain ⟨c, h, rfl⟩ := exists_node x
  rcases Nat.eq_zero_or_pos c with rfl | lowest
  · have low := height_le positive there
    have proper : h + 1 ≤ (n - 1).size := by
      have other : h ≠ (n - 1).size := fun same => notRoot (by rw [same])
      omega
    have tall : 2 ^ (h + 1) ≤ 2 ^ (n - 1).size := Nat.pow_le_pow_right (by decide) proper
    have top := root_there positive
    refine ⟨0, h, ?_, .inl rfl⟩
    rw [node] at top ⊢
    omega
  · obtain ⟨i, a, rfl⟩ := exists_odd c lowest
    -- the nodes above it along the left edge, up to the first that is a right child
    have higher (j t : Nat) (order : j ≤ t) (within : t ≤ i) :
        node (2 ^ t * (2 * a + 1)) (h + i - t) ≤ node (2 ^ j * (2 * a + 1)) (h + i - j) := by
      have lo (s : Nat) (inside : s ≤ i) :
          2 ^ (h + i - s + 1) * (2 ^ s * (2 * a + 1)) = 2 ^ (h + i + 1) * (2 * a + 1) := by
        rw [← Nat.mul_assoc, ← Nat.pow_add, show h + i - s + 1 + s = h + i + 1 by omega]
      have pow : 2 ^ (h + i - t) ≤ 2 ^ (h + i - j) := Nat.pow_le_pow_right (by decide) (by omega)
      rw [node, node, lo t within, lo j (by omega)]
      omega
    cases i with
    | zero =>
      refine ⟨a, h, ?_, .inr ⟨0, ⟨Nat.zero_le h, ?_, fun j none => absurd none (Nat.not_lt_zero j)⟩, rfl⟩⟩
      · have first := pow_le_node (2 ^ 0 * (2 * a + 1)) h
        rw [Nat.pow_zero, Nat.one_mul, ← node_succ] at first
        rw [Nat.pow_zero, Nat.one_mul] at there
        omega
      · exact there
    | succ i =>
      by_cases next : node (2 ^ i * (2 * a + 1)) (h + 1) < 2 * n - 1
      · refine ⟨2 ^ i * (2 * a + 1), h, next, .inl ?_⟩
        rw [← Nat.mul_assoc, ← Nat.pow_succ']
      · refine ⟨a, h + (i + 1), ?_, .inr ⟨i + 1, ⟨Nat.le_add_left _ _, ?_, fun j below => ?_⟩, ?_⟩⟩
        · have first := pow_le_node (2 ^ (i + 1) * (2 * a + 1)) h
          rw [← Nat.mul_assoc, ← Nat.pow_add, show h + 1 + (i + 1) = h + (i + 1) + 1 by omega,
            ← node_succ] at first
          omega
        · rwa [Nat.add_sub_cancel]
        · have above := higher j i (by omega) (by omega)
          rw [show h + (i + 1) - i = h + 1 by omega] at above
          omega
        · rw [Nat.add_sub_cancel]

end Nodes

end OneLink.TreeKem
