/-
# Library.MerkleLevels — binary trees whose odd levels repeat their last digest

`levelsFrom combine leaves` lists the levels of the tree from the leaves up: adjacent
digests are combined, and a level of odd length repeats its last digest first.
`reading` reads a level at any index, its last digest standing for what lies past the
end.  A digest is the combination of the two below it wherever it is a digest of the
tree (`reading_nextLevel`); past the end only its right component is what a reader
finds below, which is the rule `right_below` works with.

`combine` has to separate the pairs two trees combine, and no others.
-/
import Mathlib.Data.List.Basic
import Mathlib.Data.Set.Function
import Mathlib.Tactic.Positivity
import Mathlib.Tactic.Ring

namespace OneLink.Library

set_option autoImplicit false

section Levels

variable {D : Type} (combine : D → D → D)

/-- A level with its last digest repeated if its length is odd. -/
def padEven (level : List D) : List D :=
  if level.length % 2 = 1 then level ++ level.getLast?.toList else level

def pairs : List D → List (D × D)
  | x :: y :: rest => (x, y) :: pairs rest
  | _ => []

/-- The pairs combined above a level. -/
def levelPairs (level : List D) : List (D × D) := pairs (padEven level)

def nextLevel (level : List D) : List D := (levelPairs level).map fun p => combine p.1 p.2

/-- The digest at an index; past the end, the last one. -/
def reading (level : List D) (i : Nat) : Option D :=
  if i < level.length then level[i]? else level.getLast?

theorem length_padEven {level : List D} (nonempty : level ≠ []) :
    (padEven level).length = (level.length + 1) / 2 * 2 := by
  unfold padEven
  split
  · rename_i odd
    rw [List.length_append, List.getLast?_eq_some_getLast nonempty]
    simp only [Option.toList_some, List.length_singleton]
    omega
  · omega

theorem getElem?_pairs (l : List D) (j : Nat) :
    (pairs l)[j]? = (l[2 * j]?).bind fun a => (l[2 * j + 1]?).map fun b => (a, b) := by
  induction l using pairs.induct generalizing j with
  | case1 x y rest ih =>
    cases j with
    | zero => rfl
    | succ j =>
      rw [pairs, List.getElem?_cons_succ, ih]
      rfl
  | case2 l short =>
    match l, short with
    | [], _ => simp [pairs]
    | [x], _ =>
      have past : ([x] : List D)[2 * j + 1]? = none := by simp
      rw [past]
      cases ([x] : List D)[2 * j]? <;> simp [pairs]
    | x :: y :: rest, short => exact absurd rfl (short x y rest)

theorem getElem?_padEven {level : List D} (nonempty : level ≠ []) {i : Nat}
    (inside : i < (level.length + 1) / 2 * 2) : (padEven level)[i]? = reading level i := by
  unfold padEven reading
  by_cases present : i < level.length
  · rw [if_pos present]
    split
    · exact List.getElem?_append_left present
    · rfl
  · have last : i = level.length := by omega
    have odd : level.length % 2 = 1 := by omega
    rw [if_neg present, if_pos odd, List.getElem?_append_right (by omega), last, Nat.sub_self,
      List.getLast?_eq_some_getLast nonempty]
    rfl

theorem reading_isSome {level : List D} (nonempty : level ≠ []) (i : Nat) :
    ∃ d, reading level i = some d := by
  unfold reading
  split
  · rename_i present
    exact ⟨level[i], List.getElem?_eq_getElem present⟩
  · exact ⟨_, List.getLast?_eq_some_getLast nonempty⟩

theorem reading_of_lt {level : List D} {i : Nat} (present : i < level.length) :
    reading level i = level[i]? :=
  if_pos present

theorem reading_of_le {level : List D} {i : Nat} (past : level.length ≤ i) :
    reading level i = level.getLast? :=
  if_neg (not_lt.mpr past)

/-- From the last index on, a level reads as its last digest. -/
theorem reading_eq_last {level : List D} {i : Nat} (late : level.length ≤ i + 1) :
    reading level i = level.getLast? := by
  by_cases present : i < level.length
  · rw [reading_of_lt present, List.getLast?_eq_getElem?]
    congr 1
    omega
  · exact reading_of_le (not_lt.mp present)

theorem length_levelPairs {level : List D} (nonempty : level ≠ []) :
    (levelPairs level).length = (level.length + 1) / 2 := by
  have pairsLength : ∀ l : List D, (pairs l).length = l.length / 2 := by
    intro l
    induction l using pairs.induct with
    | case1 x y rest ih =>
      simp only [pairs, List.length_cons, ih]
      omega
    | case2 l short =>
      match l, short with
      | [], _ => simp [pairs]
      | [x], _ => simp [pairs]
      | x :: y :: rest, short => exact absurd rfl (short x y rest)
  rw [levelPairs, pairsLength, length_padEven nonempty]
  omega

theorem length_nextLevel {level : List D} (nonempty : level ≠ []) :
    (nextLevel combine level).length = (level.length + 1) / 2 := by
  rw [nextLevel, List.length_map, length_levelPairs nonempty]

theorem nextLevel_ne_nil {level : List D} (nonempty : level ≠ []) :
    nextLevel combine level ≠ [] := by
  have positive : 0 < level.length := List.length_pos_iff.mpr nonempty
  rw [← List.length_pos_iff, length_nextLevel combine nonempty]
  omega

/-- A digest of the next level combines the two below it. -/
theorem getElem?_nextLevel {level : List D} (nonempty : level ≠ []) {j : Nat}
    (inside : j < (level.length + 1) / 2) :
    ∃ a b, (a, b) ∈ levelPairs level ∧ reading level (2 * j) = some a ∧
      reading level (2 * j + 1) = some b ∧
      (nextLevel combine level)[j]? = some (combine a b) := by
  obtain ⟨a, left⟩ := reading_isSome nonempty (2 * j)
  obtain ⟨b, right⟩ := reading_isSome nonempty (2 * j + 1)
  have pair : (levelPairs level)[j]? = some (a, b) := by
    rw [levelPairs, getElem?_pairs, getElem?_padEven nonempty (by omega),
      getElem?_padEven nonempty (by omega), left, right]
    rfl
  refine ⟨a, b, List.mem_of_getElem? pair, left, right, ?_⟩
  rw [nextLevel, List.getElem?_map, pair]
  rfl

/-- A reading one level up combines a pair whose right component is read at the right
index below, and whose left component is too, inside the level. -/
theorem reading_nextLevel {level : List D} (nonempty : level ≠ []) (j : Nat) :
    ∃ a b, (a, b) ∈ levelPairs level ∧
      reading (nextLevel combine level) j = some (combine a b) ∧
      reading level (2 * j + 1) = some b ∧
      (2 * j < level.length → reading level (2 * j) = some a) := by
  have length := length_nextLevel combine nonempty
  have positive : 0 < level.length := List.length_pos_iff.mpr nonempty
  by_cases inside : j < (level.length + 1) / 2
  · obtain ⟨a, b, pair, left, right, here⟩ := getElem?_nextLevel combine nonempty inside
    refine ⟨a, b, pair, ?_, right, fun _ => left⟩
    rw [reading_of_lt (by omega), here]
  · obtain ⟨a, b, pair, -, right, here⟩ :=
      getElem?_nextLevel combine nonempty (j := (level.length + 1) / 2 - 1) (by omega)
    refine ⟨a, b, pair, ?_, ?_, fun present => by omega⟩
    · rw [reading_of_le (by omega), List.getLast?_eq_getElem?, length, here]
    · rw [reading_eq_last (by omega)] at right ⊢
      exact right

end Levels

/-! ## The levels of a tree -/

section Tree

variable {D : Type} (combine : D → D → D)

theorem length_nextLevel_lt {level : List D} (long : 1 < level.length) :
    (nextLevel combine level).length < level.length := by
  rw [length_nextLevel combine (List.length_pos_iff.mp (by omega))]
  omega

/-- The levels from the leaves to the root. -/
def levelsFrom (level : List D) : List (List D) :=
  if 1 < level.length then level :: levelsFrom (nextLevel combine level) else [level]
termination_by level.length
decreasing_by exact length_nextLevel_lt combine (by assumption)

/-- The pairs combined anywhere in the tree. -/
def combinedPairs (level : List D) : List (D × D) :=
  if 1 < level.length then levelPairs level ++ combinedPairs (nextLevel combine level) else []
termination_by level.length
decreasing_by exact length_nextLevel_lt combine (by assumption)

/-- The pairs a tree combines are told apart from those another one combines. -/
def Separates (l l' : List D) : Prop :=
  Set.InjOn (fun p : D × D => combine p.1 p.2)
    {p | p ∈ combinedPairs combine l ∨ p ∈ combinedPairs combine l'}

theorem levelsFrom_of_lt {level : List D} (long : 1 < level.length) :
    levelsFrom combine level = level :: levelsFrom combine (nextLevel combine level) := by
  rw [levelsFrom, if_pos long]

theorem levelsFrom_of_le {level : List D} (short : level.length ≤ 1) :
    levelsFrom combine level = [level] := by
  rw [levelsFrom, if_neg (not_lt.mpr short)]

theorem combinedPairs_of_lt {level : List D} (long : 1 < level.length) :
    combinedPairs combine level =
      levelPairs level ++ combinedPairs combine (nextLevel combine level) := by
  rw [combinedPairs, if_pos long]

@[simp] theorem combinedPairs_singleton (x : D) : combinedPairs combine [x] = [] := by
  rw [combinedPairs, if_neg (by simp)]

@[simp] theorem combinedPairs_pair (x y : D) : combinedPairs combine [x, y] = [(x, y)] := by
  rw [combinedPairs_of_lt _ (by simp), combinedPairs, if_neg (by simp [nextLevel, levelPairs,
    padEven, pairs])]
  simp [levelPairs, padEven, pairs]

@[simp] theorem levelsFrom_zero (level : List D) : (levelsFrom combine level)[0]? = some level := by
  rw [levelsFrom]
  split <;> rfl

/-- A level above the leaves is the next level of the one below it. -/
theorem level_succ {leaves : List D} {k : Nat} {upper : List D}
    (found : (levelsFrom combine leaves)[k + 1]? = some upper) :
    ∃ lower, (levelsFrom combine leaves)[k]? = some lower ∧ 1 < lower.length ∧
      upper = nextLevel combine lower ∧
      ∀ p ∈ levelPairs lower, p ∈ combinedPairs combine leaves := by
  induction k generalizing leaves with
  | zero =>
    by_cases long : 1 < leaves.length
    · rw [levelsFrom_of_lt combine long, List.getElem?_cons_succ, levelsFrom_zero] at found
      cases found
      refine ⟨leaves, levelsFrom_zero combine leaves, long, rfl, fun p member => ?_⟩
      rw [combinedPairs_of_lt combine long]
      exact List.mem_append_left _ member
    · rw [levelsFrom_of_le combine (not_lt.mp long)] at found
      simp at found
  | succ k ih =>
    by_cases long : 1 < leaves.length
    · rw [levelsFrom_of_lt combine long, List.getElem?_cons_succ] at found
      obtain ⟨lower, below, lowerLong, next, combined⟩ := ih found
      refine ⟨lower, ?_, lowerLong, next, fun p member => ?_⟩
      · rw [levelsFrom_of_lt combine long, List.getElem?_cons_succ, below]
      · rw [combinedPairs_of_lt combine long]
        exact List.mem_append_right _ (combined p member)
    · rw [levelsFrom_of_le combine (not_lt.mp long)] at found
      simp at found

theorem levelsFrom_ne_nil (leaves : List D) : levelsFrom combine leaves ≠ [] := by
  intro empty
  have first := levelsFrom_zero combine leaves
  rw [empty] at first
  simp at first

theorem level_ne_nil {leaves : List D} (nonempty : leaves ≠ []) {k : Nat} {level : List D}
    (found : (levelsFrom combine leaves)[k]? = some level) : level ≠ [] := by
  cases k with
  | zero =>
    rw [levelsFrom_zero] at found
    cases found
    exact nonempty
  | succ k =>
    obtain ⟨lower, -, long, rfl, -⟩ := level_succ combine found
    exact nextLevel_ne_nil combine (List.length_pos_iff.mp (by omega))

theorem forall_pairs {P : D → Prop} {level : List D} (holds : ∀ x ∈ level, P x) :
    ∀ p ∈ pairs level, P p.1 ∧ P p.2 := by
  induction level using pairs.induct with
  | case1 x y rest ih =>
    intro p member
    rw [pairs, List.mem_cons] at member
    rcases member with rfl | later
    · exact ⟨holds x (by simp), holds y (by simp)⟩
    · exact ih (fun z inside => holds z (by simp [inside])) p later
  | case2 l short =>
    intro p member
    rw [pairs] at member
    · cases member
    · exact short

theorem forall_levelPairs {P : D → Prop} {level : List D} (holds : ∀ x ∈ level, P x) :
    ∀ p ∈ levelPairs level, P p.1 ∧ P p.2 := by
  refine forall_pairs fun x member => ?_
  rw [padEven] at member
  split at member
  · rcases List.mem_append.mp member with inside | last
    · exact holds x inside
    · exact holds x (List.mem_of_getLast? (by simpa using last))
  · exact holds x member

/-- What holds of the leaves and of every combined digest holds of all components. -/
theorem forall_combinedPairs {P : D → Prop} (combined : ∀ x y, P (combine x y)) {leaves : List D}
    (holds : ∀ x ∈ leaves, P x) : ∀ p ∈ combinedPairs combine leaves, P p.1 ∧ P p.2 := by
  induction leaves using combinedPairs.induct combine with
  | case1 leaves long ih =>
    intro p member
    rw [combinedPairs_of_lt combine long] at member
    rcases List.mem_append.mp member with here | above
    · exact forall_levelPairs holds p here
    · refine ih (fun x inside => ?_) p above
      obtain ⟨pair, -, rfl⟩ := List.mem_map.mp inside
      exact combined _ _
  | case2 leaves short =>
    intro p member
    rw [combinedPairs, if_neg short] at member
    cases member

/-- A leaf has an ancestor on every level. -/
theorem ancestor_lt_length {leaves : List D} {k : Nat} {level : List D} {i : Nat}
    (found : (levelsFrom combine leaves)[k]? = some level) (present : i < leaves.length) :
    i / 2 ^ k < level.length := by
  induction k generalizing level with
  | zero =>
    rw [levelsFrom_zero] at found
    cases found
    simpa using present
  | succ k ih =>
    obtain ⟨lower, below, long, rfl, -⟩ := level_succ combine found
    have ancestor := ih below
    rw [length_nextLevel combine (List.length_pos_iff.mp (by omega)), pow_succ,
      ← Nat.div_div_eq_div_mul]
    omega

/-- The number of levels depends on the number of leaves alone. -/
theorem length_levelsFrom_congr {leaves leaves' : List D}
    (same : leaves.length = leaves'.length) :
    (levelsFrom combine leaves).length = (levelsFrom combine leaves').length := by
  induction leaves using levelsFrom.induct combine generalizing leaves' with
  | case1 leaves long ih =>
    have nonempty : leaves ≠ [] := List.length_pos_iff.mp (by omega)
    have nonempty' : leaves' ≠ [] := List.length_pos_iff.mp (by omega)
    have next : (nextLevel combine leaves).length = (nextLevel combine leaves').length := by
      rw [length_nextLevel combine nonempty, length_nextLevel combine nonempty', same]
    have long' : 1 < leaves'.length := by omega
    rw [levelsFrom_of_lt combine long, levelsFrom_of_lt combine long', List.length_cons,
      List.length_cons, ih next]
  | case2 leaves short =>
    have short' : leaves'.length ≤ 1 := by omega
    rw [levelsFrom_of_le combine (by omega), levelsFrom_of_le combine short',
      List.length_singleton, List.length_singleton]

/-- The leaves fit under the root. -/
theorem length_le_pow (leaves : List D) :
    leaves.length ≤ 2 ^ ((levelsFrom combine leaves).length - 1) := by
  induction leaves using levelsFrom.induct combine with
  | case1 leaves long ih =>
    have positive : 0 < (levelsFrom combine (nextLevel combine leaves)).length :=
      List.length_pos_iff.mpr (levelsFrom_ne_nil combine _)
    rw [length_nextLevel combine (List.length_pos_iff.mp (by omega))] at ih
    rw [levelsFrom_of_lt combine long, List.length_cons, Nat.add_sub_cancel]
    have double := pow_succ 2 ((levelsFrom combine (nextLevel combine leaves)).length - 1)
    rw [Nat.sub_add_cancel positive] at double
    omega
  | case2 leaves short =>
    have one : 0 < 2 ^ ((levelsFrom combine leaves).length - 1) := by positivity
    omega

end Tree

/-! ## Two trees -/

section Compare

variable {D : Type} {combine : D → D → D} {leaves leaves' : List D}

/-- Equal readings of two trees combine equal pairs. -/
theorem components_eq (separates : Separates combine leaves leaves') {k k' : Nat}
    {upper upper' : List D} (found : (levelsFrom combine leaves)[k + 1]? = some upper)
    (found' : (levelsFrom combine leaves')[k' + 1]? = some upper') {j : Nat}
    (same : reading upper j = reading upper' j) :
    ∃ lower lower', (levelsFrom combine leaves)[k]? = some lower ∧
      (levelsFrom combine leaves')[k']? = some lower' ∧
      reading lower (2 * j + 1) = reading lower' (2 * j + 1) ∧
      (2 * j < lower.length → 2 * j < lower'.length →
        reading lower (2 * j) = reading lower' (2 * j)) := by
  obtain ⟨lower, below, long, rfl, combined⟩ := level_succ combine found
  obtain ⟨lower', below', long', rfl, combined'⟩ := level_succ combine found'
  obtain ⟨a, b, pair, here, right, left⟩ :=
    reading_nextLevel combine (List.length_pos_iff.mp (by omega : 0 < lower.length)) j
  obtain ⟨a', b', pair', here', right', left'⟩ :=
    reading_nextLevel combine (List.length_pos_iff.mp (by omega : 0 < lower'.length)) j
  rw [here, here', Option.some_inj] at same
  have samePair : (a, b) = (a', b') :=
    separates (.inl (combined _ pair)) (.inr (combined' _ pair')) same
  cases samePair
  refine ⟨lower, lower', below, below', by rw [right, right'], fun present present' => ?_⟩
  rw [left present, left' present']

/-- Equal digests above a leaf of both trees are digests of equal leaves. -/
theorem leaf_eq_of_reading (separates : Separates combine leaves leaves') {k : Nat}
    {level level' : List D} (found : (levelsFrom combine leaves)[k]? = some level)
    (found' : (levelsFrom combine leaves')[k]? = some level') {i : Nat}
    (present : i < leaves.length) (present' : i < leaves'.length)
    (same : reading level (i / 2 ^ k) = reading level' (i / 2 ^ k)) :
    leaves[i]? = leaves'[i]? := by
  induction k generalizing level level' with
  | zero =>
    rw [levelsFrom_zero] at found found'
    cases found
    cases found'
    rwa [pow_zero, Nat.div_one, reading_of_lt present, reading_of_lt present'] at same
  | succ k ih =>
    obtain ⟨lower, lower', below, below', right, left⟩ :=
      components_eq separates found found' same
    have up : i / 2 ^ (k + 1) = i / 2 ^ k / 2 := by
      rw [pow_succ, Nat.div_div_eq_div_mul]
    have ancestor := ancestor_lt_length combine below present
    have ancestor' := ancestor_lt_length combine below' present'
    rw [up] at right left
    refine ih below below' ?_
    -- the path to the leaf goes to the left or to the right component
    rcases Nat.mod_two_eq_zero_or_one (i / 2 ^ k) with even | odd
    · have here : 2 * (i / 2 ^ k / 2) = i / 2 ^ k := by omega
      rw [here] at left
      exact left ancestor ancestor'
    · have here : 2 * (i / 2 ^ k / 2) + 1 = i / 2 ^ k := by omega
      rwa [here] at right

/-- Equal digests agree on the last leaf below them, as the levels read. -/
theorem right_below (separates : Separates combine leaves leaves') {k : Nat}
    {level level' : List D} (found : (levelsFrom combine leaves)[k]? = some level)
    (found' : (levelsFrom combine leaves')[k]? = some level') {j : Nat}
    (same : reading level j = reading level' j) :
    reading leaves ((j + 1) * 2 ^ k - 1) = reading leaves' ((j + 1) * 2 ^ k - 1) := by
  induction k generalizing level level' j with
  | zero =>
    rw [levelsFrom_zero] at found found'
    cases found
    cases found'
    simpa using same
  | succ k ih =>
    obtain ⟨lower, lower', below, below', right, -⟩ :=
      components_eq separates found found' same
    have down : (2 * j + 1 + 1) * 2 ^ k = (j + 1) * 2 ^ (k + 1) := by ring
    rw [← down]
    exact ih below below' right

/-! ### Equal roots -/

/-- No leaf of the two trees is a combined digest of them. -/
def Apart (combine : D → D → D) (l l' : List D) : Prop :=
  ∀ x, x ∈ l ∨ x ∈ l' → ∀ p : D × D, p ∈ combinedPairs combine l ∨ p ∈ combinedPairs combine l' →
    combine p.1 p.2 ≠ x

/-- A digest above the leaves combines a pair of the tree. -/
theorem reading_above {k : Nat} {upper : List D}
    (found : (levelsFrom combine leaves)[k + 1]? = some upper) (j : Nat) :
    ∃ p ∈ combinedPairs combine leaves, reading upper j = some (combine p.1 p.2) := by
  obtain ⟨lower, -, long, rfl, combined⟩ := level_succ combine found
  obtain ⟨a, b, pair, here, -, -⟩ :=
    reading_nextLevel combine (List.length_pos_iff.mp (by omega : 0 < lower.length)) j
  exact ⟨(a, b), combined _ pair, here⟩

/-- A leaf is told apart from everything above the leaves of either tree. -/
theorem leaf_ne_above (apart : Apart combine leaves leaves') (nonempty : leaves ≠ []) {k : Nat}
    {upper : List D} (found : (levelsFrom combine leaves')[k + 1]? = some upper) :
    reading leaves 0 ≠ reading upper 0 := by
  intro same
  obtain ⟨p, pair, here⟩ := reading_above found 0
  have positive : 0 < leaves.length := List.length_pos_iff.mpr nonempty
  rw [reading_of_lt positive, List.getElem?_eq_getElem positive, here, Option.some_inj] at same
  exact apart _ (.inl (List.getElem_mem positive)) p (.inr pair) same.symm

theorem apart_comm (apart : Apart combine leaves leaves') : Apart combine leaves' leaves :=
  fun x member p pair => apart x member.symm p pair.symm

/-- Equal first digests stand on equal levels: the left spines unfold alike down to a leaf. -/
theorem level_index_eq (separates : Separates combine leaves leaves')
    (apart : Apart combine leaves leaves') (nonempty : leaves ≠ []) (nonempty' : leaves' ≠ [])
    {k k' : Nat} {level level' : List D} (found : (levelsFrom combine leaves)[k]? = some level)
    (found' : (levelsFrom combine leaves')[k']? = some level')
    (same : reading level 0 = reading level' 0) : k = k' := by
  induction k generalizing k' level level' with
  | zero =>
    rw [levelsFrom_zero] at found
    cases found
    cases k' with
    | zero => rfl
    | succ k' => exact absurd same (leaf_ne_above apart nonempty found')
  | succ k ih =>
    cases k' with
    | zero =>
      rw [levelsFrom_zero] at found'
      cases found'
      exact absurd same.symm (leaf_ne_above (apart_comm apart) nonempty' found)
    | succ k' =>
      obtain ⟨lower, lower', below, below', -, left⟩ :=
        components_eq separates found found' same
      have positive := List.length_pos_iff.mpr (level_ne_nil combine nonempty below)
      have positive' := List.length_pos_iff.mpr (level_ne_nil combine nonempty' below')
      rw [ih below below' (left (by omega) (by omega))]

/-- **The root determines the leaves**, if no leaf occurs twice: a level padded with a copy of its
last digest is no level of a longer list. -/
theorem leaves_eq_of_root (separates : Separates combine leaves leaves')
    (apart : Apart combine leaves leaves') (nonempty : leaves ≠ []) (nonempty' : leaves' ≠ [])
    (distinct : leaves.Nodup) (distinct' : leaves'.Nodup) {top top' : List D}
    (found : (levelsFrom combine leaves).getLast? = some top)
    (found' : (levelsFrom combine leaves').getLast? = some top')
    (same : reading top 0 = reading top' 0) : leaves = leaves' := by
  rw [List.getLast?_eq_getElem?] at found found'
  have heights := level_index_eq separates apart nonempty nonempty' found found' same
  have wide := length_le_pow combine leaves
  have wide' := length_le_pow combine leaves'
  rw [← heights] at found' wide'
  revert found found' wide wide'
  generalize (levelsFrom combine leaves).length - 1 = height
  intro found found' wide wide'
  have common : ∀ i, i < leaves.length → i < leaves'.length → leaves[i]? = leaves'[i]? := by
    intro i present present'
    refine leaf_eq_of_reading separates found found' present present' ?_
    rwa [Nat.div_eq_of_lt (by omega)]
  have last := right_below separates found found' same
  rw [Nat.zero_add, Nat.one_mul, reading_eq_last (by omega), reading_eq_last (by omega),
    List.getLast?_eq_getElem?, List.getLast?_eq_getElem?] at last
  have positive : 0 < leaves.length := List.length_pos_iff.mpr nonempty
  have positive' : 0 < leaves'.length := List.length_pos_iff.mpr nonempty'
  have lengths : leaves.length = leaves'.length := by
    rcases Nat.lt_trichotomy leaves.length leaves'.length with shorter | equal | longer
    · rw [common _ (by omega) (by omega)] at last
      have index := (List.getElem?_inj (by omega) distinct').mp last
      omega
    · exact equal
    · rw [← common (leaves'.length - 1) (by omega) (by omega)] at last
      have index := (List.getElem?_inj (by omega) distinct).mp last
      omega
  refine List.ext_getElem? fun i => ?_
  by_cases present : i < leaves.length
  · exact common i present (by omega)
  · rw [List.getElem?_eq_none (by omega), List.getElem?_eq_none (by omega)]

end Compare

end OneLink.Library
