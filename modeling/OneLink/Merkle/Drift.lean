/-
# Merkle.Drift — which positions the walk reports

A position is reported when no two digests on its path agree (`mem_walk`).  Equal
digests vouch for the leaves both trees have below them, so what is reported below
both leaf counts is exact.  Past the shorter count the shorter tree reads as copies of
its last leaf: the walk misses a position there exactly when a leaf of the longer list
past the shorter one repeats the shorter one's last leaf.
-/
import OneLink.Merkle.Tree
import Mathlib.Data.List.Sort

namespace OneLink.Merkle

open Library

set_option autoImplicit false

/-- The positions at which the two lists differ, or only one of them has a leaf. -/
def driftPositions (here there : List LeafHash) : List Nat :=
  (List.range (max here.length there.length)).filter fun i =>
    (here.map validateHash)[i]? ≠ (there.map validateHash)[i]?

/-- No leaf of `longer` past the length of `shorter` repeats the last leaf of `shorter`. -/
def EndsApart (shorter longer : List LeafHash) : Prop :=
  ∀ h ∈ (longer.map validateHash).drop shorter.length,
    (shorter.map validateHash).getLast? ≠ some h

/-! ## The walk -/

section Walk

variable {here there : MerkleTree} {maxLen : Nat}

/-- The digests differ at every node on the way from level `level` to a leaf. -/
def PathDiffers (here there : MerkleTree) (level i : Nat) : Prop :=
  ∀ k ≤ level, here.digestAt k (i / 2 ^ k) ≠ there.digestAt k (i / 2 ^ k)

theorem half_pow (level : Nat) : max 1 (2 ^ (level + 1) / 2) = 2 ^ level := by
  have positive : 0 < 2 ^ level := by positivity
  rw [pow_succ, Nat.mul_div_cancel _ (by omega)]
  omega

theorem walk_past {level idx start width : Nat} (past : maxLen ≤ start) :
    walk here there maxLen level idx start width = [] := by
  rw [walk.eq_def, if_pos past]

/-- Equal digests prune the subtree. -/
theorem walk_same {level idx start width : Nat}
    (same : here.digestAt level idx = there.digestAt level idx) :
    walk here there maxLen level idx start width = [] := by
  rw [walk.eq_def, if_pos same, ite_self]

theorem walk_leaf {idx start width : Nat} (inside : start < maxLen)
    (differ : here.digestAt 0 idx ≠ there.digestAt 0 idx) :
    walk here there maxLen 0 idx start width = [start] := by
  rw [walk, if_neg (not_le.mpr inside), if_neg differ]
  exact if_pos inside

/-- The walk below a node goes through both of its children. -/
theorem walk_succ {level idx : Nat} (inside : idx * 2 ^ (level + 1) < maxLen)
    (differ : here.digestAt (level + 1) idx ≠ there.digestAt (level + 1) idx) :
    walk here there maxLen (level + 1) idx (idx * 2 ^ (level + 1)) (2 ^ (level + 1)) =
      walk here there maxLen level (idx * 2) (idx * 2 * 2 ^ level) (2 ^ level) ++
        walk here there maxLen level (idx * 2 + 1) ((idx * 2 + 1) * 2 ^ level) (2 ^ level) := by
  have wide : ¬ 2 ^ (level + 1) ≤ 1 := by
    have positive : 0 < 2 ^ level := by positivity
    omega
  have left : idx * 2 ^ (level + 1) = idx * 2 * 2 ^ level := by ring
  have right : idx * 2 ^ (level + 1) + 2 ^ level = (idx * 2 + 1) * 2 ^ level := by ring
  rw [walk, if_neg (not_le.mpr inside), if_neg differ]
  simp only [if_neg wide, half_pow, right]
  rw [left]

theorem pathDiffers_succ {level i : Nat} :
    PathDiffers here there (level + 1) i ↔
      here.digestAt (level + 1) (i / 2 ^ (level + 1)) ≠
          there.digestAt (level + 1) (i / 2 ^ (level + 1)) ∧
        PathDiffers here there level i := by
  constructor
  · intro differs
    exact ⟨differs _ le_rfl, fun k below => differs k (by omega)⟩
  · rintro ⟨top, differs⟩ k below
    rcases Nat.lt_or_eq_of_le below with lower | rfl
    · exact differs k (by omega)
    · exact top

theorem mem_walk_pruned {level idx i : Nat}
    (pruned : maxLen ≤ idx * 2 ^ level ∨ here.digestAt level idx = there.digestAt level idx) :
    i ∈ walk here there maxLen level idx (idx * 2 ^ level) (2 ^ level) ↔
      i < maxLen ∧ i / 2 ^ level = idx ∧ PathDiffers here there level i := by
  rcases pruned with past | same
  · rw [walk_past past]
    simp only [List.not_mem_nil, false_iff]
    rintro ⟨low, rfl, -⟩
    have := Nat.div_mul_le_self i (2 ^ level)
    omega
  · rw [walk_same same]
    simp only [List.not_mem_nil, false_iff]
    rintro ⟨-, rfl, differs⟩
    exact differs level le_rfl same

/-- What is reported below a node: the positions under it whose path differs. -/
theorem mem_walk {level idx i : Nat} :
    i ∈ walk here there maxLen level idx (idx * 2 ^ level) (2 ^ level) ↔
      i < maxLen ∧ i / 2 ^ level = idx ∧ PathDiffers here there level i := by
  induction level generalizing idx with
  | zero =>
    by_cases pruned : maxLen ≤ idx * 2 ^ 0 ∨ here.digestAt 0 idx = there.digestAt 0 idx
    · exact mem_walk_pruned pruned
    · obtain ⟨inside, differ⟩ := not_or.mp pruned
      rw [walk_leaf (not_le.mp inside) differ, List.mem_singleton]
      simp only [pow_zero, mul_one, Nat.div_one] at inside ⊢
      constructor
      · rintro rfl
        refine ⟨not_le.mp inside, rfl, ?_⟩
        intro k below
        cases Nat.le_zero.mp below
        simpa using differ
      · rintro ⟨-, rfl, -⟩
        rfl
  | succ level ih =>
    by_cases pruned : maxLen ≤ idx * 2 ^ (level + 1) ∨
        here.digestAt (level + 1) idx = there.digestAt (level + 1) idx
    · exact mem_walk_pruned pruned
    · obtain ⟨inside, differ⟩ := not_or.mp pruned
      have up : i / 2 ^ (level + 1) = i / 2 ^ level / 2 := by
        rw [pow_succ, Nat.div_div_eq_div_mul]
      rw [walk_succ (not_le.mp inside) differ, List.mem_append, ih, ih, pathDiffers_succ, up]
      constructor
      · rintro (⟨low, under, differs⟩ | ⟨low, under, differs⟩)
        · have parent : i / 2 ^ level / 2 = idx := by omega
          exact ⟨low, parent, by rwa [parent], differs⟩
        · have parent : i / 2 ^ level / 2 = idx := by omega
          exact ⟨low, parent, by rwa [parent], differs⟩
      · rintro ⟨low, under, -, differs⟩
        rcases Nat.mod_two_eq_zero_or_one (i / 2 ^ level) with even | odd
        · exact .inl ⟨low, by omega, differs⟩
        · exact .inr ⟨low, by omega, differs⟩

/-- The walk reports in increasing order. -/
theorem walk_sorted (level idx : Nat) :
    (walk here there maxLen level idx (idx * 2 ^ level) (2 ^ level)).Pairwise (· < ·) := by
  induction level generalizing idx with
  | zero =>
    unfold walk
    split
    · exact .nil
    · split
      · exact .nil
      · dsimp only
        split
        · exact List.pairwise_singleton _ _
        · exact .nil
  | succ level ih =>
    by_cases past : maxLen ≤ idx * 2 ^ (level + 1)
    · rw [walk_past past]
      exact .nil
    by_cases same : here.digestAt (level + 1) idx = there.digestAt (level + 1) idx
    · rw [walk_same same]
      exact .nil
    rw [walk_succ (not_le.mp past) same, List.pairwise_append]
    refine ⟨ih _, ih _, ?_⟩
    intro i left j right
    obtain ⟨-, underLeft, -⟩ := mem_walk.mp left
    obtain ⟨-, underRight, -⟩ := mem_walk.mp right
    by_contra notLess
    have := Nat.div_le_div_right (c := 2 ^ level) (not_lt.mp notLess)
    omega

end Walk

/-! ## Two trees -/

section Trees

variable {blake3 : Bytes → String} {leaves leaves' : List String}

/-- The tree over non-empty leaves. -/
def treeOf (blake3 : Bytes → String) (leaves : List String) : MerkleTree :=
  ⟨leaves, levelsFrom (hashPair blake3) leaves⟩

theorem digestAt_of_level {t : MerkleTree} {k : Nat} {level : List String}
    (found : t.levels[k]? = some level) (idx : Nat) : t.digestAt k idx = reading level idx := by
  simp only [MerkleTree.digestAt, found]
  rfl

@[simp] theorem digestAt_leaves (leaves : List String) (idx : Nat) :
    (treeOf blake3 leaves).digestAt 0 idx = reading leaves idx :=
  digestAt_of_level (levelsFrom_zero _ leaves) idx

/-- Two digests agree on a level only if both trees reach it. -/
theorem levels_of_digest_eq (nonempty : leaves ≠ []) (nonempty' : leaves' ≠ []) {k idx : Nat}
    (reached : k < max (treeOf blake3 leaves).levels.length (treeOf blake3 leaves').levels.length)
    (same : (treeOf blake3 leaves).digestAt k idx = (treeOf blake3 leaves').digestAt k idx) :
    ∃ level level', (levelsFrom (hashPair blake3) leaves)[k]? = some level ∧
      (levelsFrom (hashPair blake3) leaves')[k]? = some level' ∧
      reading level idx = reading level' idx := by
  cases found : (levelsFrom (hashPair blake3) leaves)[k]? with
  | none =>
    cases found' : (levelsFrom (hashPair blake3) leaves')[k]? with
    | none =>
      have low := List.getElem?_eq_none_iff.mp found
      have low' := List.getElem?_eq_none_iff.mp found'
      simp only [treeOf] at reached
      omega
    | some level' =>
      obtain ⟨d, read⟩ := reading_isSome (level_ne_nil _ nonempty' found') idx
      rw [digestAt_of_level (t := treeOf blake3 leaves') found', read] at same
      simp [MerkleTree.digestAt, treeOf, found] at same
  | some level =>
    cases found' : (levelsFrom (hashPair blake3) leaves')[k]? with
    | none =>
      obtain ⟨d, read⟩ := reading_isSome (level_ne_nil _ nonempty found) idx
      rw [digestAt_of_level (t := treeOf blake3 leaves) found, read] at same
      simp [MerkleTree.digestAt, treeOf, found'] at same
    | some level' =>
      rw [digestAt_of_level (t := treeOf blake3 leaves) found,
        digestAt_of_level (t := treeOf blake3 leaves') found'] at same
      exact ⟨level, level', rfl, rfl, same⟩

variable (nonempty : leaves ≠ []) (nonempty' : leaves' ≠ [])
    (separates : Separates (hashPair blake3) leaves leaves')

include nonempty nonempty' separates

/-- Below both leaf counts the path to a position differs iff the leaves do. -/
theorem pathDiffers_iff {i height : Nat}
    (reached : height < max (treeOf blake3 leaves).levels.length
      (treeOf blake3 leaves').levels.length)
    (present : i < leaves.length) (present' : i < leaves'.length) :
    PathDiffers (treeOf blake3 leaves) (treeOf blake3 leaves') height i ↔
      leaves[i]? ≠ leaves'[i]? := by
  constructor
  · intro differs
    have leaf := differs 0 (Nat.zero_le _)
    rwa [digestAt_leaves, digestAt_leaves, pow_zero, Nat.div_one, reading_of_lt present,
      reading_of_lt present'] at leaf
  · intro differ k below same
    obtain ⟨level, level', found, found', equal⟩ :=
      levels_of_digest_eq nonempty nonempty' (by omega) same
    exact differ (leaf_eq_of_reading separates found found' present present' equal)

/-- Past the end of `leaves`, a path on which digests agree ends at a leaf of `leaves'`
past that end that repeats the last leaf of `leaves`. -/
theorem repeated_of_not_pathDiffers {i height : Nat}
    (reached : height < max (treeOf blake3 leaves).levels.length
      (treeOf blake3 leaves').levels.length)
    (past : leaves.length ≤ i) (present' : i < leaves'.length)
    (agrees : ¬ PathDiffers (treeOf blake3 leaves) (treeOf blake3 leaves') height i) :
    ∃ h ∈ leaves'.drop leaves.length, leaves.getLast? = some h := by
  simp only [PathDiffers, not_forall, not_not] at agrees
  obtain ⟨k, below, same⟩ := agrees
  obtain ⟨level, level', found, found', equal⟩ :=
    levels_of_digest_eq nonempty nonempty' (by omega) same
  have ends := right_below separates found found' equal
  -- the last position under the agreeing node is not before `i`
  have behind : i ≤ (i / 2 ^ k + 1) * 2 ^ k - 1 := by
    have := Nat.lt_mul_div_succ i (show 0 < 2 ^ k by positivity)
    rw [Nat.mul_comm] at this
    omega
  generalize (i / 2 ^ k + 1) * 2 ^ k - 1 = q at ends behind
  rw [reading_of_le (by omega : leaves.length ≤ q)] at ends
  have position : reading leaves' q = leaves'[min q (leaves'.length - 1)]? := by
    by_cases inside : q < leaves'.length
    · rw [reading_of_lt inside, min_eq_left (by omega)]
    · rw [reading_of_le (not_lt.mp inside), List.getLast?_eq_getElem?, min_eq_right (by omega)]
  have bounded : min q (leaves'.length - 1) < leaves'.length := by omega
  have found : leaves'[min q (leaves'.length - 1)]? =
      some leaves'[min q (leaves'.length - 1)] := List.getElem?_eq_getElem _
  refine ⟨_, List.mem_of_getElem? (i := min q (leaves'.length - 1) - leaves.length) ?_,
    ends.trans (position.trans found)⟩
  rw [List.getElem?_drop, ← found]
  congr 1
  omega

omit nonempty nonempty' separates in
/-- A leaf past the end of `leaves` that repeats its last leaf is not reported. -/
theorem not_pathDiffers_of_repeated {i height : Nat} (past : leaves.length ≤ i)
    (present' : i < leaves'.length) (same : leaves.getLast? = leaves'[i]?) :
    ¬ PathDiffers (treeOf blake3 leaves) (treeOf blake3 leaves') height i := by
  intro differs
  apply differs 0 (Nat.zero_le _)
  rw [digestAt_leaves, digestAt_leaves, pow_zero, Nat.div_one, reading_of_le past,
    reading_of_lt present', same]

omit nonempty nonempty' separates in
theorem pathDiffers_comm {height i : Nat} {here there : MerkleTree} :
    PathDiffers here there height i ↔ PathDiffers there here height i := by
  constructor
  · exact fun differs k below => (differs k below).symm
  · exact fun differs k below => (differs k below).symm

end Trees

/-! ## What `divergent_leaf_indexes` returns -/

section Result

variable {blake3 : Bytes → String} {leaves leaves' : List String}

theorem digestAt_top (blake3 : Bytes → String) (nonempty : leaves ≠ []) :
    (treeOf blake3 leaves).digestAt ((treeOf blake3 leaves).levels.length - 1) 0 =
      some ((treeOf blake3 leaves).root blake3) := by
  have some := List.getLast?_eq_some_getLast (levelsFrom_ne_nil (hashPair blake3) leaves)
  have top : (treeOf blake3 leaves).levels[(treeOf blake3 leaves).levels.length - 1]? =
      Option.some ((levelsFrom (hashPair blake3) leaves).getLast (levelsFrom_ne_nil _ _)) := by
    rw [← List.getLast?_eq_getElem?]
    exact some
  have topNonempty := level_ne_nil (hashPair blake3) nonempty top
  rw [digestAt_of_level top, MerkleTree.root]
  simp only [treeOf, some]
  generalize (levelsFrom (hashPair blake3) leaves).getLast _ = values at topNonempty
  cases values with
  | nil => exact absurd rfl topNonempty
  | cons d rest => rfl

/-- Of two trees with leaves the walk decides, the early exit included. -/
theorem divergentLeafIndexes_eq_walk (nonempty : leaves ≠ []) (nonempty' : leaves' ≠ [])
    {height : Nat} (top : height + 1 =
      max (treeOf blake3 leaves).levels.length (treeOf blake3 leaves').levels.length) :
    divergentLeafIndexes blake3 (treeOf blake3 leaves) (treeOf blake3 leaves') =
      walk (treeOf blake3 leaves) (treeOf blake3 leaves') (max leaves.length leaves'.length)
        height 0 (0 * 2 ^ height) (2 ^ height) := by
  unfold divergentLeafIndexes
  split
  · rename_i early
    have sameHeight : (treeOf blake3 leaves).levels.length =
        (treeOf blake3 leaves').levels.length := length_levelsFrom_congr _ early.2
    have root := digestAt_top blake3 nonempty
    have root' := digestAt_top blake3 nonempty'
    rw [← sameHeight, max_self] at top
    rw [walk_same]
    rw [← sameHeight, ← top, Nat.add_sub_cancel] at root'
    rw [← top, Nat.add_sub_cancel] at root
    rw [root, root', early.1]
  · rw [if_neg (show (treeOf blake3 leaves).leaves ≠ [] from nonempty),
      if_neg (show (treeOf blake3 leaves').leaves ≠ [] from nonempty'), Nat.zero_mul]
    dsimp only
    rw [← top, Nat.add_sub_cancel, Nat.one_shiftLeft]
    rfl

/-- The positions reported for two trees with leaves: those whose path differs. -/
theorem mem_divergentLeafIndexes (nonempty : leaves ≠ []) (nonempty' : leaves' ≠ [])
    {height : Nat} (top : height + 1 =
      max (treeOf blake3 leaves).levels.length (treeOf blake3 leaves').levels.length) {i : Nat} :
    i ∈ divergentLeafIndexes blake3 (treeOf blake3 leaves) (treeOf blake3 leaves') ↔
      i < max leaves.length leaves'.length ∧
        PathDiffers (treeOf blake3 leaves) (treeOf blake3 leaves') height i := by
  rw [divergentLeafIndexes_eq_walk nonempty nonempty' top, mem_walk]
  refine and_congr_right fun low => and_iff_right ?_
  have fits : leaves.length ≤ 2 ^ ((treeOf blake3 leaves).levels.length - 1) :=
    length_le_pow _ leaves
  have fits' : leaves'.length ≤ 2 ^ ((treeOf blake3 leaves').levels.length - 1) :=
    length_le_pow _ leaves'
  have wider : 2 ^ ((treeOf blake3 leaves).levels.length - 1) ≤ 2 ^ height :=
    Nat.pow_le_pow_right (by decide) (by omega)
  have wider' : 2 ^ ((treeOf blake3 leaves').levels.length - 1) ≤ 2 ^ height :=
    Nat.pow_le_pow_right (by decide) (by omega)
  exact Nat.div_eq_of_lt (by omega)

theorem mem_driftPositions {A B : List LeafHash} {i : Nat} :
    i ∈ driftPositions A B ↔ i < max A.length B.length ∧
      (A.map validateHash)[i]? ≠ (B.map validateHash)[i]? := by
  simp [driftPositions]

theorem driftPositions_sorted (A B : List LeafHash) : (driftPositions A B).Pairwise (· < ·) :=
  List.pairwise_lt_range.filter _

theorem divergentLeafIndexes_sorted (nonempty : leaves ≠ []) (nonempty' : leaves' ≠ [])
    {height : Nat} (top : height + 1 =
      max (treeOf blake3 leaves).levels.length (treeOf blake3 leaves').levels.length) :
    (divergentLeafIndexes blake3 (treeOf blake3 leaves) (treeOf blake3 leaves')).Pairwise
      (· < ·) := by
  rw [divergentLeafIndexes_eq_walk nonempty nonempty' top]
  exact walk_sorted _ _

/-- A leaf past the shorter list that repeats its end is one the walk leaves out. -/
theorem endsApart_of_exact {A B : List LeafHash} {height : Nat}
    (exact : ∀ i, i < max A.length B.length →
      (A.map validateHash)[i]? ≠ (B.map validateHash)[i]? →
      PathDiffers (treeOf blake3 (A.map validateHash)) (treeOf blake3 (B.map validateHash))
        height i) : EndsApart A B := by
  intro h behind last
  obtain ⟨t, found⟩ := List.getElem?_of_mem behind
  rw [List.getElem?_drop] at found
  have present : A.length + t < (B.map validateHash).length :=
    (List.getElem?_eq_some_iff.mp found).1
  have past : (A.map validateHash).length ≤ A.length + t := by simp
  have missing : (A.map validateHash)[A.length + t]? = none := List.getElem?_eq_none_iff.mpr past
  rw [List.length_map] at present
  refine not_pathDiffers_of_repeated past (by simpa using present) (last.trans found.symm)
    (exact (A.length + t) (by omega) ?_)
  rw [missing, found]
  exact (Option.some_ne_none h).symm

theorem buildTree_of_ne_nil {A : List LeafHash} (nonempty : A.map validateHash ≠ []) :
    buildTree blake3 A = treeOf blake3 (A.map validateHash) :=
  if_neg nonempty

theorem endsApart_of_nil {A B : List LeafHash} (empty : A = [] ∨ B = []) : EndsApart A B := by
  rcases empty with rfl | rfl
  · simp [EndsApart]
  · simp [EndsApart]

theorem driftPositions_nil_left (B : List LeafHash) : driftPositions [] B = List.range B.length := by
  simp only [driftPositions, List.length_nil, Nat.zero_max]
  refine List.filter_eq_self.mpr fun i inside => ?_
  rw [List.mem_range] at inside
  simp [inside]

theorem driftPositions_nil_right (A : List LeafHash) :
    driftPositions A [] = List.range A.length := by
  simp only [driftPositions, List.length_nil, Nat.max_zero]
  refine List.filter_eq_self.mpr fun i inside => ?_
  rw [List.mem_range] at inside
  simp [inside]

theorem leaves_buildTree (A : List LeafHash) :
    (buildTree blake3 A).leaves = A.map validateHash := by
  unfold buildTree
  dsimp only
  split
  · rename_i empty
    exact empty.symm
  · rfl

/-- With no leaves on one side every position of the other is reported. -/
theorem divergent_of_nil {A B : List LeafHash} (empty : A = [] ∨ B = []) :
    divergentLeafIndexes blake3 (buildTree blake3 A) (buildTree blake3 B) =
      driftPositions A B := by
  rcases empty with rfl | rfl
  · cases B with
    | nil => simp [divergentLeafIndexes, driftPositions]
    | cons h rest =>
      rw [driftPositions_nil_left, divergentLeafIndexes, MerkleTree.leafCount,
        MerkleTree.leafCount, leaves_buildTree, leaves_buildTree]
      simp
  · cases A with
    | nil => simp [divergentLeafIndexes, driftPositions]
    | cons h rest =>
      rw [driftPositions_nil_right, divergentLeafIndexes, MerkleTree.leafCount,
        MerkleTree.leafCount, leaves_buildTree, leaves_buildTree]
      simp

/-- Past the end of the shorter list every path differs, if its end is not repeated. -/
theorem pathDiffers_past {A B : List LeafHash} (nonempty : A.map validateHash ≠ [])
    (nonempty' : B.map validateHash ≠ [])
    (separates : Separates (hashPair blake3) (A.map validateHash) (B.map validateHash))
    {height i : Nat} (top : height + 1 = max (treeOf blake3 (A.map validateHash)).levels.length
      (treeOf blake3 (B.map validateHash)).levels.length)
    (apart : EndsApart A B) (past : A.length ≤ i) (present : i < B.length) :
    PathDiffers (treeOf blake3 (A.map validateHash)) (treeOf blake3 (B.map validateHash))
      height i := by
  by_contra agrees
  obtain ⟨h, behind, last⟩ := repeated_of_not_pathDiffers nonempty nonempty' separates (by omega)
    (by simpa using past) (by simpa using present) agrees
  rw [List.length_map] at behind
  exact apart h behind last

theorem separates_comm {leaves leaves' : List String}
    (separates : Separates (hashPair blake3) leaves leaves') :
    Separates (hashPair blake3) leaves' leaves :=
  separates.mono fun _ member => member.symm

/-- With the ends apart, a path differs iff the leaves do. -/
theorem pathDiffers_iff_differ {A B : List LeafHash} (nonempty : A.map validateHash ≠ [])
    (nonempty' : B.map validateHash ≠ [])
    (separates : Separates (hashPair blake3) (A.map validateHash) (B.map validateHash))
    {height i : Nat} (top : height + 1 = max (treeOf blake3 (A.map validateHash)).levels.length
      (treeOf blake3 (B.map validateHash)).levels.length)
    (apart : EndsApart A B) (apart' : EndsApart B A) (low : i < max A.length B.length) :
    PathDiffers (treeOf blake3 (A.map validateHash)) (treeOf blake3 (B.map validateHash))
        height i ↔
      (A.map validateHash)[i]? ≠ (B.map validateHash)[i]? := by
  by_cases present : i < A.length
  · by_cases present' : i < B.length
    · exact pathDiffers_iff nonempty nonempty' separates (by omega) (by simpa using present)
        (by simpa using present')
    · have differs := pathDiffers_past nonempty' nonempty (separates_comm separates)
        (by rw [top, max_comm]) apart' (not_lt.mp present') present
      refine ⟨fun _ => ?_, fun _ => pathDiffers_comm.mp differs⟩
      simp [present, not_lt.mp present']
  · have present' : i < B.length := by omega
    have differs := pathDiffers_past nonempty nonempty' separates top apart (not_lt.mp present)
      present'
    refine ⟨fun _ => ?_, fun _ => differs⟩
    simp [present', not_lt.mp present]

/-- **The walk reports exactly the positions at which the lists differ, unless a leaf of
the longer list past the shorter one repeats the shorter one's last leaf.** -/
theorem divergentLeafIndexes_eq_iff (A B : List LeafHash)
    (separates : Separates (hashPair blake3) (A.map validateHash) (B.map validateHash)) :
    divergentLeafIndexes blake3 (buildTree blake3 A) (buildTree blake3 B) = driftPositions A B ↔
      EndsApart A B ∧ EndsApart B A := by
  by_cases empty : A = [] ∨ B = []
  · exact iff_of_true (divergent_of_nil empty)
      ⟨endsApart_of_nil empty, endsApart_of_nil empty.symm⟩
  obtain ⟨nonempty, nonempty'⟩ := not_or.mp empty
  have leaves : A.map validateHash ≠ [] := by simpa using nonempty
  have leaves' : B.map validateHash ≠ [] := by simpa using nonempty'
  obtain ⟨height, top⟩ : ∃ height, height + 1 =
      max (treeOf blake3 (A.map validateHash)).levels.length
        (treeOf blake3 (B.map validateHash)).levels.length := by
    have positive : 0 < (treeOf blake3 (A.map validateHash)).levels.length :=
      List.length_pos_iff.mpr (levelsFrom_ne_nil _ _)
    exact ⟨_, Nat.sub_add_cancel (by omega)⟩
  have reported {i : Nat} := mem_divergentLeafIndexes (i := i) leaves leaves' top
  rw [List.length_map, List.length_map] at reported
  rw [buildTree_of_ne_nil leaves, buildTree_of_ne_nil leaves']
  constructor
  · intro exact
    have complete : ∀ i, i < max A.length B.length →
        (A.map validateHash)[i]? ≠ (B.map validateHash)[i]? →
        PathDiffers (treeOf blake3 (A.map validateHash)) (treeOf blake3 (B.map validateHash))
          height i := by
      intro i low differ
      have drifted := mem_driftPositions.mpr ⟨low, differ⟩
      rw [← exact] at drifted
      exact (reported.mp drifted).2
    refine ⟨endsApart_of_exact complete, @endsApart_of_exact blake3 B A height ?_⟩
    intro i low differ
    rw [pathDiffers_comm]
    exact complete i (by omega) (Ne.symm differ)
  · rintro ⟨apart, apart'⟩
    apply (divergentLeafIndexes_sorted leaves leaves' top).eq_of_mem_iff (driftPositions_sorted A B)
    intro i
    rw [reported, mem_driftPositions]
    exact and_congr_right fun low =>
      pathDiffers_iff_differ leaves leaves' separates top apart apart' low

end Result

/-! ## A position that is missed -/

/-- The hash with 64 equal digits. -/
def uniform (digit : Char) (hex : isHexDigit digit = true) : LeafHash where
  text := String.ofList (List.replicate 64 digit)
  length_eq := by simp
  hex := by simp [hex]

def leafA : LeafHash := uniform 'a' (by decide)
def leafB : LeafHash := uniform 'b' (by decide)
def leafC : LeafHash := uniform 'c' (by decide)

/-- A digest function for the runs below: the data, read as characters. -/
def textOf (data : Bytes) : String := String.ofList (data.map fun b => Char.ofNat b.toNat)

theorem separates_of_two {x y z : String} : Separates (hashPair textOf) [x] [y, z] := by
  rw [Separates, combinedPairs_singleton, combinedPairs_pair]
  intro p member q member' _
  simp only [List.not_mem_nil, List.mem_singleton, false_or, Set.mem_ofPred_eq] at member member'
  rw [member, member']

/-- One leaf against the same leaf twice: the second position is not reported. -/
theorem drift_missed :
    Separates (hashPair textOf) ([leafA].map validateHash) ([leafA, leafA].map validateHash) ∧
      divergentLeafIndexes textOf (buildTree textOf [leafA]) (buildTree textOf [leafA, leafA]) =
        [] ∧
      driftPositions [leafA] [leafA, leafA] = [1] := by
  refine ⟨separates_of_two, ?_, ?_⟩
  · decide +kernel
  · decide +kernel

theorem drift_found :
    Separates (hashPair textOf) ([leafA].map validateHash) ([leafB, leafC].map validateHash) ∧
      divergentLeafIndexes textOf (buildTree textOf [leafA]) (buildTree textOf [leafB, leafC]) =
        driftPositions [leafA] [leafB, leafC] := by
  refine ⟨separates_of_two, (divergentLeafIndexes_eq_iff [leafA] [leafB, leafC]
    separates_of_two).mpr ⟨?_, ?_⟩⟩
  · unfold EndsApart
    decide +kernel
  · simp [EndsApart]

end OneLink.Merkle
