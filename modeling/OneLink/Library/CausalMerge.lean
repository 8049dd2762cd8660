/-
# Library.CausalMerge — last-writer-wins registers over causal clocks

Writes carry a clock in a join semilattice and a rank.  A register that has
merged a set of writes should hold the join of their clocks and the greatest
rank among the causally maximal ones: `Represents`.

Merging keeps this when one side dominates (`Represents.of_le`).  When the two
sides are concurrent, taking the greater rank of the two registers keeps it only
if no superseded write outranks both the write that superseded it and a write
concurrent with both: `NoResurrection` (`Represents.of_concurrent`).

`Causal` is what honest clocks give: a write below a join of writes is below one
of them, and no two writes share a clock.
-/
import Mathlib.Order.Bounds.Basic
import Mathlib.Order.Lattice
import Mathlib.Data.Finset.Max
import Mathlib.Order.Preorder.Finite

namespace OneLink.Library.CausalMerge

set_option autoImplicit false

variable {I C L : Type} [SemilatticeSup C] [LinearOrder L] (clock : I → C) (rank : I → L)

/-- The writes of `S` that no write of `S` supersedes. -/
def tops (S : Set I) : Set I :=
  {s | s ∈ S ∧ ∀ t ∈ S, clock s ≤ clock t → clock t ≤ clock s}

/-- The register `(c, l)` is the merge of exactly the writes `S`. -/
structure Represents (c : C) (l : L) (S : Set I) : Prop where
  finite : S.Finite
  lub : IsLUB (clock '' S) c
  greatest : IsGreatest (rank '' tops clock S) l

/-- Clocks of writes that honest writers produce. -/
structure Causal (W : Set I) : Prop where
  prime : ∀ w ∈ W, ∀ S ⊆ W, ∀ c, S.Finite → IsLUB (clock '' S) c → clock w ≤ c →
    ∃ s ∈ S, clock w ≤ clock s
  injective : ∀ w ∈ W, ∀ w' ∈ W, clock w = clock w' → w = w'

/-- No superseded write outranks both what superseded it and a write concurrent
with both. -/
def NoResurrection (W : Set I) : Prop :=
  ∀ a ∈ W, ∀ b ∈ W, ∀ c ∈ W, clock b < clock c →
    ¬ clock a ≤ clock b → ¬ clock b ≤ clock a → ¬ clock a ≤ clock c → ¬ clock c ≤ clock a →
    rank b ≤ max (rank a) (rank c)

variable {clock rank}

/-! ## Tops -/

variable (clock) in
theorem exists_top_ge {S : Set I} (finite : S.Finite) {s : I} (member : s ∈ S) :
    ∃ t ∈ tops clock S, clock s ≤ clock t := by
  obtain ⟨m, above, maximal⟩ :=
    (finite.image clock).exists_le_maximal (Set.mem_image_of_mem clock member)
  obtain ⟨t, ht, rfl⟩ := maximal.prop
  refine ⟨t, ⟨ht, fun u hu le => ?_⟩, above⟩
  exact maximal.le_of_ge (Set.mem_image_of_mem clock hu) le

theorem tops_union_left {S T : Set I} {u : I} (top : u ∈ tops clock (S ∪ T)) (left : u ∈ S) :
    u ∈ tops clock S :=
  ⟨left, fun t ht le => top.2 t (.inl ht) le⟩

theorem tops_union_right {S T : Set I} {u : I} (top : u ∈ tops clock (S ∪ T)) (right : u ∈ T) :
    u ∈ tops clock T :=
  ⟨right, fun t ht le => top.2 t (.inr ht) le⟩

/-- Where `T` dominates `S`, the union has the tops of `T`. -/
theorem tops_union_of_dominated {S T W : Set I} (causal : Causal clock W) (hS : S ⊆ W) (hT : T ⊆ W)
    (dominated : ∀ s ∈ S, ∃ t ∈ T, clock s ≤ clock t) : tops clock (S ∪ T) = tops clock T := by
  ext u
  constructor
  · intro top
    rcases top.1 with left | right
    · obtain ⟨t, ht, above⟩ := dominated u left
      have back := top.2 t (.inr ht) above
      obtain rfl := causal.injective u (hS left) t (hT ht) (le_antisymm above back)
      exact tops_union_right top ht
    · exact tops_union_right top right
  · intro top
    refine ⟨.inr top.1, fun t ht le => ?_⟩
    rcases ht with left | right
    · obtain ⟨t', ht', above⟩ := dominated t left
      exact above.trans (top.2 t' ht' (le.trans above))
    · exact top.2 t right le

/-! ## Registers -/

theorem Represents.single (i : I) : Represents clock rank (clock i) (rank i) {i} where
  finite := Set.finite_singleton i
  lub := by simp
  greatest := by
    refine ⟨⟨i, ⟨rfl, ?_⟩, rfl⟩, ?_⟩
    · rintro t rfl _
      exact le_rfl
    · rintro _ ⟨t, ⟨rfl, -⟩, rfl⟩
      exact le_rfl

theorem Represents.unique {c c' : C} {l l' : L} {S : Set I} (x : Represents clock rank c l S)
    (y : Represents clock rank c' l' S) : c = c' ∧ l = l' :=
  ⟨x.lub.unique y.lub, x.greatest.unique y.greatest⟩

theorem Represents.lub_union {c c' : C} {l l' : L} {S T : Set I} (x : Represents clock rank c l S)
    (y : Represents clock rank c' l' T) : IsLUB (clock '' (S ∪ T)) (c ⊔ c') := by
  rw [Set.image_union]
  exact x.lub.union y.lub

/-- **A dominating register absorbs the other one.** -/
theorem Represents.of_le {W S T : Set I} (causal : Causal clock W) (hS : S ⊆ W) (hT : T ⊆ W)
    {c c' : C} {l l' : L} (x : Represents clock rank c l S) (y : Represents clock rank c' l' T)
    (le : c ≤ c') : Represents clock rank c' l' (S ∪ T) where
  finite := x.finite.union y.finite
  lub := by
    have joined := x.lub_union y
    rwa [sup_eq_right.mpr le] at joined
  greatest := by
    have dominated : ∀ s ∈ S, ∃ t ∈ T, clock s ≤ clock t := by
      intro s hs
      have below := (x.lub.1 (Set.mem_image_of_mem clock hs)).trans le
      exact causal.prime s (hS hs) T hT c' y.finite y.lub below
    rw [tops_union_of_dominated causal hS hT dominated]
    exact y.greatest

/-- A register that the other does not dominate has a top the other's writes do
not reach; it stays a top of the union. -/
theorem Represents.exists_fresh_top {S T : Set I} {c c' : C} {l l' : L}
    (x : Represents clock rank c l S) (y : Represents clock rank c' l' T) (nle : ¬ c ≤ c') :
    ∃ a ∈ tops clock S, ¬ clock a ≤ c' ∧ a ∈ tops clock (S ∪ T) := by
  obtain ⟨s, hs, high⟩ : ∃ s ∈ S, ¬ clock s ≤ c' := by
    by_contra none
    push Not at none
    exact nle (x.lub.2 fun d ⟨s, hs, same⟩ => same ▸ none s hs)
  obtain ⟨a, top, above⟩ := exists_top_ge clock x.finite hs
  have fresh : ¬ clock a ≤ c' := fun le => high (above.trans le)
  refine ⟨a, top, fresh, .inl top.1, fun t ht le => ?_⟩
  rcases ht with left | right
  · exact top.2 t left le
  · exact absurd (le.trans (y.lub.1 (Set.mem_image_of_mem clock right))) fresh

/-- The greater rank of two concurrent registers belongs to a top of the union. -/
theorem Represents.rank_mem {W S T : Set I} (noResurrection : NoResurrection clock rank W)
    (hS : S ⊆ W) (hT : T ⊆ W) {c c' : C} {l l' : L} (x : Represents clock rank c l S)
    (y : Represents clock rank c' l' T) (nle : ¬ c ≤ c') (greater : l' ≤ l) :
    l ∈ rank '' tops clock (S ∪ T) := by
  obtain ⟨b, topB, rfl⟩ := x.greatest.1
  by_cases stays : b ∈ tops clock (S ∪ T)
  · exact ⟨b, stays, rfl⟩
  -- `b` is superseded by a write of `T`; a top `c₁` of `T` above it is a top of the union
  obtain ⟨u, hu, le, nge⟩ : ∃ u ∈ S ∪ T, clock b ≤ clock u ∧ ¬ clock u ≤ clock b := by
    by_contra none
    push Not at none
    exact stays ⟨.inl topB.1, none⟩
  have inT : u ∈ T := hu.elim (fun left => absurd (topB.2 u left le) nge) id
  obtain ⟨c₁, topC, above⟩ := exists_top_ge clock y.finite inT
  have strict : clock b < clock c₁ :=
    lt_of_lt_of_le (lt_of_le_not_ge le nge) above
  have topUnion : c₁ ∈ tops clock (S ∪ T) := by
    refine ⟨.inr topC.1, fun t ht le => ?_⟩
    rcases ht with left | right
    · exact absurd (topB.2 t left (strict.le.trans le)) (fun back => (strict.trans_le le).not_ge back)
    · exact topC.2 t right le
  obtain ⟨a, topA, fresh, topUnionA⟩ := x.exists_fresh_top y nle
  have belowT : clock c₁ ≤ c' := y.lub.1 (Set.mem_image_of_mem clock topC.1)
  have nab : ¬ clock a ≤ clock b := fun h => fresh (h.trans (strict.le.trans belowT))
  have nba : ¬ clock b ≤ clock a := fun h => nab (topB.2 a topA.1 h)
  have nac : ¬ clock a ≤ clock c₁ := fun h => fresh (h.trans belowT)
  have nca : ¬ clock c₁ ≤ clock a := fun h => nba (strict.le.trans h)
  have bound := noResurrection a (hS topA.1) b (hS topB.1) c₁ (hT topC.1) strict nab nba nac nca
  have rankA : rank a ≤ rank b := x.greatest.2 ⟨a, topA, rfl⟩
  have rankC : rank c₁ ≤ rank b := (y.greatest.2 ⟨c₁, topC, rfl⟩).trans greater
  rcases le_max_iff.mp bound with viaA | viaC
  · exact ⟨a, topUnionA, le_antisymm rankA viaA⟩
  · exact ⟨c₁, topUnion, le_antisymm rankC viaC⟩

/-- **Concurrent registers merge to the join and the greater rank.** -/
theorem Represents.of_concurrent {W S T : Set I} (noResurrection : NoResurrection clock rank W)
    (hS : S ⊆ W) (hT : T ⊆ W) {c c' : C} {l l' : L} (x : Represents clock rank c l S)
    (y : Represents clock rank c' l' T) (nle : ¬ c ≤ c') (nge : ¬ c' ≤ c) :
    Represents clock rank (c ⊔ c') (max l l') (S ∪ T) where
  finite := x.finite.union y.finite
  lub := x.lub_union y
  greatest := by
    constructor
    · rcases le_total l' l with greater | greater
      · rw [max_eq_left greater]
        exact x.rank_mem noResurrection hS hT y nle greater
      · rw [max_eq_right greater, Set.union_comm]
        exact y.rank_mem noResurrection hT hS x nge greater
    · rintro _ ⟨u, top, rfl⟩
      rcases top.1 with left | right
      · exact (x.greatest.2 ⟨u, tops_union_left top left, rfl⟩).trans (le_max_left _ _)
      · exact (y.greatest.2 ⟨u, tops_union_right top right, rfl⟩).trans (le_max_right _ _)

end OneLink.Library.CausalMerge
