/-
# Library.PrefixCut — cutting a sequence seen through a window

A cut rule says how long the next piece of what is left is.  Such a rule may be run on
a window as long as two things hold: on a prefix it cuts where it cuts the whole, or at
the prefix's end; and more than `reach` elements make no difference to it.

Then the pieces of a window that begin at least `reach` before its end are pieces of the
whole (`Cuts.accepted`), and a window is cut up if the whole is (`Cuts.window`).
-/
import Mathlib

namespace OneLink.Library

set_option autoImplicit false

structure PrefixCut (α : Type) where
  cut : List α → Nat
  reach : Nat
  cut_le (s : List α) : cut s ≤ s.length
  cut_prefix (s : List α) (w : Nat) : cut (s.take w) = cut s ∨ cut (s.take w) = (s.take w).length
  cut_far (s : List α) (w : Nat) : reach ≤ w → cut (s.take w) = cut s

namespace PrefixCut

variable {α : Type} (c : PrefixCut α)

/-- From `s`, pieces of these lengths, none of them empty, lead to `rest`. -/
inductive Cuts : List α → List Nat → List α → Prop where
  | done (s : List α) : Cuts s [] s
  | piece {s rest : List α} {sizes : List Nat} (positive : 0 < c.cut s)
      (more : Cuts (s.drop (c.cut s)) sizes rest) : Cuts s (c.cut s :: sizes) rest

variable {c}

theorem Cuts.trans {s t u : List α} {early late : List Nat} (first : c.Cuts s early t)
    (second : c.Cuts t late u) : c.Cuts s (early ++ late) u := by
  induction first with
  | done => exact second
  | piece positive _ ih => exact .piece positive (ih second)

theorem Cuts.rest {s rest : List α} {sizes : List Nat} (cuts : c.Cuts s sizes rest) :
    sizes.sum ≤ s.length ∧ rest = s.drop sizes.sum := by
  induction cuts with
  | done => exact ⟨Nat.zero_le _, rfl⟩
  | @piece s rest sizes _ _ ih =>
    obtain ⟨fits, rfl⟩ := ih
    have bound := c.cut_le s
    rw [List.length_drop] at fits
    rw [List.sum_cons, List.drop_drop]
    exact ⟨by omega, rfl⟩

theorem Cuts.sum_eq {s : List α} {sizes : List Nat} (cuts : c.Cuts s sizes []) :
    sizes.sum = s.length := by
  have left := congrArg List.length cuts.rest.2
  have fits := cuts.rest.1
  rw [List.length_nil, List.length_drop] at left
  omega

theorem Cuts.length_le {s rest : List α} {sizes : List Nat} (cuts : c.Cuts s sizes rest) :
    sizes.length ≤ sizes.sum := by
  induction cuts with
  | done => exact Nat.le_refl 0
  | piece positive _ ih =>
    rw [List.length_cons, List.sum_cons]
    omega

/-- Two cuttings of one sequence agree as far as both go. -/
theorem Cuts.continues {s rest : List α} {early sizes : List Nat} (some : c.Cuts s early rest)
    (all : c.Cuts s sizes []) : ∃ late, sizes = early ++ late ∧ c.Cuts rest late [] := by
  induction some generalizing sizes with
  | done => exact ⟨sizes, rfl, all⟩
  | @piece s rest early positive _ ih =>
    cases all with
    | done =>
      have bound := c.cut_le []
      rw [List.length_nil] at bound
      omega
    | piece _ more =>
      obtain ⟨late, rfl, left⟩ := ih more
      exact ⟨late, rfl, left⟩

theorem Cuts.unique {s : List α} {sizes sizes' : List Nat} (cuts : c.Cuts s sizes [])
    (cuts' : c.Cuts s sizes' []) : sizes = sizes' := by
  obtain ⟨late, rfl, left⟩ := cuts.continues cuts'
  cases left with
  | done => exact (List.append_nil sizes).symm
  | piece positive _ =>
    have bound := c.cut_le []
    rw [List.length_nil] at bound
    omega

/-- Where a rule never cuts an empty piece, everything is cut up. -/
theorem exists_cuts {P : List α → Prop} (step : ∀ s, s ≠ [] → P s → 0 < c.cut s ∧ P (s.drop (c.cut s)))
    (s : List α) (holds : P s) : ∃ sizes, c.Cuts s sizes [] := by
  induction size : s.length using Nat.strongRecOn generalizing s with
  | ind n ih =>
    by_cases empty : s = []
    · rw [empty]
      exact ⟨[], .done []⟩
    · obtain ⟨positive, later⟩ := step s empty holds
      have some := List.length_pos_iff.mpr empty
      obtain ⟨sizes, cuts⟩ := ih (s.drop (c.cut s)).length (by rw [List.length_drop]; omega) _ later rfl
      exact ⟨_, .piece positive cuts⟩

theorem drop_window (s : List α) (w n : Nat) : (s.take w).drop n = (s.drop n).take (w - n) := by
  rw [List.drop_take]

theorem Cuts.window {s : List α} {sizes : List Nat} (cuts : c.Cuts s sizes []) (w : Nat) :
    ∃ sizes', c.Cuts (s.take w) sizes' [] := by
  generalize none : ([] : List α) = rest at cuts
  induction cuts generalizing w with
  | done s =>
    subst none
    exact ⟨[], by rw [List.take_nil]; exact .done []⟩
  | @piece s rest sizes positive _ ih =>
    subst none
    by_cases empty : s.take w = []
    · rw [empty]
      exact ⟨[], .done []⟩
    · rcases c.cut_prefix s w with same | whole
      · obtain ⟨sizes', cuts⟩ := ih (w - c.cut s) rfl
        rw [← drop_window, ← same] at cuts
        exact ⟨_, .piece (same ▸ positive) cuts⟩
      · refine ⟨[c.cut (s.take w)], .piece (whole ▸ List.length_pos_iff.mpr empty) ?_⟩
        rw [whole, List.drop_length]
        exact .done []

/-! ## Pieces as ranges -/

/-- The ranges of consecutive pieces, from `start`. -/
def ranges : (start : Nat) → List Nat → List (Nat × Nat)
  | _, [] => []
  | start, size :: sizes => (start, start + size) :: ranges (start + size) sizes

theorem ranges_append (start : Nat) (early late : List Nat) :
    ranges start (early ++ late) = ranges start early ++ ranges (start + early.sum) late := by
  induction early generalizing start with
  | nil => rfl
  | cons size early ih =>
    rw [List.cons_append, ranges, ranges, List.cons_append, ih, List.sum_cons, Nat.add_assoc]

theorem getLast?_ranges (start : Nat) (sizes : List Nat) :
    ((ranges start sizes).getLast?.map (·.2)).getD start = start + sizes.sum := by
  induction sizes generalizing start with
  | nil => rfl
  | cons size sizes ih =>
    rw [List.sum_cons, ← Nat.add_assoc, ← ih, ranges, List.getLast?_cons]
    cases (ranges (start + size) sizes).getLast? with
    | none => rfl
    | some last => rfl

theorem mem_ranges {start : Nat} {sizes : List Nat} {range : Nat × Nat}
    (present : range ∈ ranges start sizes) :
    start ≤ range.1 ∧ range.1 ≤ range.2 ∧ range.2 ≤ start + sizes.sum := by
  induction sizes generalizing start with
  | nil => cases present
  | cons size sizes ih =>
    rw [List.sum_cons]
    rcases List.mem_cons.mp present with rfl | later
    · exact ⟨Nat.le_refl _, Nat.le_add_right _ _, by omega⟩
    · have bounds := ih later
      omega

theorem ranges_map_add (base start : Nat) (sizes : List Nat) :
    (ranges start sizes).map (fun range => (base + range.1, base + range.2)) =
      ranges (base + start) sizes := by
  induction sizes generalizing start with
  | nil => rfl
  | cons size sizes ih => rw [ranges, ranges, List.map_cons, ih, Nat.add_assoc]

/-- The ranges that begin at least `reach` before the end of a window that goes on are those
of pieces of the whole; at the end of everything, all are. -/
theorem Cuts.accepted {s : List α} {w : Nat} {sizes : List Nat} {final : Bool}
    (cuts : c.Cuts (s.take w) sizes []) (start : Nat) (whole : final = true → s.take w = s) :
    ∃ early, c.Cuts s early (s.drop early.sum) ∧
      (ranges start sizes).takeWhile
          (fun range => final || decide (range.1 + c.reach ≤ start + (s.take w).length)) =
        ranges start early ∧
      early.sum ≤ (s.take w).length ∧ (final = true → early = sizes) ∧
      (c.reach ≤ (s.take w).length → sizes ≠ [] → early ≠ []) := by
  induction sizes generalizing s w start with
  | nil => exact ⟨[], .done s, rfl, Nat.zero_le _, fun _ => rfl, fun _ some => absurd rfl some⟩
  | cons size sizes ih =>
    by_cases near : final = true ∨ c.reach ≤ (s.take w).length
    · have same : c.cut (s.take w) = c.cut s := by
        rcases near with final | far
        · rw [whole final]
        · rw [List.length_take] at far
          exact c.cut_far s w (by omega)
      cases cuts with
      | piece positive more =>
        rw [drop_window, same] at more
        have bound := c.cut_le (s.take w)
        rw [same] at bound positive
        have shrunk : ((s.drop (c.cut s)).take (w - c.cut s)).length + c.cut s =
            (s.take w).length := by
          rw [← drop_window, List.length_drop]
          omega
        obtain ⟨early, cuts, kept, fits, all, -⟩ := ih more (start + c.cut s) (by
          intro last
          rw [← drop_window, whole last])
        rw [List.drop_drop] at cuts
        refine ⟨c.cut s :: early, ?_, ?_, ?_, ?_, fun _ _ => List.cons_ne_nil _ _⟩
        · rw [List.sum_cons]
          exact .piece positive cuts
        · rw [same, ranges, ranges, List.takeWhile_cons_of_pos, ← kept, ← shrunk]
          · simp only [Nat.add_assoc, Nat.add_comm (c.cut s)]
          · rcases near with final | far
            · simp [final]
            · simpa using .inr (by simpa using far)
        · rw [List.sum_cons]
          omega
        · intro last
          rw [same, all last]
    · rw [not_or] at near
      refine ⟨[], .done s, ?_, Nat.zero_le _, fun last => absurd last near.1,
        fun far => absurd far near.2⟩
      refine List.takeWhile_cons_of_neg ?_
      simpa [near.1] using near.2

end PrefixCut

end OneLink.Library
