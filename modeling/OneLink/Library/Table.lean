/-
# Library.Table — tables as lists of rows with distinct keys

A lookup splits the table around the row it found; an `UPDATE` or a `DELETE` whose
condition holds of that row only rewrites the split.
-/
import Mathlib.Data.List.Nodup
import Mathlib.Data.List.Perm.Basic

namespace OneLink.Library.Table

set_option autoImplicit false

variable {R K : Type} {rows early late : List R} {row : R}

theorem split_of_find? {key : R → K} {q : R → Bool} (distinct : (rows.map key).Nodup)
    (found : rows.find? q = some row) :
    q row = true ∧ ∃ early late, rows = early ++ row :: late ∧
      ∀ other ∈ early ++ late, key other ≠ key row := by
  obtain ⟨matching, early, late, split, -⟩ := List.find?_eq_some_iff_append.mp found
  refine ⟨matching, early, late, split, ?_⟩
  rw [split, (List.perm_middle.map key).nodup_iff, List.map_cons, List.nodup_cons] at distinct
  intro other present same
  apply distinct.1
  rw [← same]
  exact List.mem_map_of_mem present

section Rewrite

variable {q : R → Prop} [DecidablePred q] (here : q row)
    (elsewhere : ∀ other ∈ early ++ late, ¬ q other)

include here elsewhere

/-- An `UPDATE` that concerns one row. -/
theorem update_middle (f : R → R) :
    ((early ++ row :: late).map fun r => if q r then f r else r) = early ++ f row :: late := by
  have kept : ∀ part : List R, (∀ other ∈ part, ¬ q other) →
      (part.map fun r => if q r then f r else r) = part := by
    intro part apart
    calc _ = part.map id := by
          apply List.map_congr_left
          intro r present
          exact if_neg (apart r present)
      _ = part := List.map_id part
  rw [List.map_append, List.map_cons, if_pos here,
    kept early fun r h => elsewhere r (List.mem_append_left _ h),
    kept late fun r h => elsewhere r (List.mem_append_right _ h)]

/-- A `DELETE` that concerns one row. -/
theorem delete_middle : ((early ++ row :: late).filter fun r => ¬ q r) = early ++ late := by
  have kept : ∀ part : List R, (∀ other ∈ part, ¬ q other) →
      (part.filter fun r => ¬ q r) = part := by
    intro part apart
    apply List.filter_eq_self.mpr
    intro other present
    exact decide_eq_true (apart other present)
  rw [List.filter_append, List.filter_cons_of_neg (by simpa using here),
    kept early fun r h => elsewhere r (List.mem_append_left _ h),
    kept late fun r h => elsewhere r (List.mem_append_right _ h)]

end Rewrite

end OneLink.Library.Table
