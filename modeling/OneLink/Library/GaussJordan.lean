/-
# Library.GaussJordan -- inversion by elimination over a field

A square matrix is augmented with the identity and each of its columns in turn
made a unit column.  A step divides a row and subtracts multiples of it from the
others, so the vectors on which all rows vanish stay the same (`step_spec`).  A
matrix whose columns are independent always has a pivot, and the right half left
at the end undoes the matrix (`invert_spec`).
-/
import Mathlib.Algebra.BigOperators.Group.Finset.Basic
import Mathlib.Algebra.BigOperators.Ring.Finset
import Mathlib.Algebra.Field.Basic
import Mathlib.Data.List.GetD

namespace OneLink.Library.GaussJordan

set_option autoImplicit false

/-! ## Rows -/

section Rows

variable {α : Type} {n width : Nat} {m : List (List α)}

/-- A row of a matrix kept as the list of its rows. -/
def row (m : List (List α)) (r : Nat) : List α := m.getD r []

/-- A matrix of `n` rows of `width` entries. -/
structure Shape (n width : Nat) (m : List (List α)) : Prop where
  rows : m.length = n
  cells : ∀ cells ∈ m, cells.length = width

theorem Shape.row_length (shape : Shape n width m) {r : Nat} (inside : r < n) :
    (row m r).length = width := by
  have bound : r < m.length := shape.rows ▸ inside
  rw [row, List.getD_eq_getElem?_getD, List.getElem?_eq_getElem bound]
  exact shape.cells _ (List.getElem_mem bound)

theorem row_set {a r : Nat} (cells : List α) (inside : a < m.length) :
    row (m.set a cells) r = if r = a then cells else row m r := by
  simp only [row, List.getD_eq_getElem?_getD, List.getElem?_set]
  by_cases same : a = r
  · subst same
    simp [inside]
  · rw [if_neg same, if_neg (Ne.symm same)]

theorem row_mapIdx {r : Nat} (change : Nat → List α → List α) (inside : r < m.length) :
    row (m.mapIdx change) r = change r (row m r) := by
  simp [row, List.getD_eq_getElem?_getD, inside]

theorem Shape.set (shape : Shape n width m) (a : Nat) {cells : List α}
    (length : cells.length = width) : Shape n width (m.set a cells) where
  rows := by rw [List.length_set, shape.rows]
  cells other present := by
    rcases List.mem_or_eq_of_mem_set present with old | new
    · exact shape.cells other old
    · rw [new, length]

/-- Two rows exchanged. -/
def swapped (a b : Nat) (m : List (List α)) : List (List α) := (m.set a (row m b)).set b (row m a)

theorem Shape.swapped (shape : Shape n width m) {a b : Nat} (first : a < n) (second : b < n) :
    Shape n width (swapped a b m) :=
  (shape.set a (shape.row_length second)).set b (shape.row_length first)

theorem row_swapped (shape : Shape n width m) {a b : Nat} (first : a < n) (second : b < n)
    (r : Nat) : row (swapped a b m) r = row m (if r = b then a else if r = a then b else r) := by
  rw [swapped, row_set _ (by rw [List.length_set, shape.rows]; exact second),
    row_set _ (shape.rows ▸ first)]
  split
  · rfl
  · split <;> rfl

end Rows

/-! ## The elimination -/

variable {F : Type} [Field F]

/-- An entry of a matrix. -/
def entry (m : List (List F)) (r c : Nat) : F := (row m r).getD c 0

/-- Each row followed by its row of the identity. -/
def augmented (m : List (List F)) : List (List F) :=
  m.mapIdx fun i cells => cells ++ (List.replicate m.length 0).set i 1

/-- The first row from `col` on with a nonzero entry in that column. -/
def findPivot [DecidableEq F] (n col : Nat) (m : List (List F)) : Option Nat :=
  (List.range' col (n - col)).find? fun r => decide (entry m r col ≠ 0)

/-- One row multiplied by a factor. -/
def scaled (col : Nat) (factor : F) (m : List (List F)) : List (List F) :=
  m.set col ((row m col).map (· * factor))

/-- The multiples of one row that clear its column in the other rows subtracted from them. -/
def cleared (col : Nat) (m : List (List F)) : List (List F) :=
  m.mapIdx fun r cells =>
    if r = col then cells
    else List.zipWith (fun cell pivot => cell - cells.getD col 0 * pivot) cells (row m col)

/-- One column made a unit column. -/
def step [DecidableEq F] (n : Nat) (m : List (List F)) (col : Nat) : Option (List (List F)) :=
  (findPivot n col m).map fun pivot =>
    let exchanged := swapped col pivot m
    cleared col (scaled col (entry exchanged col col)⁻¹ exchanged)

/-- The inverse of a square matrix, when every column has a pivot. -/
def invert [DecidableEq F] (m : List (List F)) : Option (List (List F)) :=
  ((List.range m.length).foldlM (step m.length) (augmented m)).map (List.map (List.drop m.length))

/-! ## Rows as linear forms -/

/-- A reading of rows of one width that is linear in their entries. -/
structure Linear (width : Nat) (form : List F → F) : Prop where
  scale : ∀ cells factor, form (cells.map (· * factor)) = form cells * factor
  subtract : ∀ cells pivot factor, cells.length = width → pivot.length = width →
    form (List.zipWith (fun cell other => cell - factor * other) cells pivot) =
      form cells - factor * form pivot

/-- The value of a row at a vector. -/
def dot (width : Nat) (vector : Nat → F) (cells : List F) : F :=
  ∑ c ∈ Finset.range width, cells.getD c 0 * vector c

theorem linear_entry (width c : Nat) : Linear width (fun cells : List F => cells.getD c 0) where
  scale cells factor := by
    simp only [List.getD_eq_getElem?_getD, List.getElem?_map]
    cases cells[c]? <;> simp
  subtract cells pivot factor length other := by
    simp only [List.getD_eq_getElem?_getD, List.getElem?_zipWith]
    by_cases inside : c < width
    · rw [List.getElem?_eq_getElem (length ▸ inside), List.getElem?_eq_getElem (other ▸ inside)]
      rfl
    · rw [List.getElem?_eq_none (by omega), List.getElem?_eq_none (by omega)]
      simp

theorem linear_dot (width : Nat) (vector : Nat → F) : Linear width (dot width vector) where
  scale cells factor := by
    simp only [dot, (linear_entry width _).scale, Finset.sum_mul]
    exact Finset.sum_congr rfl fun c _ => mul_right_comm ..
  subtract cells pivot factor length other := by
    simp only [dot, (linear_entry width _).subtract cells pivot factor length other, sub_mul,
      Finset.sum_sub_distrib, mul_assoc, Finset.mul_sum]

/-! ## One column -/

variable {n width : Nat} {m : List (List F)}

theorem Shape.scaled (shape : Shape n width m) {col : Nat} (inside : col < n) (factor : F) :
    Shape n width (scaled col factor m) :=
  shape.set col (by rw [List.length_map, shape.row_length inside])

theorem Shape.cleared (shape : Shape n width m) {col : Nat} (inside : col < n) :
    Shape n width (cleared col m) where
  rows := by rw [GaussJordan.cleared, List.length_mapIdx, shape.rows]
  cells cells present := by
    obtain ⟨r, bound, rfl⟩ := List.mem_mapIdx.1 present
    have length := shape.cells _ (List.getElem_mem bound)
    split
    · exact length
    · rw [List.length_zipWith, length, shape.row_length inside, Nat.min_self]

/-- The row that the exchange of a step puts at `r`, when `r` is not the column's own row. -/
def source (col pivot r : Nat) : Nat := if r = pivot then col else r

/-- What a step does to every linear reading of the rows: the pivot row is divided, the row that stood
in its place moves to where it was, and the others lose their multiple of the pivot row. -/
structure Stepped (n width col : Nat) (m m' : List (List F)) (pivot : Nat) : Prop where
  shape : Shape n width m'
  from_column : col ≤ pivot
  inside : pivot < n
  nonzero : entry m pivot col ≠ 0
  reads : ∀ form : List F → F, Linear width form → ∀ r < n,
    form (row m' r) =
      if r = col then form (row m pivot) * (entry m pivot col)⁻¹
      else form (row m (source col pivot r)) -
        entry m (source col pivot r) col * (form (row m pivot) * (entry m pivot col)⁻¹)

variable {col : Nat}

theorem findPivot_some [DecidableEq F] {pivot : Nat} (found : findPivot n col m = some pivot) :
    col ≤ pivot ∧ pivot < n ∧ entry m pivot col ≠ 0 := by
  have present := List.mem_of_find?_eq_some found
  have nonzero := List.find?_some found
  rw [List.mem_range'_1] at present
  exact ⟨present.1, by omega, of_decide_eq_true nonzero⟩

theorem findPivot_none [DecidableEq F] (missing : findPivot n col m = none) {r : Nat} (after : col ≤ r)
    (inside : r < n) : entry m r col = 0 := by
  have absent := List.find?_eq_none.1 missing r (List.mem_range'_1.2 ⟨after, by omega⟩)
  by_contra nonzero
  exact absent (decide_eq_true nonzero)

/-- **What a step does.** -/
theorem step_spec [DecidableEq F] (shape : Shape n width m) (inside : col < n) {m' : List (List F)}
    (stepped : step n m col = some m') : ∃ pivot, Stepped n width col m m' pivot := by
  obtain ⟨pivot, found, rfl⟩ := Option.map_eq_some_iff.1 stepped
  obtain ⟨after, bound, nonzero⟩ := findPivot_some found
  have exchanged := shape.swapped inside bound
  have divided := exchanged.scaled inside (entry (swapped col pivot m) col col)⁻¹
  have pivotRow : row (swapped col pivot m) col = row m pivot := by
    rw [row_swapped shape inside bound]
    split
    · rename_i same
      rw [same]
    · rw [if_pos rfl]
  have pivotEntry : entry (swapped col pivot m) col col = entry m pivot col := by
    rw [entry, pivotRow, entry]
  refine ⟨pivot, divided.cleared inside, after, bound, nonzero, ?_⟩
  intro form linear r below
  have unchanged : r ≠ col → row (scaled col (entry m pivot col)⁻¹ (swapped col pivot m)) r =
      row m (source col pivot r) := by
    intro other
    rw [scaled, row_set _ (exchanged.rows ▸ inside), if_neg other, row_swapped shape inside bound,
      if_neg other, source]
  have atColumn : row (scaled col (entry m pivot col)⁻¹ (swapped col pivot m)) col =
      (row m pivot).map (· * (entry m pivot col)⁻¹) := by
    rw [scaled, row_set _ (exchanged.rows ▸ inside), if_pos rfl, pivotRow]
  simp only [pivotEntry] at divided ⊢
  rw [cleared, row_mapIdx _ (divided.rows ▸ below)]
  split
  · rename_i same
    rw [same, atColumn, linear.scale]
  · rename_i other
    rw [linear.subtract _ _ _ (divided.row_length below) (divided.row_length inside), unchanged other,
      atColumn, linear.scale]
    rfl

/-! ## All columns -/

/-- The first columns are those of the identity, and the rows vanish where they did at the start. -/
structure Reduced (n col : Nat) (start m : List (List F)) : Prop where
  shape : Shape n (n + n) m
  units : ∀ j < col, ∀ r < n, entry m r j = if r = j then 1 else 0
  solutions : ∀ vector : Nat → F, (∀ r < n, dot (n + n) vector (row m r) = 0) ↔
    ∀ r < n, dot (n + n) vector (row start r) = 0

/-- The columns of a square matrix are independent: only the zero vector is sent to zero. -/
def Independent (n : Nat) (m : List (List F)) : Prop :=
  ∀ vector : Nat → F, (∀ r < n, dot n vector (row m r) = 0) → ∀ c < n, vector c = 0

variable {start m' : List (List F)}

/-- A step keeps the columns done and does one more. -/
theorem Stepped.reduced {pivot : Nat} (stepped : Stepped n (n + n) col m m' pivot)
    (inside : col < n) (reduced : Reduced n col start m) : Reduced n (col + 1) start m' := by
  have sourceInside : ∀ r < n, source col pivot r < n := by
    intro r below
    unfold source
    split <;> omega
  refine ⟨stepped.shape, ?_, ?_⟩
  · intro j upTo r below
    have reads := stepped.reads (fun cells => cells.getD j 0) (linear_entry _ _) r below
    change entry m' r j = if r = col then entry m pivot j * _ else entry m _ j - _ * (entry m pivot j * _)
      at reads
    rw [reads]
    rcases Nat.lt_succ_iff_lt_or_eq.1 upTo with done | rfl
    · have after := stepped.from_column
      have clear : entry m pivot j = 0 := by
        rw [reduced.units j done pivot stepped.inside, if_neg (by omega)]
      rw [clear, zero_mul, mul_zero, sub_zero, reduced.units j done _ (sourceInside r below)]
      by_cases isColumn : r = col
      · rw [if_pos isColumn, if_neg (by omega)]
      by_cases isPivot : r = pivot
      · rw [if_neg isColumn, source, if_pos isPivot, if_neg (by omega), if_neg (by omega)]
      · rw [if_neg isColumn, source, if_neg isPivot]
    · rw [mul_inv_cancel₀ stepped.nonzero, mul_one, sub_self]
  · intro vector
    rw [← reduced.solutions vector]
    have reads := stepped.reads (dot (n + n) vector) (linear_dot _ _)
    constructor
    · intro zero
      have pivotZero : dot (n + n) vector (row m pivot) = 0 := by
        have value := reads col inside
        rw [if_pos rfl, zero col inside] at value
        exact (mul_eq_zero.1 value.symm).resolve_right (inv_ne_zero stepped.nonzero)
      have sourceZero : ∀ r < n, r ≠ col → dot (n + n) vector (row m (source col pivot r)) = 0 := by
        intro r below other
        have value := reads r below
        rw [if_neg other, zero r below, pivotZero, zero_mul, mul_zero, sub_zero] at value
        exact value.symm
      intro r below
      by_cases isPivot : r = pivot
      · rw [isPivot, pivotZero]
      by_cases isColumn : r = col
      · -- the row that stood in place of the pivot is read back from where the exchange put it
        have moved := sourceZero pivot stepped.inside fun same => isPivot (isColumn.trans same.symm)
        rwa [source, if_pos rfl, ← isColumn] at moved
      · have kept := sourceZero r below isColumn
        rwa [source, if_neg isPivot] at kept
    · intro zero r below
      rw [reads r below, zero pivot stepped.inside, zero_mul, mul_zero, sub_zero,
        zero _ (sourceInside r below), ite_self]

/-- Independent columns always leave a pivot: a column without one depends on those before it. -/
theorem exists_step [DecidableEq F] (reduced : Reduced n col start m) (inside : col < n)
    (independent : ∀ vector : Nat → F, (∀ c, n ≤ c → vector c = 0) →
      (∀ r < n, dot (n + n) vector (row start r) = 0) → ∀ c < n, vector c = 0) :
    ∃ next, step n m col = some next := by
  by_contra stuck
  have missing : findPivot n col m = none := by
    cases found : findPivot n col m with
    | none => rfl
    | some pivot => exact absurd ⟨_, by rw [step, found]; rfl⟩ stuck
  let dependence : Nat → F := fun c =>
    if c < col then - entry m c col else if c = col then 1 else 0
  have vanishes : ∀ r < n, dot (n + n) dependence (row m r) = 0 := by
    intro r below
    have terms : ∀ c ∈ Finset.range (n + n), (row m r).getD c 0 * dependence c =
        (if c = r then (if r < col then - entry m r col else 0) else 0) +
          if c = col then entry m r col else 0 := by
      intro c _
      change entry m r c * dependence c = _
      simp only [dependence]
      by_cases before : c < col
      · rw [if_pos before, reduced.units c before r below]
        by_cases same : r = c
        · subst same
          rw [if_pos rfl, if_pos rfl, if_pos before, if_neg (by omega), one_mul, add_zero]
        · rw [if_neg same, if_neg (Ne.symm same), if_neg (by omega), zero_mul, add_zero]
      · rw [if_neg before]
        have notRow : (if c = r then (if r < col then - entry m r col else 0) else 0) = 0 := by
          split
          · rw [if_neg (by omega)]
          · rfl
        rw [notRow, zero_add]
        split
        · rename_i same
          rw [same, mul_one]
        · exact mul_zero _
    rw [dot, Finset.sum_congr rfl terms, Finset.sum_add_distrib, Finset.sum_ite_eq',
      Finset.sum_ite_eq', if_pos (Finset.mem_range.2 (by omega)),
      if_pos (Finset.mem_range.2 (by omega))]
    split
    · exact neg_add_cancel _
    · rename_i after
      rw [findPivot_none missing (Nat.le_of_not_lt after) below, add_zero]
  have one := independent dependence (fun c outside => by
    simp only [dependence]
    rw [if_neg (by omega), if_neg (by omega)]) ((reduced.solutions _).1 vanishes) col inside
  simp only [dependence, lt_irrefl, if_false, if_true] at one
  exact one_ne_zero one

/-! ## The inverse -/

theorem dot_append {left right : List F} (vector : Nat → F) (a b : Nat) (length : left.length = a) :
    dot (a + b) vector (left ++ right) =
      dot a vector left + dot b (fun c => vector (a + c)) right := by
  rw [dot, Finset.sum_range_add, dot, dot]
  congr 1
  · refine Finset.sum_congr rfl fun c present => ?_
    rw [List.getD_append _ _ _ _ (length ▸ Finset.mem_range.1 present)]
  · refine Finset.sum_congr rfl fun c _ => ?_
    rw [List.getD_append_right _ _ _ _ (by omega), length, Nat.add_sub_cancel_left]

/-- A row whose entries are those of the identity reads one coordinate. -/
theorem dot_unit {cells : List F} {r : Nat} (vector : Nat → F) (inside : r < n)
    (unit : ∀ c < n, cells.getD c 0 = if r = c then 1 else 0) : dot n vector cells = vector r := by
  have terms : ∀ c ∈ Finset.range n, cells.getD c 0 * vector c = if r = c then vector c else 0 := by
    intro c present
    rw [unit c (Finset.mem_range.1 present), ite_mul, one_mul, zero_mul]
  rw [dot, Finset.sum_congr rfl terms, Finset.sum_ite_eq, if_pos (Finset.mem_range.2 inside)]

theorem shape_augmented (shape : Shape n n m) : Shape n (n + n) (augmented m) where
  rows := by rw [augmented, List.length_mapIdx, shape.rows]
  cells cells present := by
    obtain ⟨r, bound, rfl⟩ := List.mem_mapIdx.1 present
    rw [List.length_append, List.length_set, List.length_replicate, shape.rows,
      shape.cells _ (List.getElem_mem bound)]

theorem dot_augmented (shape : Shape n n m) (vector : Nat → F) {r : Nat} (below : r < n) :
    dot (n + n) vector (row (augmented m) r) = dot n vector (row m r) + vector (n + r) := by
  rw [augmented, row_mapIdx _ (shape.rows ▸ below), shape.rows,
    dot_append vector n n (shape.row_length below),
    dot_unit (r := r) (fun c => vector (n + c)) below]
  intro c inside
  rw [List.getD_eq_getElem?_getD, List.getElem?_set, List.length_replicate]
  split
  · rfl
  · rw [List.getElem?_replicate, if_pos inside]
    rfl

/-- Every column can be reduced. -/
theorem reduce_spec [DecidableEq F] (shape : Shape n n m) (independent : Independent n m) :
    ∀ col ≤ n, ∃ reached, (List.range col).foldlM (step n) (augmented m) = some reached ∧
      Reduced n col (augmented m) reached := by
  intro col
  induction col with
  | zero =>
    intro _
    exact ⟨augmented m, rfl, shape_augmented shape, fun j none => absurd none (Nat.not_lt_zero j),
      fun _ => Iff.rfl⟩
  | succ col ih =>
    intro inside
    obtain ⟨reached, run, reduced⟩ := ih (by omega)
    obtain ⟨next, stepped⟩ := exists_step reduced (Nat.lt_of_succ_le inside) fun vector outside zero =>
      independent vector fun r below => by
        have value := zero r below
        rwa [dot_augmented shape vector below, outside _ (Nat.le_add_right n r), add_zero] at value
    obtain ⟨pivot, spec⟩ := step_spec reduced.shape (Nat.lt_of_succ_le inside) stepped
    refine ⟨next, ?_, spec.reduced (Nat.lt_of_succ_le inside) reduced⟩
    rw [List.range_succ, List.foldlM_append, run]
    change (step n reached col).bind _ = _
    rw [stepped]
    rfl

/-- **A matrix with independent columns is inverted, and the inverse undoes it.** -/
theorem invert_spec [DecidableEq F] (shape : Shape n n m) (independent : Independent n m) :
    ∃ inverse, invert m = some inverse ∧ Shape n n inverse ∧ ∀ vector : Nat → F, ∀ r < n,
      dot n (fun j => dot n vector (row m j)) (row inverse r) = vector r := by
  obtain ⟨reached, run, reduced⟩ := reduce_spec shape independent n (Nat.le_refl n)
  have rowOf : ∀ r, row (reached.map (List.drop n)) r = (row reached r).drop n := by
    intro r
    simp only [row, List.getD_eq_getElem?_getD, List.getElem?_map]
    cases reached[r]? <;> simp
  refine ⟨reached.map (List.drop n), by rw [invert, shape.rows, run]; rfl, ⟨?_, ?_⟩, ?_⟩
  · rw [List.length_map, reduced.shape.rows]
  · intro cells present
    obtain ⟨whole, old, rfl⟩ := List.mem_map.1 present
    rw [List.length_drop, reduced.shape.cells whole old, Nat.add_sub_cancel]
  intro vector r below
  let extended : Nat → F := fun c => if c < n then vector c else - dot n vector (row m (c - n))
  have low : ∀ cells : List F, dot n extended cells = dot n vector cells := by
    intro cells
    refine Finset.sum_congr rfl fun c present => ?_
    simp only [extended]
    rw [if_pos (Finset.mem_range.1 present)]
  have high : ∀ c, extended (n + c) = - dot n vector (row m c) := by
    intro c
    simp only [extended]
    rw [if_neg (by omega), Nat.add_sub_cancel_left]
  have solved := (reduced.solutions extended).2 (fun r below => by
    rw [dot_augmented shape extended below, low, high, add_neg_cancel]) r below
  have width := reduced.shape.row_length below
  rw [← List.take_append_drop n (row reached r),
    dot_append extended n n (by rw [List.length_take, width]; omega),
    dot_unit (r := r) extended below] at solved
  · have negated : dot n (fun c => extended (n + c)) ((row reached r).drop n) =
        - dot n (fun j => dot n vector (row m j)) ((row reached r).drop n) := by
      simp only [dot, high, mul_neg, Finset.sum_neg_distrib]
    have own : extended r = vector r := if_pos below
    rw [negated, own, add_neg_eq_zero] at solved
    rw [rowOf, solved]
  · intro c inside
    rw [List.getD_eq_getElem?_getD, List.getElem?_take_of_lt inside, ← List.getD_eq_getElem?_getD]
    exact reduced.units c inside r below

end OneLink.Library.GaussJordan
