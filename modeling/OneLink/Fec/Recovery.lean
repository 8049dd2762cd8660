/-
# Fec.Recovery -- any k shards give the data back

The bytes of the codec are read as elements of `Library.ByteField`: the parities
are then the Cauchy sums of `Library.CauchyCode`, and the elimination of the
source is that of `Library.GaussJordan` (`elements_invert`).  The rows of any `k`
shards are therefore independent, their inverse exists, and applying it to the
shards gives the data (`decode_recovers`).
-/
import OneLink.Fec.Codec
import OneLink.Library.CauchyCode

namespace OneLink.Fec

set_option autoImplicit false

open Library
open Library.GaussJordan (row swapped dot Shape Independent)
open ThresholdRecovery (element byteOf element_xor element_inj)

/-! ## The elimination of the source is that of the field -/

/-- The matrix of elements of a matrix of bytes. -/
def elements (m : List (List UInt8)) : List (List ByteField) := m.map (List.map element)

@[simp] theorem length_elements (m : List (List UInt8)) : (elements m).length = m.length :=
  List.length_map _

@[simp] theorem row_elements (m : List (List UInt8)) (r : Nat) :
    row (elements m) r = (row m r).map element := by
  simp only [row, elements, List.getD_eq_getElem?_getD, List.getElem?_map]
  cases m[r]? <;> rfl

@[simp] theorem getD_elements (cells : List UInt8) (c : Nat) :
    (cells.map element).getD c 0 = element (cells.getD c 0) := by
  simp only [List.getD_eq_getElem?_getD, List.getElem?_map]
  cases cells[c]? <;> rfl

@[simp] theorem entry_elements (m : List (List UInt8)) (r c : Nat) :
    GaussJordan.entry (elements m) r c = element (entry m r c) := by
  rw [GaussJordan.entry, row_elements, getD_elements, entry]

theorem elements_set (m : List (List UInt8)) (r : Nat) (cells : List UInt8) :
    elements (m.set r cells) = (elements m).set r (cells.map element) := by
  rw [elements, List.map_set, elements]

theorem elements_swapped (a b : Nat) (m : List (List UInt8)) :
    elements (swapped a b m) = swapped a b (elements m) := by
  rw [swapped, elements_set, elements_set, swapped, row_elements, row_elements]

theorem findPivot_elements (n col : Nat) (m : List (List UInt8)) :
    GaussJordan.findPivot n col (elements m) = findPivot n col m := by
  have same : ∀ r, (element (entry m r col) ≠ 0) = (entry m r col ≠ 0) := by
    intro r
    rw [ne_eq, ne_eq, ← ThresholdRecovery.element_zero, element_inj]
  simp only [GaussJordan.findPivot, findPivot, entry_elements, same]

theorem sub_eq_add (a b : ByteField) : a - b = a + b := sub_eq_add_neg a b

/-- Skipping a zero factor changes nothing. -/
theorem elements_eliminate (col : Nat) {pivotRow cells : List UInt8}
    (length : cells.length ≤ pivotRow.length) :
    (eliminate col pivotRow cells).map element =
      List.zipWith (fun cell pivot => cell - element (cells.getD col 0) * pivot) (cells.map element)
        (pivotRow.map element) := by
  rw [eliminate, List.zipWith_map]
  split
  · rename_i zero
    simp only [zero, ThresholdRecovery.element_zero, zero_mul, sub_zero]
    exact (zipWith_left element length).symm
  · simp only [List.map_zipWith, element_xor, element_mul, sub_eq_add]

theorem shape_elements {n width : Nat} {m : List (List UInt8)} :
    Shape n width (elements m) ↔ Shape n width m := by
  constructor
  · intro shape
    refine ⟨(length_elements m).symm.trans shape.rows, fun cells present => ?_⟩
    rw [← shape.cells _ (List.mem_map_of_mem present), List.length_map]
  · intro shape
    refine ⟨(length_elements m).trans shape.rows, fun cells present => ?_⟩
    obtain ⟨bytes, old, rfl⟩ := List.mem_map.1 present
    rw [List.length_map, shape.cells bytes old]

/-- One round of the source's elimination is one step over the field. -/
theorem elements_invertColumn {n width col : Nat} {m : List (List UInt8)} (shape : Shape n width m)
    (inside : col < n) :
    (invertColumn n m col).map elements = GaussJordan.step n (elements m) col := by
  rw [GaussJordan.step, findPivot_elements, invertColumn]
  cases found : findPivot n col m with
  | none => rfl
  | some pivot =>
    obtain ⟨-, bound, nonzero⟩ := GaussJordan.findPivot_some ((findPivot_elements n col m).trans found)
    have exchanged := shape.swapped inside bound
    have pivotEntry : element (entry (swapped col pivot m) col col) ≠ 0 := by
      rw [← entry_elements, elements_swapped, GaussJordan.entry,
        GaussJordan.row_swapped (shape_elements.2 shape) inside bound]
      split
      · rename_i same
        subst same
        exact nonzero
      · rwa [if_pos rfl]
    have inverse := inv_of_ne_zero fun zero =>
      pivotEntry ((congrArg element zero).trans ThresholdRecovery.element_zero)
    simp only [Option.bind_eq_bind, Option.bind_some, inverse, Option.map_some]
    refine congrArg some ?_
    rw [← elements_swapped, entry_elements]
    have scaled : elements ((swapped col pivot m).set col ((row (swapped col pivot m) col).map
          (mul · (byteOf (element (entry (swapped col pivot m) col col))⁻¹)))) =
        GaussJordan.scaled col (element (entry (swapped col pivot m) col col))⁻¹
          (elements (swapped col pivot m)) := by
      rw [elements_set, GaussJordan.scaled, row_elements, List.map_map, List.map_map]
      simp only [Function.comp_def, element_mul, ThresholdRecovery.element_byteOf]
    have normalized : Shape n width ((swapped col pivot m).set col
        ((row (swapped col pivot m) col).map
          (mul · (byteOf (element (entry (swapped col pivot m) col col))⁻¹)))) :=
      exchanged.set col (by rw [List.length_map, exchanged.row_length inside])
    rw [← scaled, GaussJordan.cleared, row_elements]
    refine List.ext_getElem (by simp) fun r left right => ?_
    simp only [elements, List.getElem_map, List.getElem_mapIdx]
    split
    · rfl
    · rw [elements_eliminate, getD_elements]
      rw [normalized.cells _ (List.getElem_mem _), normalized.row_length inside]

/-- The elimination loop of the source is the elimination over the field. -/
theorem elements_foldlM {n width : Nat} (columns : List Nat) {m : List (List UInt8)}
    (shape : Shape n width m) (inside : ∀ col ∈ columns, col < n) :
    (columns.foldlM (invertColumn n) m).map elements =
      columns.foldlM (GaussJordan.step n) (elements m) := by
  induction columns generalizing m with
  | nil => rfl
  | cons col columns ih =>
    have first := elements_invertColumn shape (inside col List.mem_cons_self)
    rw [List.foldlM_cons, List.foldlM_cons, ← first]
    cases run : invertColumn n m col with
    | none => rfl
    | some next =>
      rw [run] at first
      obtain ⟨pivot, stepped⟩ := GaussJordan.step_spec (shape_elements.2 shape)
        (inside col List.mem_cons_self) first.symm
      exact ih (shape_elements.1 stepped.shape) fun other later =>
        inside other (List.mem_cons_of_mem col later)

/-- `invert` is the inversion over the field. -/
theorem elements_invert {n : Nat} {m : List (List UInt8)} (shape : Shape n n m) (positive : 0 < n) :
    (invert m).map elements = GaussJordan.invert (elements m) := by
  have square : ¬ (m.length = 0 ∨ m.any (fun cells => decide (cells.length ≠ m.length)) = true) := by
    rw [shape.rows, List.any_eq_true]
    rintro (empty | ⟨cells, present, other⟩)
    · exact positive.ne' empty
    · exact of_decide_eq_true other (shape.cells cells present)
  have widened : elements (m.mapIdx fun i cells => cells ++ (List.replicate m.length 0).set i 1) =
      GaussJordan.augmented (elements m) := by
    refine List.ext_getElem (by simp [GaussJordan.augmented]) fun r left right => ?_
    simp only [elements, GaussJordan.augmented, List.getElem_map, List.getElem_mapIdx,
      List.map_append, List.map_set, List.map_replicate, List.length_map]
    rfl
  have augmentedShape := GaussJordan.shape_augmented (shape_elements.2 shape)
  rw [← widened] at augmentedShape
  have loop := elements_foldlM (List.range n) (shape_elements.1 augmentedShape)
    fun col present => List.mem_range.1 present
  rw [invert, if_neg square, GaussJordan.invert, length_elements, ← widened, shape.rows]
  rw [shape.rows] at loop
  rw [← loop]
  simp only [Option.bind_eq_bind, Option.pure_def]
  cases (List.range n).foldlM (invertColumn n)
      (m.mapIdx fun i cells => cells ++ (List.replicate n 0).set i 1) with
  | none => rfl
  | some reduced =>
    simp only [Option.bind_some, Option.map_some, elements, List.map_map]
    refine congrArg some (List.map_congr_left fun cells _ => ?_)
    exact List.map_drop

/-! ## The parities are Cauchy sums -/

/-- The node of a shard. -/
def node (r : Nat) : ByteField := element (UInt8.ofNat r)

theorem node_injOn (total : Nat) (fits : total ≤ 255) :
    Set.InjOn node (Finset.range total : Set Nat) := by
  intro a left b right same
  have belowA := Finset.mem_range.1 (Finset.mem_coe.1 left)
  have belowB := Finset.mem_range.1 (Finset.mem_coe.1 right)
  have bytes := congrArg UInt8.toNat (element_inj.1 same)
  rwa [UInt8.toNat_ofNat_of_lt' (by simp [UInt8.size]; omega),
    UInt8.toNat_ofNat_of_lt' (by simp [UInt8.size]; omega)] at bytes

/-- The coefficients of one parity shard. -/
def parityCoefficients (k i : Nat) : List UInt8 :=
  (List.range k).map fun j => byteOf (node (k + i) - node j)⁻¹

theorem coefficient_eq {k m i j : Nat} (fits : k + m ≤ 255) (parity : i < m) (datum : j < k) :
    coefficient k m i j = .ok (byteOf (node (k + i) - node j)⁻¹) := by
  have apart : UInt8.ofNat (k + i) ^^^ UInt8.ofNat j ≠ 0 := by
    intro zero
    have sum : node (k + i) + node j = 0 := congrArg element zero
    rw [← sub_eq_add, sub_eq_zero] at sum
    have := node_injOn (k + m) fits (Finset.mem_coe.2 (Finset.mem_range.2 (by omega)))
      (Finset.mem_coe.2 (Finset.mem_range.2 (by omega))) sum
    omega
  rw [coefficient, byteFrom, if_pos (by omega), ok_bind, byteFrom, if_pos (by omega), ok_bind,
    div_of_ne_zero 1 apart, okOr_some, element_xor, ThresholdRecovery.element_one, one_div,
    sub_eq_add, node, node]

/-- The codec that `Codec::new` builds. -/
def built (k m : Nat) : Codec := ⟨⟨k, m, (List.range m).map (parityCoefficients k)⟩⟩

theorem new_eq {k m : Nat} (dataPositive : 1 ≤ k) (parityPositive : 1 ≤ m) (fits : k + m ≤ 255) :
    Codec.new k m = .ok (built k m) := by
  have rows : (List.range m).mapM (fun i => (List.range k).mapM (coefficient k m i)) =
      .ok ((List.range m).map (parityCoefficients k)) := by
    refine mapM_eq_map fun i parity => ?_
    exact mapM_eq_map fun j datum =>
      coefficient_eq fits (List.mem_range.1 parity) (List.mem_range.1 datum)
  rw [Codec.new, CauchyMatrix.new, require_of (by omega), ok_bind, rows]
  rfl

/-- The row of the generator for one shard. -/
def shardRow (k r : Nat) : List UInt8 :=
  if r < k then (List.replicate k 0).set r 1 else parityCoefficients k (r - k)

theorem length_shardRow (k r : Nat) : (shardRow k r).length = k := by
  rw [shardRow]
  split
  · rw [List.length_set, List.length_replicate]
  · rw [parityCoefficients, List.length_map, List.length_range]

theorem row_generator {k m r : Nat} (inside : r < k + m) :
    row (built k m).cauchy.generator r = shardRow k r := by
  have stacked : (built k m).cauchy.generator =
      ((List.range k).map fun j => (List.replicate k 0).set j 1) ++
        (List.range m).map (parityCoefficients k) := rfl
  rw [row, List.getD_eq_getElem?_getD, stacked, shardRow]
  split
  · rename_i datum
    rw [List.getElem?_append_left (by simpa using datum), List.getElem?_map, List.getElem?_range datum]
    rfl
  · rename_i parity
    rw [List.getElem?_append_right (by simpa using parity), List.length_map, List.length_range,
      List.getElem?_map, List.getElem?_range (by omega)]
    rfl

/-- A row of the generator, read as a linear form, gives the value of its shard. -/
theorem dot_shardRow (k r : Nat) (vector : Nat → ByteField) :
    dot k vector ((shardRow k r).map element) = CauchyCode.value k node vector r := by
  rw [shardRow, CauchyCode.value]
  split
  · rename_i datum
    refine GaussJordan.dot_unit vector datum fun c inside => ?_
    rw [getD_elements, List.getD_eq_getElem?_getD, List.getElem?_set, List.length_replicate]
    split
    · rfl
    · rw [List.getElem?_replicate, if_pos inside]
      rfl
  · rename_i parity
    refine Finset.sum_congr rfl fun c present => ?_
    rw [getD_elements, parityCoefficients, List.getD_eq_getElem?_getD, List.getElem?_map,
      List.getElem?_range (Finset.mem_range.1 present), Nat.add_sub_cancel' (Nat.le_of_not_lt parity)]
    rfl

/-! ## Any k rows are independent -/

/-- The rows of the generator for the shards chosen. -/
def chosenRows (k : Nat) (indices : List Nat) : List (List UInt8) := indices.map (shardRow k)

theorem shape_chosenRows {k : Nat} {indices : List Nat} (count : indices.length = k) :
    Shape k k (chosenRows k indices) := by
  refine ⟨by rw [chosenRows, List.length_map, count], fun cells present => ?_⟩
  obtain ⟨r, _, rfl⟩ := List.mem_map.1 present
  exact length_shardRow k r

theorem row_chosenRows {k j : Nat} {indices : List Nat} (inside : j < indices.length) :
    row (chosenRows k indices) j = shardRow k (indices.getD j 0) := by
  rw [row, chosenRows, List.getD_eq_getElem?_getD, List.getElem?_map, List.getD_eq_getElem?_getD,
    List.getElem?_eq_getElem inside]
  rfl

theorem chosenRows_independent {k total : Nat} {indices : List Nat} (fits : total ≤ 255)
    (within : k ≤ total) (count : indices.length = k) (distinct : indices.Nodup)
    (inside : ∀ r ∈ indices, r < total) : Independent k (elements (chosenRows k indices)) := by
  intro vector zero
  refine CauchyCode.values_determine indices.toFinset (node_injOn total fits) within ?_ ?_ ?_
  · intro r present
    exact Finset.mem_range.2 (inside r (List.mem_toFinset.1 present))
  · rw [List.toFinset_card_of_nodup distinct, count]
  · intro r present
    obtain ⟨j, bound, rfl⟩ := List.getElem_of_mem (List.mem_toFinset.1 present)
    have value := zero j (count ▸ bound)
    rwa [row_elements, row_chosenRows bound, dot_shardRow, List.getD_eq_getElem?_getD,
      List.getElem?_eq_getElem bound] at value

/-- The rows of any `k` shards have an inverse, which gives the data back from the values of those shards. -/
theorem invert_chosenRows {k total : Nat} {indices : List Nat} (fits : total ≤ 255)
    (positive : 1 ≤ k) (within : k ≤ total) (count : indices.length = k) (distinct : indices.Nodup)
    (inside : ∀ r ∈ indices, r < total) :
    ∃ inverse, invert (chosenRows k indices) = some inverse ∧ Shape k k inverse ∧
      ∀ vector : Nat → ByteField, ∀ r < k,
        dot k (fun j => CauchyCode.value k node vector (indices.getD j 0))
          ((row inverse r).map element) = vector r := by
  have shape := shape_chosenRows count
  obtain ⟨solved, run, solvedShape, undoes⟩ := GaussJordan.invert_spec (shape_elements.2 shape)
    (chosenRows_independent fits within count distinct inside)
  obtain ⟨inverse, found, rfl⟩ := Option.map_eq_some_iff.1 ((elements_invert shape positive).trans run)
  refine ⟨inverse, found, shape_elements.1 solvedShape, fun vector r below => ?_⟩
  rw [← row_elements, ← undoes vector r below]
  refine Finset.sum_congr rfl fun j present => ?_
  show _ * CauchyCode.value k node vector _ = _ * dot k vector (row (elements (chosenRows k indices)) j)
  rw [row_elements (chosenRows k indices), row_chosenRows (count.symm ▸ Finset.mem_range.1 present),
    dot_shardRow]

/-! ## Shards as words of the code -/

/-- The byte of a shard at a place, as an element. -/
def symbol (shard : List UInt8) (t : Nat) : ByteField := element (shard.getD t 0)

theorem length_addShard {dest src : List UInt8} (length : dest.length = src.length)
    (product : UInt8 → UInt8) : (addShard dest src product).length = dest.length := by
  rw [addShard, List.length_zipWith, length, Nat.min_self]

theorem symbol_addShard {dest src : List UInt8} (length : dest.length = src.length) (coeff : UInt8)
    (t : Nat) :
    symbol (addShard dest src (mul coeff)) t = symbol dest t + element coeff * symbol src t := by
  simp only [symbol, addShard, List.getD_eq_getElem?_getD, List.getElem?_zipWith]
  by_cases inside : t < dest.length
  · rw [List.getElem?_eq_getElem inside, List.getElem?_eq_getElem (length ▸ inside)]
    simp only [Option.getD_some, element_xor, element_mul]
  · rw [List.getElem?_eq_none (by omega), List.getElem?_eq_none (by omega)]
    show (0 : ByteField) = 0 + element coeff * 0
    rw [mul_zero, add_zero]

/-- The sum of the multiples of the shards of a row, place by place. -/
theorem accumulate_from (ssse3 : Bool) {fetch : Nat → Except FecError (List UInt8)}
    {shard : Nat → List UInt8} {len : Nat} (coeffs : List UInt8) (offset : Nat)
    (fetched : ∀ j, offset ≤ j → j < offset + coeffs.length →
      fetch j = .ok (shard j) ∧ (shard j).length = len)
    (dest : List UInt8) (length : dest.length = len) :
    ∃ out, (coeffs.zipIdx offset).foldlM
        (fun dest term => do fmaInto ssse3 dest (← fetch term.2) term.1) dest = .ok out ∧
      out.length = len ∧ ∀ t, symbol out t = symbol dest t +
        ∑ j ∈ Finset.range coeffs.length, element (coeffs.getD j 0) * symbol (shard (offset + j)) t := by
  induction coeffs generalizing offset dest with
  | nil => exact ⟨dest, rfl, length, fun t => by rw [List.length_nil, Finset.sum_range_zero, add_zero]⟩
  | cons coeff coeffs ih =>
    obtain ⟨here, shardLength⟩ := fetched offset (Nat.le_refl _) (by rw [List.length_cons]; omega)
    have same : dest.length = (shard offset).length := length.trans shardLength.symm
    obtain ⟨out, run, outLength, symbols⟩ := ih (offset + 1)
      (fun j after below => fetched j (by omega) (by rw [List.length_cons]; omega))
      (addShard dest (shard offset) (mul coeff)) ((length_addShard same _).trans length)
    refine ⟨out, ?_, outLength, fun t => ?_⟩
    · rw [List.zipIdx_cons, List.foldlM_cons, here, ok_bind, fmaInto_spec ssse3 same, ok_bind]
      exact run
    · rw [symbols t, symbol_addShard same, List.length_cons, Finset.sum_range_succ', add_assoc]
      congr 1
      rw [add_comm]
      congr 1
      refine Finset.sum_congr rfl fun j _ => ?_
      rw [List.getD_cons_succ, Nat.add_assoc, Nat.add_comm 1 j]

theorem symbol_zeros (len t : Nat) : symbol (List.replicate len 0) t = 0 := by
  rw [symbol, List.getD_eq_getElem?_getD, List.getElem?_replicate]
  split <;> rfl

/-- Applied to a shard of zeros, the loop computes the row, read as a linear form. -/
theorem accumulate_spec (ssse3 : Bool) (fetch : Nat → Except FecError (List UInt8))
    (shard : Nat → List UInt8) {len k : Nat} {coeffs : List UInt8} (count : coeffs.length = k)
    (fetched : ∀ j < k, fetch j = .ok (shard j) ∧ (shard j).length = len) :
    ∃ out, accumulate ssse3 fetch (List.replicate len 0) coeffs = .ok out ∧ out.length = len ∧
      ∀ t, symbol out t = dot k (fun j => symbol (shard j) t) (coeffs.map element) := by
  obtain ⟨out, run, length, symbols⟩ := accumulate_from ssse3 coeffs 0
    (fun j _ below => fetched j (by omega)) _ List.length_replicate
  refine ⟨out, run, length, fun t => ?_⟩
  rw [symbols t, symbol_zeros, zero_add, count, dot]
  refine Finset.sum_congr rfl fun j _ => ?_
  rw [getD_elements, Nat.zero_add]

/-- Shards of one length with the same symbols are the same. -/
theorem eq_of_symbols {a b : List UInt8} (length : a.length = b.length)
    (same : ∀ t < a.length, symbol a t = symbol b t) : a = b := by
  refine List.ext_getElem length fun t left right => ?_
  have bytes := element_inj.1 (same t left)
  rwa [List.getD_eq_getElem?_getD, List.getElem?_eq_getElem left, List.getD_eq_getElem?_getD,
    List.getElem?_eq_getElem right] at bytes

/-! ## Encoding -/

theorem mapM_spec {α β : Type} {f : α → Except FecError β} (holds : α → β → Prop) {l : List α}
    (each : ∀ a ∈ l, ∃ b, f a = .ok b ∧ holds a b) :
    ∃ results, l.mapM f = .ok results ∧ List.Forall₂ holds l results := by
  induction l with
  | nil => exact ⟨[], rfl, .nil⟩
  | cons a l ih =>
    obtain ⟨b, here, holdsHere⟩ := each a List.mem_cons_self
    obtain ⟨rest, run, holdsRest⟩ := ih fun other later => each other (List.mem_cons_of_mem a later)
    refine ⟨b :: rest, ?_, .cons holdsHere holdsRest⟩
    rw [List.mapM_cons, here, ok_bind, run]
    rfl

theorem validateResourceShape_ok {len total : Nat} (shard : len ≤ maxFecShardBytes)
    (stripe : len * total ≤ maxFecWorkingSetBytes) : validateResourceShape len total = .ok () := by
  have representable : len * total ≤ usizeMax := stripe.trans (by decide)
  rw [validateResourceShape, require_of shard, ok_bind, checkedMul, if_pos representable, okOr_some,
    ok_bind, require_of stripe]

/-- Data shards of one length within the limits of a stripe. -/
structure Stripe (k m len : Nat) (data : List (List UInt8)) : Prop where
  count : data.length = k
  lengths : ∀ shard ∈ data, shard.length = len
  shardFits : len ≤ maxFecShardBytes
  stripeFits : len * (k + m) ≤ maxFecWorkingSetBytes

theorem Stripe.getD_length {k m len : Nat} {data : List (List UInt8)} (stripe : Stripe k m len data)
    {c : Nat} (datum : c < k) : (data.getD c []).length = len := by
  have inside : c < data.length := stripe.count ▸ datum
  rw [List.getD_eq_getElem?_getD, List.getElem?_eq_getElem inside]
  exact stripe.lengths _ (List.getElem_mem inside)

/-- The place of every data shard at one offset. -/
def column (data : List (List UInt8)) (t : Nat) (c : Nat) : ByteField := symbol (data.getD c []) t

/-- The shards of a codeword: all of one length, with the values of the code at every place. -/
def Codeword (k total len : Nat) (data shards : List (List UInt8)) : Prop :=
  shards.length = total ∧ ∀ r < total, (shards.getD r []).length = len ∧
    ∀ t, symbol (shards.getD r []) t = CauchyCode.value k node (column data t) r

/-- Encoding completes the data to a codeword. -/
theorem encode_spec {k m len : Nat} {data : List (List UInt8)} (stripe : Stripe k m len data)
    (positive : 1 ≤ k) (ssse3 : Bool) :
    ∃ parity, (built k m).encode ssse3 data = .ok parity ∧
      Codeword k (k + m) len data (data ++ parity) := by
  have first : (data.getD 0 []).length = len := stripe.getD_length positive
  have checks : data.forM (fun shard => require (shard.length = len)
      (FecError.inconsistentShardLen len shard.length)) = .ok () :=
    (forM_ok_iff _ data).2 fun shard present => require_of (stripe.lengths shard present) _
  obtain ⟨parity, run, shards⟩ := mapM_spec
    (fun i out => out.length = len ∧
      ∀ t, symbol out t = CauchyCode.value k node (column data t) (k + i)) (l := List.range m)
    (f := fun i => do
      let coeffs ← okOr ((built k m).cauchy.parityRow i) .singularMatrix
      accumulate ssse3 (fun j => .ok (data.getD j [])) (List.replicate len 0) coeffs) fun i present => by
    have coefficients : (built k m).cauchy.parityRow i = some (shardRow k (k + i)) := by
      have stored : (built k m).cauchy.parityRow i =
          ((List.range m).map (parityCoefficients k))[i]? := rfl
      rw [stored, List.getElem?_map, List.getElem?_range (List.mem_range.1 present), shardRow,
        if_neg (by omega), Nat.add_sub_cancel_left]
      rfl
    obtain ⟨out, added, length, symbols⟩ := accumulate_spec ssse3
      (fun j => .ok (data.getD j [])) (fun j => data.getD j []) (length_shardRow k (k + i)) fun j datum => ⟨rfl, stripe.getD_length datum⟩
    refine ⟨out, ?_, length, fun t => ?_⟩
    · rw [coefficients, okOr_some, ok_bind, added]
    · rw [symbols t, dot_shardRow]
      rfl
  refine ⟨parity, ?_, ?_, ?_⟩
  · have dataCount : data.length = (built k m).cauchy.k := stripe.count
    have shape : validateResourceShape len (built k m).cauchy.total = .ok () :=
      validateResourceShape_ok stripe.shardFits stripe.stripeFits
    simp only [Codec.encode, first]
    rw [require_of dataCount, ok_bind, shape, ok_bind, checks, ok_bind]
    exact run
  · rw [List.length_append, stripe.count, ← shards.length_eq, List.length_range]
  · intro r inside
    by_cases datum : r < k
    · rw [List.getD_append _ _ _ _ (stripe.count ▸ datum)]
      refine ⟨stripe.getD_length datum, fun t => ?_⟩
      rw [CauchyCode.value, if_pos datum, column]
    · have parityCount : parity.length = m := by rw [← shards.length_eq, List.length_range]
      rw [List.getD_append_right _ _ _ _ (by rw [stripe.count]; omega), stripe.count]
      have shard := (List.forall₂_iff_get.1 shards).2 (r - k) (by rw [List.length_range]; omega)
        (by omega)
      rw [List.getD_eq_getElem?_getD, List.getElem?_eq_getElem (by omega)]
      simp only [List.get_eq_getElem, List.getElem_range, Nat.add_sub_cancel' (Nat.le_of_not_lt datum)]
        at shard
      exact shard

/-! ## Decoding -/

/-- Slots that hold some of the shards, each in its own place. -/
def Selection (shards : List (List UInt8)) (slots : List (Option (List UInt8))) : Prop :=
  List.Forall₂ (fun shard slot => slot = none ∨ slot = some shard) shards slots

/-- The places of the present shards, from an offset on. -/
def presentFrom (slots : List (Option (List UInt8))) (offset : Nat) : List Nat :=
  ((slots.zipIdx offset).filter fun place => place.1.isSome).map Prod.snd

theorem collect_spec {len : Nat} (slots : List (Option (List UInt8))) (i : Nat)
    (shardLen : Option Nat) (indices : List Nat)
    (same : ∀ shard, some shard ∈ slots → shard.length = len)
    (known : shardLen = none ∨ shardLen = some len) :
    collect slots i shardLen indices =
      .ok (if presentFrom slots i = [] then shardLen else some len,
        indices ++ presentFrom slots i) := by
  induction slots generalizing i shardLen indices with
  | nil => simp [collect, presentFrom]
  | cons slot slots ih =>
    have later : ∀ shard, some shard ∈ slots → shard.length = len := fun shard present =>
      same shard (List.mem_cons_of_mem slot present)
    cases slot with
    | none =>
      rw [collect, ih (i + 1) shardLen indices later known]
      rfl
    | some shard =>
      have length := same shard List.mem_cons_self
      have more : presentFrom (some shard :: slots) i = i :: presentFrom slots (i + 1) := rfl
      have rest := ih (i + 1) (some len) (indices ++ [i]) later (.inr rfl)
      rw [ite_self, List.append_assoc] at rest
      rw [more, if_neg (List.cons_ne_nil _ _)]
      rcases known with rfl | rfl
      · rw [collect, length]
        exact rest
      · rw [collect, require_of length.symm, ok_bind]
        exact rest

theorem presentFrom_nodup (slots : List (Option (List UInt8))) : (presentFrom slots 0).Nodup := by
  have part : (presentFrom slots 0).Sublist ((slots.zipIdx 0).map Prod.snd) :=
    List.filter_sublist.map Prod.snd
  rw [List.zipIdx_map_snd] at part
  exact part.nodup List.nodup_range'

theorem length_presentFrom (slots : List (Option (List UInt8))) (i : Nat) :
    (presentFrom slots i).length = slots.countP Option.isSome := by
  induction slots generalizing i with
  | nil => rfl
  | cons slot slots ih =>
    simp only [presentFrom, List.length_map] at ih ⊢
    rw [List.zipIdx_cons, List.countP_cons]
    cases slot with
    | none => exact ih (i + 1)
    | some shard => exact congrArg (· + 1) (ih (i + 1))

variable {k total len : Nat} {data shards : List (List UInt8)}
  {slots : List (Option (List UInt8))}

theorem Selection.slot_eq (selection : Selection shards slots) {r : Nat}
    (present : r ∈ presentFrom slots 0) :
    r < shards.length ∧ slots.getD r none = some (shards.getD r []) := by
  obtain ⟨place, filtered, rfl⟩ := List.mem_map.1 present
  obtain ⟨member, held⟩ := List.mem_filter.1 filtered
  have stored := List.mem_zipIdx_iff_getElem?.1 member
  obtain ⟨inside, value⟩ := List.getElem?_eq_some_iff.1 stored
  have bound : place.2 < shards.length := selection.length_eq ▸ inside
  refine ⟨bound, ?_⟩
  have choice := (List.forall₂_iff_get.1 selection).2 place.2 bound inside
  simp only [List.get_eq_getElem, value] at choice
  rw [List.getD_eq_getElem?_getD, stored, List.getD_eq_getElem?_getD,
    List.getElem?_eq_getElem bound]
  rcases choice with missing | found
  · rw [missing] at held
    simp at held
  · exact found

theorem Selection.lengths (selection : Selection shards slots)
    (codeword : Codeword k total len data shards) :
    ∀ shard, some shard ∈ slots → shard.length = len := by
  intro shard present
  obtain ⟨r, inside, value⟩ := List.getElem_of_mem present
  have bound : r < shards.length := selection.length_eq ▸ inside
  have choice := (List.forall₂_iff_get.1 selection).2 r bound inside
  simp only [List.get_eq_getElem, value] at choice
  rcases choice with missing | found
  · simp at missing
  · have length := (codeword.2 r (codeword.1 ▸ bound)).1
    rw [List.getD_eq_getElem?_getD, List.getElem?_eq_getElem bound] at length
    rw [Option.some.inj found]
    exact length

theorem map_getD_range (count : data.length = k) :
    (List.range k).map (fun r => data.getD r []) = data := by
  refine List.ext_getElem (by simp [count]) fun r left right => ?_
  simp [List.getD_eq_getElem?_getD, List.getElem?_eq_getElem right]

/-- Applied to the shards it was computed for, the inverse gives the data. -/
theorem recover_rows (codeword : Codeword k total len data shards) (within : k ≤ total)
    {indices : List Nat} {inverse : List (List UInt8)}
    (shape : Shape k k inverse) (inside : ∀ r ∈ indices, r < total) (count : indices.length = k)
    (undoes : ∀ vector : Nat → ByteField, ∀ r < k,
      dot k (fun j => CauchyCode.value k node vector (indices.getD j 0))
        ((row inverse r).map element) = vector r)
    (dataCount : data.length = k) (dataShards : ∀ c < k, shards.getD c [] = data.getD c [])
    (ssse3 : Bool) {fetch : Nat → Except FecError (List UInt8)}
    (fetched : ∀ j < k, fetch j = .ok (shards.getD (indices.getD j 0) [])) :
    ((List.replicate k (List.replicate len 0)).zip inverse).mapM
      (fun rows => accumulate ssse3 fetch rows.1 rows.2) = .ok data := by
  have indexInside : ∀ j < k, indices.getD j 0 < total := by
    intro j below
    rw [List.getD_eq_getElem?_getD, List.getElem?_eq_getElem (count ▸ below)]
    exact inside _ (List.getElem_mem _)
  have rowSpec : ∀ r < k, accumulate ssse3 fetch (List.replicate len 0) (row inverse r) =
      .ok (data.getD r []) := by
    intro r below
    obtain ⟨out, run, length, symbols⟩ := accumulate_spec ssse3 fetch
      (fun j => shards.getD (indices.getD j 0) []) (shape.row_length below)
      fun j datum => ⟨fetched j datum, (codeword.2 _ (indexInside j datum)).1⟩
    rw [run]
    refine congrArg Except.ok (eq_of_symbols ?_ fun t _ => ?_)
    · rw [length, ← dataShards r below, (codeword.2 r (below.trans_le within)).1]
    · rw [symbols t]
      refine Eq.trans (Finset.sum_congr rfl fun j present => ?_) (undoes (column data t) r below)
      exact congrArg (_ * ·) ((codeword.2 _ (indexInside j (Finset.mem_range.1 present))).2 t)
  have paired : (List.replicate k (List.replicate len (0 : UInt8))).zip inverse =
      (List.range k).map fun r => (List.replicate len 0, row inverse r) := by
    refine List.ext_getElem (by simp [shape.rows]) fun r left right => ?_
    have inverseBound : r < inverse.length := by
      rw [List.length_map, List.length_range] at right
      rw [shape.rows]
      exact right
    simp [row, List.getD_eq_getElem?_getD, List.getElem?_eq_getElem inverseBound]
  rw [paired, List.mapM_map]
  refine Eq.trans ?_ (congrArg Except.ok (map_getD_range dataCount))
  exact mapM_eq_map fun r present => rowSpec r (List.mem_range.1 present)

/-- Decoding a selection of at least `k` shards of a codeword gives its data. -/
theorem decode_spec {m : Nat} (positive : 1 ≤ k) (fits : k + m ≤ 255) (stripe : Stripe k m len data)
    (codeword : Codeword k (k + m) len data shards)
    (dataShards : ∀ c < k, shards.getD c [] = data.getD c [])
    (selection : Selection shards slots) (enough : k ≤ slots.countP Option.isSome) (ssse3 : Bool) :
    (built k m).decode ssse3 slots = .ok data := by
  have found := length_presentFrom slots 0
  have someFound : presentFrom slots 0 ≠ [] := by
    intro none
    rw [none, List.length_nil] at found
    omega
  have collected := collect_spec slots 0 none [] (selection.lengths codeword) (.inl rfl)
  rw [if_neg someFound, List.nil_append] at collected
  have slotCount : slots.length = (built k m).cauchy.total := by
    rw [← selection.length_eq, codeword.1]
    rfl
  let indices := (presentFrom slots 0).take k
  have count : indices.length = k := by
    rw [List.length_take]
    omega
  have slotAt : ∀ r ∈ indices, r < k + m ∧ slots.getD r none = some (shards.getD r []) := by
    intro r present
    obtain ⟨bound, held⟩ := selection.slot_eq (List.mem_of_mem_take present)
    exact ⟨codeword.1 ▸ bound, held⟩
  have fetched : ∀ j < k, okOr (slots.getD (indices.getD j 0) none)
      (FecError.insufficientShards k indices.length) = .ok (shards.getD (indices.getD j 0) []) := by
    intro j below
    have member : indices.getD j 0 ∈ indices := by
      rw [List.getD_eq_getElem?_getD, List.getElem?_eq_getElem (count ▸ below)]
      exact List.getElem_mem _
    rw [(slotAt _ member).2, okOr_some]
  have shape : validateResourceShape len (built k m).cauchy.total = .ok () :=
    validateResourceShape_ok stripe.shardFits stripe.stripeFits
  have enoughFound : (built k m).cauchy.k ≤ (presentFrom slots 0).length := found ▸ enough
  simp only [Codec.decode]
  rw [require_of slotCount, ok_bind, collected, ok_bind]
  simp only []
  rw [require_of enoughFound, ok_bind, okOr_some, ok_bind, shape, ok_bind]
  change (if indices.zipIdx.all _ = true then (slots.take k).mapM _ else _) = _
  split
  · rename_i whole
    -- the first k places are all present: the slots hold the data themselves
    have own : ∀ j < k, indices.getD j 0 = j := by
      intro j below
      have bound : j < indices.length := count ▸ below
      have place := List.all_eq_true.1 whole (indices[j], j)
        (List.mem_zipIdx_iff_getElem?.2 (List.getElem?_eq_getElem bound))
      rw [List.getD_eq_getElem?_getD, List.getElem?_eq_getElem bound]
      exact of_decide_eq_true place
    have copied : slots.take k = (List.range k).map fun j => some (data.getD j []) := by
      have within : k ≤ slots.length := by
        rw [← selection.length_eq, codeword.1]
        omega
      refine List.ext_getElem (by simp [within]) fun j left right => ?_
      have below : j < k := by
        rw [List.length_map, List.length_range] at right
        exact right
      have member : j ∈ indices := by
        have := List.getElem_mem (l := indices) (n := j) (count ▸ below)
        have value := own j below
        rw [List.getD_eq_getElem?_getD, List.getElem?_eq_getElem (count ▸ below)] at value
        rwa [← value]
      have held := (slotAt j member).2
      rw [dataShards j below, List.getD_eq_getElem?_getD,
        List.getElem?_eq_getElem (below.trans_le within)] at held
      simpa using held
    rw [copied, List.mapM_map]
    refine Eq.trans ?_ (congrArg Except.ok (map_getD_range stripe.count))
    exact mapM_eq_map fun r _ => rfl
  · obtain ⟨inverse, inverted, inverseShape, undoes⟩ := invert_chosenRows fits positive
      (Nat.le_add_right k m) count ((presentFrom_nodup slots).sublist (List.take_sublist k _))
      fun r present => (slotAt r present).1
    have chosen : (indices.map fun i => row (built k m).cauchy.generator i) = chosenRows k indices :=
      List.map_congr_left fun r present => row_generator (slotAt r present).1
    change (do
      let inverse ← okOr (invert (indices.map fun i => row (built k m).cauchy.generator i))
        FecError.singularMatrix
      _) = _
    rw [chosen, inverted, okOr_some, ok_bind]
    exact recover_rows codeword (Nat.le_add_right k m) inverseShape (fun r present =>
      (slotAt r present).1) count undoes stripe.count dataShards ssse3 fetched

/-- **Any k of the shards give the data back, and no k rows of the generator are singular.** -/
theorem decode_recovers (k m : Nat) (dataPositive : 1 ≤ k) (parityPositive : 1 ≤ m)
    (fits : k + m ≤ 255) :
    ∃ codec, Codec.new k m = .ok codec ∧
      (∀ len data, Stripe k m len data → ∀ ssse3, ∃ parity, codec.encode ssse3 data = .ok parity ∧
        ∀ slots, Selection (data ++ parity) slots → k ≤ slots.countP Option.isSome →
          ∀ ssse3', codec.decode ssse3' slots = .ok data) ∧
      ∀ indices : List Nat, indices.length = k → indices.Nodup → (∀ r ∈ indices, r < k + m) →
        (invert (indices.map (row codec.cauchy.generator))).isSome := by
  refine ⟨built k m, new_eq dataPositive parityPositive fits, ?_, ?_⟩
  · intro len data stripe ssse3
    obtain ⟨parity, encoded, codeword⟩ := encode_spec stripe dataPositive ssse3
    refine ⟨parity, encoded, fun slots selection enough ssse3' => ?_⟩
    refine decode_spec dataPositive fits stripe codeword (fun c datum => ?_) selection enough ssse3'
    exact List.getD_append _ _ _ _ (stripe.count ▸ datum)
  · intro indices count distinct inside
    obtain ⟨inverse, inverted, -⟩ := invert_chosenRows fits dataPositive (Nat.le_add_right k m) count
      distinct inside
    have chosen : indices.map (row (built k m).cauchy.generator) = chosenRows k indices :=
      List.map_congr_left fun r present => row_generator (inside r present)
    rw [chosen, inverted]
    rfl

theorem decode_recovers_two_one : ∃ parity,
    (built 2 1).encode false [[3, 5], [7, 11]] = .ok parity ∧
      (built 2 1).decode true [none, some [7, 11], some (parity.getD 0 [])] = .ok [[3, 5], [7, 11]] := by
  obtain ⟨codec, made, recovers, -⟩ := decode_recovers 2 1 (by decide) (by decide) (by decide)
  rw [new_eq (by decide) (by decide) (by decide)] at made
  obtain rfl := Except.ok.inj made
  have stripe : Stripe 2 1 2 [[3, 5], [7, 11]] := ⟨rfl, by decide, by decide, by decide⟩
  obtain ⟨parity, encoded, decoded⟩ := recovers 2 [[3, 5], [7, 11]] stripe false
  obtain ⟨parity', again, codeword⟩ := encode_spec stripe (by decide) false
  obtain rfl := Except.ok.inj (encoded.symm.trans again)
  have count : parity.length = 1 := Nat.add_left_cancel
    (List.length_append.symm.trans codeword.1 : 2 + parity.length = 2 + 1)
  obtain ⟨shard, rfl⟩ := List.length_eq_one_iff.1 count
  refine ⟨[shard], encoded, decoded _ ?_ (by simp) true⟩
  exact .cons (.inl rfl) (.cons (.inr rfl) (.cons (.inr rfl) .nil))

end OneLink.Fec
