/-
# Fec.Codec -- table arithmetic, the generator, its inversion, and the erasure codec

Products and quotients are looked up in tables of logarithms and powers of the
root 3 that two compile-time walks fill.  The walks are followed round by round
(`expRounds_spec`, `logRounds_spec`), so the lookups are the operations of
`Library.ByteField`.  `fma_into` adds a multiple of one shard to another: by
shortcuts for 0 and 1, sixteen bytes at a time through two tables of nibbles, or
through one table of 256 products; all of them add the same bytes
(`fmaInto_spec`).

The generator is the identity over a Cauchy matrix with the nodes `k + i` and
`j`; only the Cauchy rows are stored.  Decoding collects the present shards,
copies them when they are the data themselves, and otherwise inverts the rows of
the generator that belong to the first `k` of them.
-/
import OneLink.Library.GaussJordan
import OneLink.ThresholdRecovery.Tables

namespace OneLink.Fec

set_option autoImplicit false

open Library
open ThresholdRecovery (element byteOf element_xor element_byteOf element_inj)
open ThresholdRecovery.Threshold (generator generator_pow_period exists_power getD_set)

inductive FecError where
  | invalidParameters (k m : Nat)
  | dataShardCount (expected got : Nat)
  | inconsistentShardLen (expected len : Nat)
  | shardTooLarge (got max : Nat)
  | workingSetTooLarge (got max : Nat)
  | presentSlotCount (expected got : Nat)
  | insufficientShards (needed got : Nat)
  | singularMatrix
deriving DecidableEq, Repr

/-! ## The tables -/

/-- `FIELD_ORDER`. -/
def fieldOrder : Nat := 255

/-- `IRREDUCIBLE_POLY`. -/
def irreduciblePoly : UInt16 := 0x11B

/-- The rounds of `mul_no_table` still to run. -/
def mulNoTableRounds : Nat → UInt16 → UInt16 → UInt16 → UInt16
  | 0, _, _, result => result
  | rounds + 1, aa, bb, result =>
    let doubled := aa <<< 1
    mulNoTableRounds rounds (if aa &&& 0x80 ≠ 0 then doubled ^^^ irreduciblePoly else doubled)
      (bb >>> 1) (if bb &&& 1 ≠ 0 then result ^^^ aa else result)

/-- `mul_no_table`. -/
def mulNoTable (a b : UInt16) : UInt16 := mulNoTableRounds 8 a b 0 &&& 0xFF

/-- The rounds that fill `LOG` still to run, at index `i` and power `x`. -/
def logRounds : Nat → Nat → UInt16 → List UInt8 → List UInt8
  | 0, _, _, log => log
  | rounds + 1, i, x, log =>
    logRounds rounds (i + 1) (mulNoTable x 3) (log.set x.toNat (UInt8.ofNat i))

/-- `LOG`. -/
def logTable : List UInt8 := logRounds fieldOrder 0 1 (List.replicate 256 0)

/-- The rounds that fill `EXP` still to run: each power goes into both periods. -/
def expRounds : Nat → Nat → UInt16 → List UInt8 → List UInt8
  | 0, _, _, exp => exp
  | rounds + 1, i, x, exp =>
    expRounds rounds (i + 1) (mulNoTable x 3)
      ((exp.set i x.toUInt8).set (i + fieldOrder) x.toUInt8)

/-- `EXP`. -/
def expTable : List UInt8 := expRounds fieldOrder 0 1 (List.replicate (2 * fieldOrder) 0)

/-- `LOG` at a byte, as an index. -/
def logAt (a : UInt8) : Nat := (logTable.getD a.toNat 0).toNat

/-- `EXP` at an index. -/
def expAt (i : Nat) : UInt8 := expTable.getD i 0

/-! ## The operations -/

/-- `mul`. -/
def mul (a b : UInt8) : UInt8 := if a = 0 ∨ b = 0 then 0 else expAt (logAt a + logAt b)

/-- `inv`. -/
def inv (a : UInt8) : Option UInt8 := if a = 0 then none else some (expAt (fieldOrder - logAt a))

/-- `div`. -/
def div (a b : UInt8) : Option UInt8 :=
  if b = 0 then none
  else if a = 0 then some 0
  else some (expAt (logAt a + fieldOrder - logAt b))

/-! ## Adding a multiple of a shard -/

/-- The two loops over a shard that add bytes without a product, or with the products of a table. -/
def addShard (dest src : List UInt8) (product : UInt8 → UInt8) : List UInt8 :=
  List.zipWith (fun d s => d ^^^ product s) dest src

/-- `fma_into_scalar`: the 256 products of the coefficient come from one table. -/
def fmaIntoScalar (dest src : List UInt8) (coeff : UInt8) : Except FecError (List UInt8) := do
  require (dest.length = src.length) (.inconsistentShardLen dest.length src.length)
  if coeff = 0 then
    return dest
  if coeff = 1 then
    return addShard dest src id
  let mulTable := (List.range 256).map fun x =>
    if x = 0 then 0 else expAt (logAt coeff + logAt (UInt8.ofNat x))
  return addShard dest src fun s => mulTable.getD s.toNat 0

/-- `_mm_shuffle_epi8`: each index below 128 picks one of the sixteen entries of the table. -/
def shuffle (table indexes : List UInt8) : List UInt8 :=
  indexes.map fun i => if i &&& 0x80 ≠ 0 then 0 else table.getD (i &&& 0x0F).toNat 0

/-- `_mm_srli_epi64(s, 4)` on one lane of eight bytes: the low half of the byte above leaks in. -/
def srliLane (lane : List UInt8) : List UInt8 :=
  List.zipWith (fun (byte above : UInt8) => (byte >>> 4) ||| (above <<< 4)) lane (lane.drop 1 ++ [0])

/-- `_mm_srli_epi64(s, 4)` on both lanes. -/
def srli (s : List UInt8) : List UInt8 := srliLane (s.take 8) ++ srliLane (s.drop 8)

/-- One round of the vector loop: sixteen bytes of the product added to those of the destination. -/
def vectorRound (lowTable highTable dest src : List UInt8) : List UInt8 :=
  let lowNibbles := src.map (· &&& 0x0F)
  let highNibbles := (srli src).map (· &&& 0x0F)
  let product := List.zipWith (· ^^^ ·) (shuffle lowTable lowNibbles) (shuffle highTable highNibbles)
  List.zipWith (· ^^^ ·) dest product

/-- The product of the tail of `fma_into_ssse3`, for one byte. -/
def nibbleProduct (lowTable highTable : List UInt8) (s : UInt8) : UInt8 :=
  lowTable.getD (s &&& 0x0F).toNat 0 ^^^ highTable.getD ((s >>> 4) &&& 0x0F).toNat 0

/-- The rounds of the vector loop still to run, and then the tail of fewer than sixteen bytes. -/
def vectorRounds (lowTable highTable : List UInt8) : Nat → List UInt8 → List UInt8 → List UInt8
  | 0, dest, src => addShard dest src (nibbleProduct lowTable highTable)
  | rounds + 1, dest, src =>
    vectorRound lowTable highTable (dest.take 16) (src.take 16) ++
      vectorRounds lowTable highTable rounds (dest.drop 16) (src.drop 16)

/-- `fma_into_ssse3`. -/
def fmaIntoSsse3 (dest src : List UInt8) (coeff : UInt8) : List UInt8 :=
  let lowTable := (List.range 16).map fun nibble => mul coeff (UInt8.ofNat nibble)
  let highTable := (List.range 16).map fun nibble => mul coeff (UInt8.ofNat nibble <<< 4)
  vectorRounds lowTable highTable (src.length / 16) dest src

/-- `fma_into`, on a machine with or without the vector instructions. -/
def fmaInto (ssse3 : Bool) (dest src : List UInt8) (coeff : UInt8) :
    Except FecError (List UInt8) := do
  require (dest.length = src.length) (.inconsistentShardLen dest.length src.length)
  if coeff = 0 then
    return dest
  if coeff = 1 then
    return addShard dest src id
  if ssse3 then
    return fmaIntoSsse3 dest src coeff
  fmaIntoScalar dest src coeff

/-! ## The walks -/

/-- The byte of a power of the root. -/
def power (j : Nat) : UInt8 := byteOf (generator ^ j)

theorem power_add_period (j : Nat) : power (j + 255) = power j := by
  rw [power, pow_add, generator_pow_period, mul_one, power]

/-- One round of a walk multiplies by the root. -/
theorem mulNoTable_power (j : Nat) : mulNoTable (power j).toUInt16 3 = (power (j + 1)).toUInt16 := by
  have rounds : ∀ bits : BitVec 8, mulNoTable (byteOf ⟨bits⟩).toUInt16 3 =
      (byteOf ⟨ByteField.product bits 3#8⟩).toUInt16 := by
    decide +kernel
  exact rounds (generator ^ j).bits

theorem power_inj {i j : Nat} (left : i < 255) (right : j < 255) (same : power i = power j) :
    i = j :=
  ThresholdRecovery.Threshold.power_inj left right (congrArg UInt8.toNat same)

/-- The entries after some rounds: the powers at the indices passed, in both periods. -/
theorem expRounds_spec (rounds i : Nat) (exp : List UInt8) (room : i + rounds ≤ 255)
    (length : exp.length = 510) (j : Nat) :
    (expRounds rounds i (power i).toUInt16 exp).getD j 0 =
      if (i ≤ j ∧ j < i + rounds) ∨ (i + 255 ≤ j ∧ j < i + rounds + 255) then power j
      else exp.getD j 0 := by
  induction rounds generalizing i exp with
  | zero =>
    rw [if_neg (by omega)]
    rfl
  | succ rounds ih =>
    have low : (power i).toUInt16.toUInt8 = power i := UInt8.toUInt8_toUInt16 _
    rw [expRounds, mulNoTable_power, low, fieldOrder,
      ih (i + 1) _ (by omega) (by simp only [List.length_set, length])]
    simp only [getD_set, List.length_set, length]
    by_cases second : i + 255 = j
    · rw [if_neg (by omega), if_pos ⟨second, by omega⟩, if_pos (by omega), ← second]
      exact (power_add_period i).symm
    by_cases first : i = j
    · rw [if_neg (by omega), if_neg (by omega), if_pos ⟨first, by omega⟩, if_pos (by omega), first]
    · have same : ((i + 1 ≤ j ∧ j < i + 1 + rounds) ∨ (i + 1 + 255 ≤ j ∧ j < i + 1 + rounds + 255)) ↔
          ((i ≤ j ∧ j < i + (rounds + 1)) ∨ (i + 255 ≤ j ∧ j < i + (rounds + 1) + 255)) := by omega
      simp only [same, first, second, false_and, if_false]

/-- The logarithms after some rounds: the indices at the powers passed. -/
theorem logRounds_spec (rounds i : Nat) (log : List UInt8) (room : i + rounds ≤ 255)
    (length : log.length = 256) {j : Nat} (below : j < 255) :
    (logRounds rounds i (power i).toUInt16 log).getD (power j).toNat 0 =
      if i ≤ j ∧ j < i + rounds then UInt8.ofNat j else log.getD (power j).toNat 0 := by
  induction rounds generalizing i log with
  | zero =>
    rw [if_neg (by omega)]
    rfl
  | succ rounds ih =>
    have index : (power i).toUInt16.toNat = (power i).toNat := UInt8.toNat_toUInt16 _
    rw [logRounds, mulNoTable_power, index, ih (i + 1) _ (by omega) (by rw [List.length_set, length]),
      getD_set, length]
    by_cases here : i = j
    · rw [if_neg (by omega), if_pos ⟨by rw [here], (power i).toNat_lt⟩, if_pos (by omega), here]
    · have apart : (power i).toNat ≠ (power j).toNat := fun same =>
        here (power_inj (by omega) below (UInt8.toNat_inj.1 same))
      have same : (i + 1 ≤ j ∧ j < i + 1 + rounds) ↔ (i ≤ j ∧ j < i + (rounds + 1)) := by omega
      simp only [same, apart, false_and, if_false]

theorem expAt_eq {j : Nat} (inside : j < 510) : expAt j = power j := by
  have start : expTable = expRounds 255 0 (power 0).toUInt16 (List.replicate 510 0) := rfl
  rw [expAt, start, expRounds_spec 255 0 _ (Nat.le_refl _) List.length_replicate, if_pos (by omega)]

theorem logAt_power {j : Nat} (below : j < 255) : logAt (power j) = j := by
  have start : logTable = logRounds 255 0 (power 0).toUInt16 (List.replicate 256 0) := rfl
  rw [logAt, start, logRounds_spec 255 0 _ (Nat.le_refl _) List.length_replicate below,
    if_pos (by omega), UInt8.toNat_ofNat_of_lt' (below.trans (by decide))]

/-! ## The lookups are the operations of the field -/

@[simp] theorem element_power (j : Nat) : element (power j) = generator ^ j := rfl

/-- Every nonzero byte is a power of the root. -/
theorem exists_power_eq {a : UInt8} (nonzero : a ≠ 0) : ∃ j < 255, power j = a := by
  obtain ⟨j, below, same⟩ := exists_power (a := element a) fun zero =>
    nonzero (element_inj.1 (zero.trans ThresholdRecovery.element_zero.symm))
  exact ⟨j, below, congrArg byteOf same⟩

/-- A quotient of powers, with the exponent lifted by one period. -/
theorem generator_pow_sub {i j : Nat} (below : j ≤ i + 255) :
    generator ^ (i + 255 - j) = generator ^ i / generator ^ j := by
  have nonzero : generator ^ j ≠ 0 := pow_ne_zero j (by decide)
  rw [eq_div_iff nonzero, ← pow_add, Nat.sub_add_cancel below, pow_add, generator_pow_period, mul_one]

/-- `mul` is the product of the field. -/
@[simp] theorem element_mul (a b : UInt8) : element (mul a b) = element a * element b := by
  rw [mul]
  split
  · rename_i zero
    rcases zero with rfl | rfl
    · exact (zero_mul _).symm
    · exact (mul_zero _).symm
  · rename_i nonzero
    obtain ⟨left, right⟩ := not_or.1 nonzero
    obtain ⟨i, belowI, rfl⟩ := exists_power_eq left
    obtain ⟨j, belowJ, rfl⟩ := exists_power_eq right
    rw [logAt_power belowI, logAt_power belowJ, expAt_eq (by omega), element_power, pow_add]
    rfl

/-- `inv` is the inverse of the field. -/
theorem inv_of_ne_zero {a : UInt8} (nonzero : a ≠ 0) : inv a = some (byteOf (element a)⁻¹) := by
  obtain ⟨j, below, rfl⟩ := exists_power_eq nonzero
  have lifted := generator_pow_sub (i := 0) (j := j) (by omega)
  rw [Nat.zero_add, pow_zero, one_div] at lifted
  rw [inv, if_neg nonzero, logAt_power below, fieldOrder, expAt_eq (by omega), power, lifted]
  rfl

/-- `div` is the quotient of the field. -/
theorem div_of_ne_zero (a : UInt8) {b : UInt8} (nonzero : b ≠ 0) :
    div a b = some (byteOf (element a / element b)) := by
  rw [div, if_neg nonzero]
  split
  · rename_i zero
    rw [zero, ThresholdRecovery.element_zero, zero_div]
    rfl
  · rename_i positive
    obtain ⟨i, belowI, rfl⟩ := exists_power_eq positive
    obtain ⟨j, belowJ, rfl⟩ := exists_power_eq nonzero
    rw [logAt_power belowI, logAt_power belowJ, fieldOrder, expAt_eq (by omega), power,
      generator_pow_sub (by omega)]
    rfl

@[simp] theorem zero_mul_byte (b : UInt8) : mul 0 b = 0 := if_pos (Or.inl rfl)

@[simp] theorem one_mul_byte (b : UInt8) : mul 1 b = b := by
  apply element_inj.1
  rw [element_mul, ThresholdRecovery.element_one, one_mul]

/-! ## Adding a multiple of a shard -/

theorem zipWith_left {α β γ : Type} (f : α → γ) {l : List α} {l' : List β}
    (fits : l.length ≤ l'.length) : List.zipWith (fun a _ => f a) l l' = l.map f := by
  induction l generalizing l' with
  | nil => simp
  | cons a l ih =>
    cases l' with
    | nil => simp at fits
    | cons b l' =>
      rw [List.zipWith_cons_cons, List.map_cons, ih (Nat.le_of_succ_le_succ fits)]

theorem addShard_congr {f g : UInt8 → UInt8} (dest src : List UInt8) (same : ∀ s, f s = g s) :
    addShard dest src f = addShard dest src g := by
  rw [addShard, addShard, funext same]

theorem addShard_zero {dest src : List UInt8} (length : dest.length = src.length) :
    addShard dest src (mul 0) = dest := by
  simp only [addShard, zero_mul_byte, UInt8.xor_zero]
  exact (zipWith_left id length.le).trans (List.map_id _)

/-- The low half of a byte stays inside the sixteen entries. -/
theorem low_nibble_lt (s : UInt8) : (s &&& 0x0F).toNat < 16 := by
  rw [UInt8.toNat_and]
  exact Nat.lt_succ_of_le Nat.and_le_right

theorem shuffle_nibbles (table : List UInt8) (bytes : List UInt8) :
    shuffle table (bytes.map (· &&& 0x0F)) =
      bytes.map fun s => table.getD (s &&& 0x0F).toNat 0 := by
  rw [shuffle, List.map_map]
  refine List.map_congr_left fun s _ => ?_
  have clear : (s &&& 0x0F) &&& 0x80 = 0 := by
    rw [UInt8.and_assoc]
    exact UInt8.and_zero
  have kept : (s &&& 0x0F) &&& 0x0F = s &&& 0x0F := by rw [UInt8.and_assoc, UInt8.and_self]
  simp only [Function.comp_apply, clear, kept, ne_eq, not_true_eq_false, if_false]

/-- The mask takes away what leaked in from the byte above. -/
theorem leak_masked (byte above : UInt8) :
    ((byte >>> 4) ||| (above <<< 4)) &&& (0x0F : UInt8) = (byte >>> 4) &&& (0x0F : UInt8) := by
  have leaked : ∀ bits : BitVec 8, (bits <<< 4) &&& 0x0F#8 = 0#8 := by decide
  apply UInt8.toBitVec_inj.1
  have zero : ((above <<< 4) &&& (0x0F : UInt8)).toBitVec = 0#8 := leaked above.toBitVec
  rw [UInt8.toBitVec_and, UInt8.toBitVec_or, BitVec.and_or_distrib_right, ← UInt8.toBitVec_and,
    ← UInt8.toBitVec_and, zero, BitVec.or_zero]

theorem srliLane_masked {lane : List UInt8} (whole : lane ≠ []) :
    (srliLane lane).map (· &&& 0x0F) = lane.map fun s : UInt8 => (s >>> 4) &&& (0x0F : UInt8) := by
  have fits : lane.length ≤ (lane.drop 1 ++ [0]).length := by
    have := List.length_pos_of_ne_nil whole
    rw [List.length_append, List.length_drop, List.length_singleton]
    omega
  simp only [srliLane, List.map_zipWith, leak_masked]
  exact zipWith_left (fun s : UInt8 => (s >>> 4) &&& (0x0F : UInt8)) fits

theorem srli_masked {src : List UInt8} (length : src.length = 16) :
    (srli src).map (· &&& 0x0F) = src.map fun s : UInt8 => (s >>> 4) &&& (0x0F : UInt8) := by
  have low : src.take 8 ≠ [] := by
    intro none
    have := congrArg List.length none
    rw [List.length_take, length] at this
    simp at this
  have high : src.drop 8 ≠ [] := by
    intro none
    have := congrArg List.length none
    rw [List.length_drop, length] at this
    simp at this
  rw [srli, List.map_append, srliLane_masked low, srliLane_masked high, ← List.map_append,
    List.take_append_drop]

/-- A round of the vector loop adds to each of its sixteen bytes what the tail would. -/
theorem vectorRound_eq (lowTable highTable dest : List UInt8) {src : List UInt8}
    (length : src.length = 16) :
    vectorRound lowTable highTable dest src = addShard dest src (nibbleProduct lowTable highTable) := by
  have high : (shuffle highTable ((srli src).map (· &&& 0x0F))) =
      src.map fun s => highTable.getD ((s >>> 4) &&& (0x0F : UInt8)).toNat 0 := by
    have masked : (srli src).map (· &&& 0x0F) =
        (src.map fun s : UInt8 => (s >>> 4 : UInt8)).map (· &&& 0x0F) := by
      rw [srli_masked length, List.map_map]
      rfl
    rw [masked, shuffle_nibbles, List.map_map]
    rfl
  rw [vectorRound, high, shuffle_nibbles, List.zipWith_map, List.zipWith_self, List.zipWith_map_right]
  rfl

theorem vectorRounds_eq (lowTable highTable : List UInt8) (rounds : Nat) (dest src : List UInt8)
    (room : 16 * rounds ≤ src.length) (length : dest.length = src.length) :
    vectorRounds lowTable highTable rounds dest src =
      addShard dest src (nibbleProduct lowTable highTable) := by
  induction rounds generalizing dest src with
  | zero => rfl
  | succ rounds ih =>
    rw [vectorRounds, vectorRound_eq _ _ _ (by rw [List.length_take]; omega),
      ih _ _ (by rw [List.length_drop]; omega) (by rw [List.length_drop, List.length_drop, length]),
      addShard, addShard, addShard,
      ← List.zipWith_append (by rw [List.length_take, List.length_take, length]),
      List.take_append_drop, List.take_append_drop]

/-- A byte is the sum of its halves, so its product is the sum of their table entries. -/
theorem nibbleProduct_eq (coeff s : UInt8) :
    nibbleProduct ((List.range 16).map fun nibble => mul coeff (UInt8.ofNat nibble))
      ((List.range 16).map fun nibble => mul coeff (UInt8.ofNat nibble <<< 4)) s = mul coeff s := by
  have halves : ∀ bits : BitVec 8,
      (bits &&& 0x0F#8) ^^^ (((bits >>> 4) &&& 0x0F#8) <<< 4) = bits := by decide
  have entry : ∀ (product : Nat → UInt8) (t : UInt8),
      ((List.range 16).map product).getD (t &&& 0x0F).toNat 0 = product (t &&& 0x0F).toNat := by
    intro product t
    rw [List.getD_eq_getElem?_getD, List.getElem?_map, List.getElem?_range (low_nibble_lt t)]
    rfl
  have joined : (s &&& (0x0F : UInt8)) ^^^ (((s >>> 4) &&& (0x0F : UInt8)) <<< 4) = s :=
    UInt8.toBitVec_inj.1 (halves s.toBitVec)
  rw [nibbleProduct, entry, entry, UInt8.ofNat_toNat, UInt8.ofNat_toNat]
  apply element_inj.1
  rw [element_xor, element_mul, element_mul, ← mul_add, ← element_xor, joined, element_mul]

/-- The table of products of a coefficient other than 0. -/
theorem table_of_products {coeff : UInt8} (nonzero : coeff ≠ 0) (s : UInt8) :
    ((List.range 256).map fun x =>
      if x = 0 then 0 else expAt (logAt coeff + logAt (UInt8.ofNat x))).getD s.toNat 0 =
      mul coeff s := by
  have zero : s.toNat = 0 ↔ s = 0 := UInt8.toNat_inj (b := 0)
  rw [List.getD_eq_getElem?_getD, List.getElem?_map, List.getElem?_range s.toNat_lt]
  simp only [Option.map_some, Option.getD_some, UInt8.ofNat_toNat, mul, nonzero, false_or, zero]

/-- **Every path of `fma_into` adds the products of the field.** -/
theorem fmaInto_spec (ssse3 : Bool) {dest src : List UInt8} (length : dest.length = src.length)
    (coeff : UInt8) : fmaInto ssse3 dest src coeff = .ok (addShard dest src (mul coeff)) := by
  rw [fmaInto, require_of length, ok_bind]
  by_cases zero : coeff = 0
  · rw [if_pos zero, zero, addShard_zero length]
    rfl
  by_cases one : coeff = 1
  · rw [if_neg zero, if_pos one, one, addShard_congr dest src one_mul_byte]
    rfl
  rw [if_neg zero, if_neg one]
  cases ssse3 with
  | true =>
    rw [if_pos rfl, fmaIntoSsse3, vectorRounds_eq _ _ _ _ _ (Nat.mul_div_le ..) length,
      addShard_congr dest src (nibbleProduct_eq coeff)]
    rfl
  | false =>
    rw [if_neg (by decide), fmaIntoScalar, require_of length, ok_bind, if_neg zero, if_neg one]
    exact congrArg Except.ok (addShard_congr dest src (table_of_products zero))

open Library.GaussJordan (row swapped)

/-- **The vector path of `fma_into` answers as the plain one.** -/
theorem fmaInto_paths_agree (dest src : List UInt8) (coeff : UInt8) :
    fmaInto true dest src coeff = fmaInto false dest src coeff := by
  by_cases same : dest.length = src.length
  · rw [fmaInto_spec true same, fmaInto_spec false same]
  · rw [fmaInto, fmaInto, require_of_not same]
    rfl

/-- `Option::ok_or`. -/
def okOr {α : Type} (value : Option α) (err : FecError) : Except FecError α :=
  match value with
  | some a => .ok a
  | none => .error err

@[simp] theorem okOr_some {α : Type} (a : α) (err : FecError) : okOr (some a) err = .ok a := rfl

/-! ## The Cauchy matrix -/

structure CauchyMatrix where
  k : Nat
  m : Nat
  /-- The coefficient of each data shard in each parity shard. -/
  parity : List (List UInt8)
deriving DecidableEq, Repr

/-- `u8::try_from`. -/
def byteFrom (n : Nat) (err : FecError) : Except FecError UInt8 :=
  if n < 256 then .ok (UInt8.ofNat n) else .error err

/-- One coefficient of `CauchyMatrix::new`: the inverse of the sum of two nodes. -/
def coefficient (k m i j : Nat) : Except FecError UInt8 := do
  let x ← byteFrom (k + i) (.invalidParameters k m)
  let y ← byteFrom j (.invalidParameters k m)
  okOr (div 1 (x ^^^ y)) .singularMatrix

/-- `CauchyMatrix::new`. -/
def CauchyMatrix.new (k m : Nat) : Except FecError CauchyMatrix := do
  require (¬ (k = 0 ∨ m = 0 ∨ 255 < k + m)) (.invalidParameters k m)
  let parity ← (List.range m).mapM fun i => (List.range k).mapM (coefficient k m i)
  return ⟨k, m, parity⟩

/-- `CauchyMatrix::total`. -/
def CauchyMatrix.total (matrix : CauchyMatrix) : Nat := matrix.k + matrix.m

/-- `CauchyMatrix::parity_row`. -/
def CauchyMatrix.parityRow (matrix : CauchyMatrix) (i : Nat) : Option (List UInt8) := matrix.parity[i]?

/-- `CauchyMatrix::generator`. -/
def CauchyMatrix.generator (matrix : CauchyMatrix) : List (List UInt8) :=
  ((List.range matrix.k).map fun j => (List.replicate matrix.k 0).set j 1) ++ matrix.parity

/-! ## Inversion -/

/-- An entry of a matrix of bytes. -/
def entry (m : List (List UInt8)) (r c : Nat) : UInt8 := (row m r).getD c 0

/-- The pivot search of `invert`. -/
def findPivot (n col : Nat) (m : List (List UInt8)) : Option Nat :=
  (List.range' col (n - col)).find? fun r => decide (entry m r col ≠ 0)

/-- The elimination of one row: nothing is subtracted when its factor is zero. -/
def eliminate (col : Nat) (pivotRow cells : List UInt8) : List UInt8 :=
  let factor := cells.getD col 0
  if factor = 0 then cells
  else List.zipWith (fun cell pivot => cell ^^^ mul factor pivot) cells pivotRow

/-- One round of the elimination loop of `invert`. -/
def invertColumn (n : Nat) (m : List (List UInt8)) (col : Nat) : Option (List (List UInt8)) := do
  let pivot ← findPivot n col m
  let exchanged := swapped col pivot m
  let pivotInv ← inv (entry exchanged col col)
  let normalized := exchanged.set col ((row exchanged col).map (mul · pivotInv))
  return normalized.mapIdx fun r cells =>
    if r = col then cells else eliminate col (row normalized col) cells

/-- `invert`. -/
def invert (m : List (List UInt8)) : Option (List (List UInt8)) := do
  let n := m.length
  if n = 0 ∨ m.any (fun cells => decide (cells.length ≠ n)) then
    none
  let widened := m.mapIdx fun i cells => cells ++ (List.replicate n 0).set i 1
  let reduced ← (List.range n).foldlM (invertColumn n) widened
  return reduced.map (List.drop n)

/-! ## The codec -/

/-- `MAX_FEC_SHARD_BYTES`. -/
def maxFecShardBytes : Nat := 1024 * 1024

/-- `MAX_FEC_WORKING_SET_BYTES`. -/
def maxFecWorkingSetBytes : Nat := 64 * 1024 * 1024

/-- `usize::MAX`. -/
def usizeMax : Nat := 2 ^ 64 - 1

/-- `usize::checked_mul`. -/
def checkedMul (a b : Nat) : Option Nat := if a * b ≤ usizeMax then some (a * b) else none

/-- `validate_resource_shape`. -/
def validateResourceShape (shardLen totalShards : Nat) : Except FecError Unit := do
  require (shardLen ≤ maxFecShardBytes) (.shardTooLarge shardLen maxFecShardBytes)
  let aggregate ← okOr (checkedMul shardLen totalShards)
    (.workingSetTooLarge usizeMax maxFecWorkingSetBytes)
  require (aggregate ≤ maxFecWorkingSetBytes) (.workingSetTooLarge aggregate maxFecWorkingSetBytes)

/-- The loops of `encode` and `decode` that add to a shard its multiples of the shards of a row. -/
def accumulate (ssse3 : Bool) (shard : Nat → Except FecError (List UInt8)) (dest coeffs : List UInt8) :
    Except FecError (List UInt8) :=
  coeffs.zipIdx.foldlM (fun dest term => do fmaInto ssse3 dest (← shard term.2) term.1) dest

structure Codec where
  cauchy : CauchyMatrix
deriving DecidableEq, Repr

/-- `Codec::new`. -/
def Codec.new (k m : Nat) : Except FecError Codec := do
  return ⟨← CauchyMatrix.new k m⟩

/-- `Codec::encode`. -/
def Codec.encode (codec : Codec) (ssse3 : Bool) (data : List (List UInt8)) :
    Except FecError (List (List UInt8)) := do
  let k := codec.cauchy.k
  require (data.length = k) (.dataShardCount k data.length)
  let shardLen := (data.getD 0 []).length
  validateResourceShape shardLen codec.cauchy.total
  data.forM fun shard =>
    require (shard.length = shardLen) (.inconsistentShardLen shardLen shard.length)
  (List.range codec.cauchy.m).mapM fun i => do
    let coeffs ← okOr (codec.cauchy.parityRow i) .singularMatrix
    accumulate ssse3 (fun j => .ok (data.getD j [])) (List.replicate shardLen 0) coeffs

/-- The loop of `decode` over the slots: the common length so far and the indices of the present shards. -/
def collect : List (Option (List UInt8)) → Nat → Option Nat → List Nat →
    Except FecError (Option Nat × List Nat)
  | [], _, shardLen, indices => .ok (shardLen, indices)
  | none :: slots, i, shardLen, indices => collect slots (i + 1) shardLen indices
  | some shard :: slots, i, none, indices =>
    collect slots (i + 1) (some shard.length) (indices ++ [i])
  | some shard :: slots, i, some len, indices => do
    require (len = shard.length) (.inconsistentShardLen len shard.length)
    collect slots (i + 1) (some len) (indices ++ [i])

/-- `Codec::decode`. -/
def Codec.decode (codec : Codec) (ssse3 : Bool) (present : List (Option (List UInt8))) :
    Except FecError (List (List UInt8)) := do
  let k := codec.cauchy.k
  let total := codec.cauchy.total
  require (present.length = total) (.presentSlotCount total present.length)
  let (shardLen, found) ← collect present 0 none []
  require (k ≤ found.length) (.insufficientShards k found.length)
  let indices := found.take k
  let shardLen ← okOr shardLen (.insufficientShards k 0)
  validateResourceShape shardLen total
  if indices.zipIdx.all fun place => decide (place.1 = place.2) then
    (present.take k).mapM fun slot => okOr slot (.insufficientShards k indices.length)
  else
    let generator := codec.cauchy.generator
    let inverse ← okOr (invert (indices.map fun i => row generator i)) .singularMatrix
    ((List.replicate k (List.replicate shardLen 0)).zip inverse).mapM fun rows =>
      accumulate ssse3
        (fun j => okOr (present.getD (indices.getD j 0) none) (.insufficientShards k indices.length))
        rows.1 rows.2

end OneLink.Fec
