/-
# ThresholdRecovery.Tables -- the arithmetic of the pure Python module

The Python module multiplies through tables of powers and logarithms to the
generator 3, which it fills in one walk over the nonzero bytes.  The walk is
followed round by round (`buildRounds_spec`): the entries are the powers and the
exponents (`expAt_eq`, `expAt_logAt`), so a product of two table entries is the
product of `Library.ByteField`, and hence that of the native crate.
-/
import Mathlib.GroupTheory.OrderOfElement
import Mathlib.Tactic.NormNum.Prime
import OneLink.ThresholdRecovery.Shamir

namespace OneLink.ThresholdRecovery.Threshold

set_option autoImplicit false

open Library

/-! ## The tables of the source -/

/-- The rounds of `_build_tables` still to run, at index `i` and power `a`. -/
def buildRounds : Nat → Nat → Nat → List Nat → List Nat → List Nat × List Nat
  | 0, _, _, exp, log => (exp, log)
  | rounds + 1, i, a, exp, log =>
    let aTimesX := ((a <<< 1) &&& 0xff) ^^^ (if a &&& 0x80 ≠ 0 then 0x1b else 0)
    buildRounds rounds (i + 1) (aTimesX ^^^ a) (exp.set i a) (log.set a i)

/-- The second period of the powers: `_EXP[i] = _EXP[i - 255]`. -/
def repeatPeriod (exp : List Nat) : Nat → List Nat
  | 0 => exp
  | count + 1 => (repeatPeriod exp count).set (255 + count) ((repeatPeriod exp count).getD count 0)

/-- The walk of `_build_tables` from `g^0`. -/
def walk : List Nat × List Nat := buildRounds 255 0 1 (List.replicate 512 0) (List.replicate 256 0)

/-- `_build_tables`. -/
def buildTables : List Nat × List Nat := (repeatPeriod walk.1 257, walk.2)

/-- `_EXP` at an index. -/
def expAt (i : Nat) : Nat := buildTables.1.getD i 0

/-- `_LOG` at an index. -/
def logAt (a : Nat) : Nat := buildTables.2.getD a 0

inductive ThresholdError where
  | zeroDivisionError (text : String)
  | valueError (text : String)
deriving DecidableEq, Repr

/-- `_gf_mul`. -/
def gfMul (a b : Nat) : Nat := if a = 0 ∨ b = 0 then 0 else expAt (logAt a + logAt b)

/-- `_gf_div`. -/
def gfDiv (a b : Nat) : Except ThresholdError Nat := do
  require (b ≠ 0) (.zeroDivisionError "division by 0 in GF(256)")
  return if a = 0 then 0 else expAt (logAt a + 255 - logAt b)

/-! ## The walk -/

/-- The integer of an element. -/
def intOf (a : ByteField) : Nat := a.bits.toNat

def generator : ByteField := ⟨3#8⟩

theorem intOf_injective : Function.Injective intOf := fun _ _ same =>
  ByteField.ext_bits (BitVec.toNat_inj.1 same)

theorem intOf_lt (a : ByteField) : intOf a < 256 := a.bits.isLt

theorem intOf_eq_zero {a : ByteField} : intOf a = 0 ↔ a = 0 :=
  ⟨fun same => intOf_injective same, fun same => by rw [same]; rfl⟩

/-- One round multiplies by the generator. -/
theorem next_power (a : ByteField) :
    (((intOf a <<< 1) &&& 0xff) ^^^ (if intOf a &&& 0x80 ≠ 0 then 0x1b else 0)) ^^^ intOf a =
      intOf (a * generator) := by
  have rounds : ∀ bits : BitVec 8,
      (((bits.toNat <<< 1) &&& 0xff) ^^^ (if bits.toNat &&& 0x80 ≠ 0 then 0x1b else 0)) ^^^ bits.toNat =
        (ByteField.product bits 3#8).toNat := by
    decide +kernel
  exact rounds a.bits

theorem generator_pow_period : generator ^ 255 = 1 := by decide +kernel

theorem orderOf_generator : orderOf generator = 255 := by
  apply orderOf_eq_of_pow_and_pow_div_prime (by decide) generator_pow_period
  intro p prime divides
  have factors : p ∣ 3 * 5 * 17 := divides
  rw [prime.dvd_mul, prime.dvd_mul, Nat.prime_dvd_prime_iff_eq prime (by norm_num),
    Nat.prime_dvd_prime_iff_eq prime (by norm_num), Nat.prime_dvd_prime_iff_eq prime (by norm_num)]
    at factors
  obtain (rfl | rfl) | rfl := factors <;> decide +kernel

theorem power_inj {i j : Nat} (left : i < 255) (right : j < 255)
    (same : intOf (generator ^ i) = intOf (generator ^ j)) : i = j := by
  have injective := pow_injOn_Iio_orderOf (x := generator)
  rw [orderOf_generator] at injective
  exact injective left right (intOf_injective same)

theorem getD_set {α : Type} (l : List α) (i j : Nat) (v absent : α) :
    (l.set i v).getD j absent = if i = j ∧ i < l.length then v else l.getD j absent := by
  simp only [List.getD_eq_getElem?_getD, List.getElem?_set]
  by_cases same : i = j
  · subst same
    by_cases inside : i < l.length <;> simp [inside]
  · simp [same]

/-- The entries after some rounds: the powers at the indices passed, the indices at the powers passed,
and everything else as before. -/
theorem buildRounds_spec (rounds i : Nat) (exp log : List Nat) (room : i + rounds ≤ 255)
    (expLength : exp.length = 512) (logLength : log.length = 256) :
    let walked := buildRounds rounds i (intOf (generator ^ i)) exp log
    walked.1.length = 512 ∧
      (∀ j, walked.1.getD j 0 =
        if i ≤ j ∧ j < i + rounds then intOf (generator ^ j) else exp.getD j 0) ∧
      (∀ j, i ≤ j → j < i + rounds → walked.2.getD (intOf (generator ^ j)) 0 = j) ∧
      ∀ v, (∀ j, i ≤ j → j < i + rounds → intOf (generator ^ j) ≠ v) →
        walked.2.getD v 0 = log.getD v 0 := by
  induction rounds generalizing i exp log with
  | zero =>
    refine ⟨expLength, fun j => ?_, fun j _ _ => by omega, fun _ _ => rfl⟩
    rw [if_neg (by omega)]
    rfl
  | succ rounds ih =>
    obtain ⟨length, powers, logs, others⟩ := ih (i + 1) (exp.set i (intOf (generator ^ i)))
      (log.set (intOf (generator ^ i)) i) (by omega) (by rw [List.length_set, expLength])
      (by rw [List.length_set, logLength])
    have step : buildRounds (rounds + 1) i (intOf (generator ^ i)) exp log =
        buildRounds rounds (i + 1) (intOf (generator ^ (i + 1))) (exp.set i (intOf (generator ^ i)))
          (log.set (intOf (generator ^ i)) i) := by
      rw [buildRounds, next_power, pow_succ]
    rw [step]
    have written : (log.set (intOf (generator ^ i)) i).getD (intOf (generator ^ i)) 0 = i := by
      rw [getD_set, if_pos ⟨rfl, logLength ▸ intOf_lt _⟩]
    refine ⟨length, ?_, ?_, ?_⟩
    · intro j
      rw [powers, getD_set]
      by_cases here : i = j
      · rw [if_neg (by omega), if_pos ⟨here, by omega⟩, if_pos (by omega), here]
      · have same : i + 1 ≤ j ∧ j < i + 1 + rounds ↔ i ≤ j ∧ j < i + (rounds + 1) := by omega
        simp only [same, here, false_and, if_false]
    · intro j from_ below
      by_cases here : i = j
      · subst here
        rw [others, written]
        intro k later within same
        have := power_inj (by omega) (by omega) same
        omega
      · exact logs j (by omega) (by omega)
    · intro v absent
      rw [others v fun j later within => absent j (by omega) (by omega), getD_set,
        if_neg fun both => absent i (Nat.le_refl i) (by omega) both.1]

theorem walk_spec :
    walk.1.length = 512 ∧ (∀ j < 255, walk.1.getD j 0 = intOf (generator ^ j)) ∧
      ∀ j < 255, walk.2.getD (intOf (generator ^ j)) 0 = j := by
  have start : walk = buildRounds 255 0 (intOf (generator ^ 0)) (List.replicate 512 0)
      (List.replicate 256 0) := by
    rw [pow_zero]
    rfl
  obtain ⟨length, powers, logs, _⟩ := buildRounds_spec 255 0 (List.replicate 512 0)
    (List.replicate 256 0) (Nat.le_refl _) List.length_replicate List.length_replicate
  rw [start]
  refine ⟨length, fun j below => ?_, fun j below => logs j (Nat.zero_le j) (by omega)⟩
  exact (powers j).trans (if_pos (by omega))

theorem repeatPeriod_spec {exp : List Nat} (length : exp.length = 512)
    (powers : ∀ j < 255, exp.getD j 0 = intOf (generator ^ j)) {count : Nat} (room : count ≤ 257) :
    (repeatPeriod exp count).length = 512 ∧
      ∀ j < 255 + count, (repeatPeriod exp count).getD j 0 = intOf (generator ^ j) := by
  induction count with
  | zero => exact ⟨length, powers⟩
  | succ count ih =>
    obtain ⟨length', powers'⟩ := ih (by omega)
    refine ⟨by rw [repeatPeriod, List.length_set, length'], fun j below => ?_⟩
    rw [repeatPeriod, getD_set]
    by_cases here : 255 + count = j
    · rw [if_pos ⟨here, by omega⟩, powers' count (by omega), ← here, pow_add, generator_pow_period,
        one_mul]
    · rw [if_neg fun both => here both.1]
      exact powers' j (by omega)

/-! ## The entries -/

attribute [local irreducible] walk repeatPeriod

theorem buildTables_entries : buildTables.1 = repeatPeriod walk.1 257 ∧ buildTables.2 = walk.2 := by
  rw [buildTables]
  exact ⟨rfl, rfl⟩

theorem expAt_eq {i : Nat} (inside : i < 512) : expAt i = intOf (generator ^ i) := by
  obtain ⟨length, powers, _⟩ := walk_spec
  rw [expAt, buildTables_entries.1]
  exact (repeatPeriod_spec length powers (Nat.le_refl 257)).2 i inside

theorem logAt_power {j : Nat} (below : j < 255) : logAt (intOf (generator ^ j)) = j := by
  rw [logAt, buildTables_entries.2]
  exact walk_spec.2.2 j below

/-- Every nonzero element is one of the powers walked over. -/
theorem exists_power {a : ByteField} (nonzero : a ≠ 0) : ∃ j < 255, generator ^ j = a := by
  have powers : (Finset.range 255).image (fun j => intOf (generator ^ j)) = Finset.Ioo 0 256 := by
    apply Finset.eq_of_subset_of_card_le
    · intro v present
      obtain ⟨j, _, rfl⟩ := Finset.mem_image.1 present
      have positive : intOf (generator ^ j) ≠ 0 := fun zero =>
        pow_ne_zero j (by decide) (intOf_eq_zero.1 zero)
      exact Finset.mem_Ioo.2 ⟨Nat.pos_of_ne_zero positive, intOf_lt _⟩
    · rw [Finset.card_image_of_injOn fun i left j right same =>
        power_inj (List.mem_range.1 left) (List.mem_range.1 right) same]
      simp
  have present : intOf a ∈ Finset.Ioo 0 256 :=
    Finset.mem_Ioo.2 ⟨Nat.pos_of_ne_zero fun zero => nonzero (intOf_eq_zero.1 zero), intOf_lt a⟩
  rw [← powers] at present
  obtain ⟨j, below, same⟩ := Finset.mem_image.1 present
  exact ⟨j, Finset.mem_range.1 below, intOf_injective same⟩

/-- `_gf_mul` is the product of the field. -/
theorem gfMul_intOf (a b : ByteField) : gfMul (intOf a) (intOf b) = intOf (a * b) := by
  simp only [gfMul, intOf_eq_zero]
  split
  · rename_i zero
    rw [eq_comm, intOf_eq_zero, mul_eq_zero]
    exact zero
  · rename_i nonzero
    obtain ⟨left, right⟩ := not_or.1 nonzero
    obtain ⟨i, belowI, rfl⟩ := exists_power left
    obtain ⟨j, belowJ, rfl⟩ := exists_power right
    rw [logAt_power belowI, logAt_power belowJ, expAt_eq (by omega), pow_add]

/-- `_gf_div` is the quotient of the field. -/
theorem gfDiv_intOf (a : ByteField) {b : ByteField} (nonzero : b ≠ 0) :
    gfDiv (intOf a) (intOf b) = .ok (intOf (a / b)) := by
  have divisor : intOf b ≠ 0 := fun zero => nonzero (intOf_eq_zero.1 zero)
  rw [gfDiv, require_of divisor, ok_bind]
  simp only [intOf_eq_zero]
  split
  · rename_i zero
    rw [zero, zero_div]
    rfl
  · rename_i positive
    obtain ⟨i, belowI, rfl⟩ := exists_power positive
    obtain ⟨j, belowJ, rfl⟩ := exists_power nonzero
    have quotient : generator ^ (i + 255 - j) = generator ^ i / generator ^ j := by
      rw [eq_div_iff nonzero, ← pow_add, Nat.sub_add_cancel (by omega), pow_add, generator_pow_period,
        mul_one]
    rw [logAt_power belowI, logAt_power belowJ, expAt_eq (by omega), quotient]
    rfl

end OneLink.ThresholdRecovery.Threshold
