/-
# Library.FixedWidth -- byte strings read as numbers, the most or the least significant byte first

Byte strings of one length compare lexicographically as their values do
(`compareBytes_eq`), and the number of leading zero bits of a string is the
binary order of magnitude of its value (`leadingZeros_spec`).

`leBytes width n` is the least significant byte first, as `to_le_bytes` writes
it; `leValue` reads any byte string back.
-/
import Mathlib.Algebra.Order.Ring.Nat
import Mathlib.Tactic.Ring
import OneLink.Library.Framing

namespace OneLink.Library

set_option autoImplicit false

/-- The number a byte string writes, first byte highest. -/
def beValue : Bytes → Nat
  | [] => 0
  | byte :: rest => byte.toNat * 256 ^ rest.length + beValue rest

theorem beValue_lt (bytes : Bytes) : beValue bytes < 256 ^ bytes.length := by
  induction bytes with
  | nil => exact Nat.one_pos
  | cons byte rest ih =>
    have small : byte.toNat ≤ 255 := Nat.le_of_lt_succ byte.toNat_lt
    calc beValue (byte :: rest) = byte.toNat * 256 ^ rest.length + beValue rest := rfl
      _ < byte.toNat * 256 ^ rest.length + 256 ^ rest.length := by omega
      _ ≤ 255 * 256 ^ rest.length + 256 ^ rest.length :=
          Nat.add_le_add_right (Nat.mul_le_mul_right _ small) _
      _ = 256 ^ (byte :: rest).length := by rw [List.length_cons, Nat.pow_succ]; ring

/-! ## Order -/

/-- The lexicographic order of byte arrays. -/
def compareBytes : Bytes → Bytes → Ordering
  | [], [] => .eq
  | [], _ :: _ => .lt
  | _ :: _, [] => .gt
  | a :: as, b :: bs =>
    if a.toNat < b.toNat then .lt else if b.toNat < a.toNat then .gt else compareBytes as bs

theorem high_byte_lt {a b m r s : Nat} (below : a < b) (small : r < m) : a * m + r < b * m + s :=
  calc a * m + r < a * m + m := by omega
    _ = (a + 1) * m := by ring
    _ ≤ b * m := Nat.mul_le_mul_right _ below
    _ ≤ b * m + s := Nat.le_add_right _ _

theorem compareBytes_eq {as bs : Bytes} (lengths : as.length = bs.length) :
    compareBytes as bs =
      if beValue as < beValue bs then .lt else if beValue bs < beValue as then .gt else .eq := by
  induction as generalizing bs with
  | nil =>
    obtain rfl : bs = [] := List.length_eq_zero_iff.1 lengths.symm
    rfl
  | cons a as ih =>
    obtain _ | ⟨b, bs⟩ := bs
    · cases lengths
    have tails : as.length = bs.length := by simpa using lengths
    have boundA := beValue_lt as
    have boundB := beValue_lt bs
    rw [tails] at boundA
    simp only [compareBytes, beValue, tails]
    by_cases less : a.toNat < b.toNat
    · rw [if_pos less, if_pos (high_byte_lt less boundA)]
    · rw [if_neg less]
      by_cases more : b.toNat < a.toNat
      · have above := @high_byte_lt _ _ _ _ (beValue as) more boundB
        rw [if_pos more, if_neg (Nat.lt_asymm above), if_pos above]
      · rw [if_neg more, ih tails, Nat.le_antisymm (Nat.le_of_not_lt more) (Nat.le_of_not_lt less)]
        simp only [Nat.add_lt_add_iff_left]

theorem beValue_inj {as bs : Bytes} (lengths : as.length = bs.length)
    (same : beValue as = beValue bs) : as = bs := by
  induction as generalizing bs with
  | nil => exact (List.length_eq_zero_iff.1 lengths.symm).symm
  | cons a as ih =>
    obtain _ | ⟨b, bs⟩ := bs
    · cases lengths
    have tails : as.length = bs.length := by simpa using lengths
    have boundA := beValue_lt as
    have boundB := beValue_lt bs
    rw [tails] at boundA
    simp only [beValue, tails] at same
    obtain less | heads | more := Nat.lt_trichotomy a.toNat b.toNat
    · exact absurd same (Nat.ne_of_lt (high_byte_lt less boundA))
    · rw [heads, Nat.add_left_cancel_iff] at same
      rw [UInt8.toNat_inj.1 heads, ih tails same]
    · exact absurd same (Nat.ne_of_gt (high_byte_lt more boundB))

/-! ## Leading zero bits -/

/-- `u8::leading_zeros`. -/
def byteLeadingZeros (x : UInt8) : Nat := if x = 0 then 8 else 7 - x.toNat.log2

/-- Leading zero bits, byte by byte up to the first byte that is not zero. -/
def leadingZeros : Bytes → Nat
  | [] => 0
  | x :: rest => if x = 0 then 8 + leadingZeros rest else byteLeadingZeros x

theorem byteLeadingZeros_spec {x : UInt8} (nonzero : x ≠ 0) :
    byteLeadingZeros x ≤ 7 ∧ 2 ^ (7 - byteLeadingZeros x) ≤ x.toNat ∧
      x.toNat < 2 ^ (8 - byteLeadingZeros x) := by
  have positive : x.toNat ≠ 0 := fun zero => nonzero (UInt8.toNat_inj.1 zero)
  have small : x.toNat.log2 < 8 := (Nat.log2_lt positive).2 x.toNat_lt
  rw [byteLeadingZeros, if_neg nonzero]
  refine ⟨by omega, ?_, ?_⟩
  · rw [show 7 - (7 - x.toNat.log2) = x.toNat.log2 by omega]
    exact Nat.log2_self_le positive
  · rw [show 8 - (7 - x.toNat.log2) = x.toNat.log2 + 1 by omega]
    exact Nat.lt_log2_self

theorem leadingZeros_spec (bytes : Bytes) :
    (beValue bytes = 0 ∧ leadingZeros bytes = 8 * bytes.length) ∨
      (leadingZeros bytes < 8 * bytes.length ∧
        2 ^ (8 * bytes.length - 1 - leadingZeros bytes) ≤ beValue bytes ∧
        beValue bytes < 2 ^ (8 * bytes.length - leadingZeros bytes)) := by
  induction bytes with
  | nil => exact .inl ⟨rfl, rfl⟩
  | cons x rest ih =>
    simp only [leadingZeros, beValue, List.length_cons]
    by_cases zero : x = 0
    · subst zero
      rw [if_pos rfl, UInt8.toNat_zero, Nat.zero_mul, Nat.zero_add]
      obtain ⟨value, count⟩ | ⟨inside, lower, upper⟩ := ih
      · exact .inl ⟨value, by omega⟩
      · refine .inr ⟨by omega, ?_, ?_⟩
        · rwa [show 8 * (rest.length + 1) - 1 - (8 + leadingZeros rest) =
            8 * rest.length - 1 - leadingZeros rest by omega]
        · rwa [show 8 * (rest.length + 1) - (8 + leadingZeros rest) =
            8 * rest.length - leadingZeros rest by omega]
    · obtain ⟨small, lower, upper⟩ := byteLeadingZeros_spec zero
      have radix : 256 ^ rest.length = 2 ^ (8 * rest.length) := by
        rw [Nat.pow_mul]
      have bound := beValue_lt rest
      rw [if_neg zero, radix] at *
      refine .inr ⟨by omega, ?_, ?_⟩
      · calc 2 ^ (8 * (rest.length + 1) - 1 - byteLeadingZeros x)
            = 2 ^ (7 - byteLeadingZeros x) * 2 ^ (8 * rest.length) := by
              rw [← Nat.pow_add]
              congr 1
              omega
          _ ≤ x.toNat * 2 ^ (8 * rest.length) := Nat.mul_le_mul_right _ lower
          _ ≤ _ := Nat.le_add_right _ _
      · calc x.toNat * 2 ^ (8 * rest.length) + beValue rest
            < 2 ^ (8 - byteLeadingZeros x) * 2 ^ (8 * rest.length) + 0 := high_byte_lt upper bound
          _ = 2 ^ (8 * (rest.length + 1) - byteLeadingZeros x) := by
              rw [Nat.add_zero, ← Nat.pow_add]
              congr 1
              omega

def leBytes : Nat → Nat → Bytes
  | 0, _ => []
  | width + 1, n => UInt8.ofNat n :: leBytes width (n / 256)

def leValue : Bytes → Nat
  | [] => 0
  | b :: rest => b.toNat + 256 * leValue rest

@[simp] theorem length_leBytes (width n : Nat) : (leBytes width n).length = width := by
  induction width generalizing n with
  | zero => rfl
  | succ width ih => rw [leBytes, List.length_cons, ih]

theorem leValue_leBytes {width n : Nat} (small : n < 256 ^ width) :
    leValue (leBytes width n) = n := by
  induction width generalizing n with
  | zero =>
    rw [Nat.pow_zero] at small
    rw [leBytes, leValue]
    omega
  | succ width ih =>
    rw [Nat.pow_succ] at small
    rw [leBytes, leValue, ih (by omega), UInt8.toNat_ofNat']
    omega

theorem leBytes_leValue (bytes : Bytes) : leBytes bytes.length (leValue bytes) = bytes := by
  induction bytes with
  | nil => rfl
  | cons b rest ih =>
    have small := b.toNat_lt
    rw [List.length_cons, leBytes, leValue, show (b.toNat + 256 * leValue rest) / 256 = leValue rest by
      omega, ih]
    congr 1
    apply UInt8.toNat_inj.mp
    rw [UInt8.toNat_ofNat']
    omega

theorem leValue_lt (bytes : Bytes) : leValue bytes < 256 ^ bytes.length := by
  induction bytes with
  | nil => simp [leValue]
  | cons b rest ih =>
    have := b.toNat_lt
    rw [leValue, List.length_cons, Nat.pow_succ]
    omega

end OneLink.Library
