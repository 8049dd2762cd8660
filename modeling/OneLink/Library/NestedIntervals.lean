/-
# Library.NestedIntervals -- a number found by narrowing an interval digit by digit

A coder narrows an interval of numbers and, when it has become small, multiplies it by
the base.  An interval with `places` digits behind the point holds a number of `m` digits
if the number lies in it once both are written with as many digits (`Holds`).  A number
held by what comes out was held by what went in (`of_narrow`, `of_scale`), and its
offset in the interval follows from its digits (`code_narrow`, `code_scale`): that is
what a decoder computes with.
-/
import Mathlib.Algebra.Order.Ring.Nat
import Mathlib.Tactic.Ring

namespace OneLink.Library

set_option autoImplicit false

/-- The numbers from `low` on, `width` of them, with `places` digits behind the point. -/
structure Interval where
  low : Nat
  width : Nat
  places : Nat
  deriving DecidableEq, Repr

namespace Interval

variable {base m number : Nat} {i : Interval}

def narrow (i : Interval) (offset width : Nat) : Interval :=
  { i with low := i.low + offset, width }

def scale (base : Nat) (i : Interval) : Interval :=
  ⟨base * i.low, base * i.width, i.places + 1⟩

/-- The number of `m` digits behind the point lies in the interval. -/
structure Holds (base m number : Nat) (i : Interval) : Prop where
  places : i.places ≤ m
  above : i.low * base ^ (m - i.places) ≤ number
  below : number < (i.low + i.width) * base ^ (m - i.places)

/-- Where in the interval the number lies, as far as the digits go. -/
def code (base m number : Nat) (i : Interval) : Nat := number / base ^ (m - i.places) - i.low

/-- An interval holds its own lower end. -/
theorem holds_low (positive : 0 < i.width) : Holds base i.places i.low i where
  places := Nat.le_refl _
  above := by rw [Nat.sub_self, Nat.pow_zero, Nat.mul_one]
  below := by
    rw [Nat.sub_self, Nat.pow_zero, Nat.mul_one]
    omega

theorem code_low : code base i.places i.low i = 0 := by
  rw [code, Nat.sub_self, Nat.pow_zero, Nat.div_one, Nat.sub_self]

theorem Holds.of_narrow {offset width : Nat} (fits : offset + width ≤ i.width)
    (holds : Holds base m number (i.narrow offset width)) : Holds base m number i where
  places := holds.places
  above :=
    calc i.low * base ^ (m - i.places) ≤ (i.low + offset) * base ^ (m - i.places) :=
          Nat.mul_le_mul_right _ (Nat.le_add_right _ _)
      _ ≤ number := holds.above
  below :=
    calc number < (i.low + offset + width) * base ^ (m - i.places) := holds.below
      _ ≤ (i.low + i.width) * base ^ (m - i.places) := Nat.mul_le_mul_right _ (by omega)

theorem pow_succ_places {places : Nat} (before : places < m) :
    base ^ (m - places) = base * base ^ (m - (places + 1)) := by
  rw [← Nat.pow_succ']
  congr 1
  omega

theorem Holds.of_scale (holds : Holds base m number (i.scale base)) : Holds base m number i := by
  have before : i.places < m := holds.places
  have power : base ^ (m - i.places) = base * base ^ (m - (i.scale base).places) :=
    pow_succ_places before
  refine ⟨Nat.le_of_lt before, ?_, ?_⟩
  · calc i.low * base ^ (m - i.places)
        = base * i.low * base ^ (m - (i.scale base).places) := by rw [power]; ring
      _ ≤ number := holds.above
  · calc number
        < (base * i.low + base * i.width) * base ^ (m - (i.scale base).places) := holds.below
      _ = (i.low + i.width) * base ^ (m - i.places) := by rw [power]; ring

/-- The digits so far lie in the interval. -/
theorem Holds.digits (positive : 0 < base) (holds : Holds base m number i) :
    i.low ≤ number / base ^ (m - i.places) ∧
      number / base ^ (m - i.places) < i.low + i.width := by
  have power : 0 < base ^ (m - i.places) := Nat.pow_pos positive
  exact ⟨(Nat.le_div_iff_mul_le power).mpr holds.above,
    (Nat.div_lt_iff_lt_mul power).mpr holds.below⟩

theorem Holds.code_lt (positive : 0 < base) (holds : Holds base m number i) :
    code base m number i < i.width := by
  obtain ⟨above, below⟩ := holds.digits positive
  unfold code
  omega

theorem code_narrow (offset width : Nat) :
    code base m number (i.narrow offset width) = code base m number i - offset :=
  (Nat.sub_sub _ _ _).symm

/-- The offset tells which part of the interval holds the number. -/
theorem Holds.code_in_part (positive : 0 < base) {offset width : Nat}
    (holds : Holds base m number (i.narrow offset width)) :
    offset ≤ code base m number i ∧ code base m number i < offset + width := by
  obtain ⟨above, below⟩ := holds.digits positive
  simp only [narrow] at above below
  unfold code
  omega

/-- One more digit of the number goes to the offset. -/
theorem code_scale (positive : 0 < base) (holds : Holds base m number (i.scale base)) :
    code base m number (i.scale base) =
      base * code base m number i + number / base ^ (m - (i.places + 1)) % base := by
  have before : i.places < m := holds.places
  have inside := (holds.of_scale.digits positive).1
  have next : number / base ^ (m - i.places) = number / base ^ (m - (i.places + 1)) / base := by
    rw [pow_succ_places before, Nat.mul_comm, Nat.div_div_eq_div_mul]
  unfold code
  rw [next] at inside ⊢
  show number / base ^ (m - (i.places + 1)) - base * i.low = _
  generalize number / base ^ (m - (i.places + 1)) = digits at inside ⊢
  have parts := Nat.div_add_mod digits base
  have lower : base * i.low ≤ base * (digits / base) := Nat.mul_le_mul_left _ inside
  rw [Nat.mul_sub]
  omega

end Interval

end OneLink.Library
