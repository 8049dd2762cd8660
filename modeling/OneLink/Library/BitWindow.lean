/-
# Library.BitWindow -- the members of a set near its top, one bit each

The bits of a number stand for the numbers from `top` down: bit `i` for
`top - i`.  A window slides to a higher top by a shift and a mask, and takes a
member in by a disjunction.
-/
import Mathlib.Data.Nat.Bitwise
import Mathlib.Data.Set.Insert

namespace OneLink.Library

set_option autoImplicit false

/-- The lowest `width` bits tell which of the `width` numbers from `top` down are in `S`. -/
def Shows (width top bits : Nat) (S : Set Nat) : Prop :=
  ∀ i < width, (bits.testBit i = true ↔ i ≤ top ∧ top - i ∈ S)

namespace Shows

variable {width top bits : Nat} {S : Set Nat}

theorem single (width top : Nat) : Shows width top 1 {top} := by
  intro i _
  rw [Nat.testBit_one_eq_true_iff_self_eq_zero, Set.mem_singleton_iff]
  omega

theorem mark (shows : Shows width top bits S) {offset : Nat} (inside : offset ≤ top) :
    Shows width top (bits ||| (1 <<< offset)) (insert (top - offset) S) := by
  intro i small
  rw [Nat.one_shiftLeft, Nat.testBit_or, Nat.testBit_two_pow, Bool.or_eq_true, decide_eq_true_eq,
    shows i small, Set.mem_insert_iff]
  constructor
  · rintro (⟨below, member⟩ | rfl)
    · exact ⟨below, .inr member⟩
    · exact ⟨inside, .inl rfl⟩
  · rintro ⟨below, same | member⟩
    · exact .inr (by omega)
    · exact .inl ⟨below, member⟩

theorem slide (shows : Shows width top bits S) (capped : ∀ s ∈ S, s ≤ top) {shift : Nat} :
    Shows width (top + shift) ((bits <<< shift) &&& ((1 <<< width) - 1)) S := by
  intro i small
  rw [Nat.one_shiftLeft, Nat.testBit_and, Nat.testBit_two_pow_sub_one, Nat.testBit_shiftLeft,
    decide_eq_true small, Bool.and_true, Bool.and_eq_true, decide_eq_true_eq]
  by_cases reached : shift ≤ i
  · rw [shows (i - shift) (by omega), show top + shift - i = top - (i - shift) by omega]
    constructor
    · rintro ⟨-, below, member⟩
      exact ⟨by omega, member⟩
    · rintro ⟨below, member⟩
      exact ⟨reached, by omega, member⟩
  · constructor
    · rintro ⟨absurdly, -⟩
      exact absurd absurdly reached
    · rintro ⟨-, member⟩
      have below := capped _ member
      omega

/-- Past its own width a window shows nothing of what it showed. -/
theorem leap (capped : ∀ s ∈ S, s ≤ top) {shift : Nat} (far : width ≤ shift) :
    Shows width (top + shift) 0 S := by
  intro i small
  rw [Nat.zero_testBit]
  constructor
  · intro absurdly
    cases absurdly
  · rintro ⟨-, member⟩
    have below := capped _ member
    omega

end Shows

end OneLink.Library
