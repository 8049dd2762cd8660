/-
# Library.ByteField -- the field of 256 elements on bytes

Polynomials over the two-element field modulo `x^8 + x^4 + x^3 + x + 1`, kept as
the eight bits of a byte.  The ring laws are additive in each argument, so each
is checked on the eight powers of the indeterminate (`additive_ext`) and holds
of every byte.  So is that the 256th power is the identity, by which a 255th power
is idempotent; the idempotents alone are looked for among all bytes.
-/
import Mathlib.Algebra.Field.Basic
import Mathlib.Tactic.Ring

namespace OneLink.Library

set_option autoImplicit false

/-- A byte read as a polynomial over the two-element field, of degree at most seven. -/
structure ByteField where
  /-- Bit `i` is the coefficient of degree `i`. -/
  bits : BitVec 8
deriving DecidableEq

namespace ByteField

/-! ## The product by shifting and adding -/

/-- Multiplication by the indeterminate, reduced by `x^8 + x^4 + x^3 + x + 1`. -/
def double (a : BitVec 8) : BitVec 8 :=
  (a <<< 1) ^^^ (if a.msb then 0x1B#8 else 0#8)

/-- The product by shifting and adding, one round for each bit of the second factor. -/
def rounds : Nat → BitVec 8 → BitVec 8 → BitVec 8
  | 0, _, _ => 0#8
  | n + 1, a, b => (if b.getLsbD 0 then a else 0#8) ^^^ rounds n (double a) (b >>> 1)

/-- The product of two bytes. -/
def product (a b : BitVec 8) : BitVec 8 := rounds 8 a b

theorem select_xor (p q : Bool) (c : BitVec 8) :
    (if (p ^^ q) then c else 0#8) = (if p then c else 0#8) ^^^ (if q then c else 0#8) := by
  cases p <;> cases q <;> simp

theorem double_xor (a b : BitVec 8) : double (a ^^^ b) = double a ^^^ double b := by
  simp only [double, BitVec.shiftLeft_xor_distrib, BitVec.msb_xor, select_xor]
  ac_rfl

theorem rounds_xor_left (n : Nat) (a b c : BitVec 8) :
    rounds n (a ^^^ b) c = rounds n a c ^^^ rounds n b c := by
  induction n generalizing a b c with
  | zero => simp [rounds]
  | succ n ih =>
    simp only [rounds, double_xor, ih]
    cases c.getLsbD 0
    · simp
    · simp only [if_true]
      ac_rfl

theorem rounds_xor_right (n : Nat) (a b c : BitVec 8) :
    rounds n a (b ^^^ c) = rounds n a b ^^^ rounds n a c := by
  induction n generalizing a b c with
  | zero => simp [rounds]
  | succ n ih =>
    simp only [rounds, BitVec.getLsbD_xor, BitVec.ushiftRight_xor_distrib, ih, select_xor]
    ac_rfl

/-! ## Ring laws from the powers of the indeterminate -/

/-- A byte is the sum of its own powers of the indeterminate. -/
theorem sum_of_bits : ∀ a : BitVec 8,
    (List.range 8).foldr (fun i rest => (if a.getLsbD i then 1#8 <<< i else 0#8) ^^^ rest) 0#8 = a := by
  decide +kernel

/-- Two additive functions that agree on the eight powers agree everywhere. -/
theorem additive_ext {f g : BitVec 8 → BitVec 8} (addsF : ∀ a b, f (a ^^^ b) = f a ^^^ f b)
    (addsG : ∀ a b, g (a ^^^ b) = g a ^^^ g b) (agree : ∀ i < 8, f (1#8 <<< i) = g (1#8 <<< i))
    (a : BitVec 8) : f a = g a := by
  have zero : ∀ h : BitVec 8 → BitVec 8, (∀ a b, h (a ^^^ b) = h a ^^^ h b) → h 0#8 = 0#8 := by
    intro h adds
    have self := adds 0#8 0#8
    rw [BitVec.xor_self] at self
    exact self.trans (BitVec.xor_self)
  have sums : ∀ degrees : List Nat, (∀ i ∈ degrees, i < 8) →
      f (degrees.foldr (fun i rest => (if a.getLsbD i then 1#8 <<< i else 0#8) ^^^ rest) 0#8) =
      g (degrees.foldr (fun i rest => (if a.getLsbD i then 1#8 <<< i else 0#8) ^^^ rest) 0#8) := by
    intro degrees
    induction degrees with
    | nil => intro _; exact (zero f addsF).trans (zero g addsG).symm
    | cons i rest ih =>
      intro small
      rw [List.foldr_cons, addsF, addsG, ih fun j mem => small j (List.mem_cons_of_mem _ mem)]
      cases a.getLsbD i
      · simp [zero f addsF, zero g addsG]
      · simp [agree i (small i List.mem_cons_self)]
  have whole := sums (List.range 8) (fun i mem => List.mem_range.1 mem)
  rwa [sum_of_bits] at whole

theorem product_xor_left (a b c : BitVec 8) :
    product (a ^^^ b) c = product a c ^^^ product b c := rounds_xor_left 8 a b c

theorem product_xor_right (a b c : BitVec 8) :
    product a (b ^^^ c) = product a b ^^^ product a c := rounds_xor_right 8 a b c

theorem product_comm (a b : BitVec 8) : product a b = product b a := by
  have powers : ∀ i < 8, ∀ j < 8,
      product (1#8 <<< i) (1#8 <<< j) = product (1#8 <<< j) (1#8 <<< i) := by decide +kernel
  refine @additive_ext (product · b) (product b ·) (product_xor_left · · b) (product_xor_right b)
    (fun i small => ?_) a
  exact @additive_ext (product (1#8 <<< i) ·) (product · (1#8 <<< i)) (product_xor_right _)
    (product_xor_left · · _) (powers i small) b

theorem product_assoc (a b c : BitVec 8) :
    product (product a b) c = product a (product b c) := by
  have powers : ∀ i < 8, ∀ j < 8, ∀ k < 8,
      product (product (1#8 <<< i) (1#8 <<< j)) (1#8 <<< k) =
        product (1#8 <<< i) (product (1#8 <<< j) (1#8 <<< k)) := by decide +kernel
  refine @additive_ext (fun x => product (product x b) c) (fun x => product x (product b c))
    (fun x y => ?_) (fun x y => product_xor_left x y _) (fun i smallI => ?_) a
  · simp only [product_xor_left]
  refine @additive_ext (fun x => product (product _ x) c) (fun x => product _ (product x c))
    (fun x y => ?_) (fun x y => ?_) (fun j smallJ => ?_) b
  · simp only [product_xor_left, product_xor_right]
  · simp only [product_xor_left, product_xor_right]
  refine @additive_ext (fun x => product (product _ _) x) (fun x => product _ (product _ x))
    (product_xor_right _) (fun x y => ?_) (powers i smallI j smallJ) c
  simp only [product_xor_right]

/-- The square-and-multiply power that inverts: `a^254`. -/
def inverse (a : BitVec 8) : BitVec 8 :=
  (List.range 7).foldr (fun _ acc => product (product acc acc) (product a a)) 1#8

/-! ## The field -/

instance : Add ByteField := ⟨fun a b => ⟨a.bits ^^^ b.bits⟩⟩
instance : Zero ByteField := ⟨⟨0#8⟩⟩
instance : One ByteField := ⟨⟨1#8⟩⟩
instance : Neg ByteField := ⟨id⟩
instance : Mul ByteField := ⟨fun a b => ⟨product a.bits b.bits⟩⟩
instance : Inv ByteField := ⟨fun a => ⟨inverse a.bits⟩⟩

@[ext] theorem ext_bits {a b : ByteField} (same : a.bits = b.bits) : a = b := by
  cases a; cases b; exact congrArg _ same

@[simp] theorem bits_add (a b : ByteField) : (a + b).bits = a.bits ^^^ b.bits := rfl
@[simp] theorem bits_mul (a b : ByteField) : (a * b).bits = product a.bits b.bits := rfl
@[simp] theorem bits_zero : (0 : ByteField).bits = 0#8 := rfl
@[simp] theorem bits_one : (1 : ByteField).bits = 1#8 := rfl

theorem one_product (a : BitVec 8) : product 1#8 a = a := by
  have powers : ∀ i < 8, product 1#8 (1#8 <<< i) = 1#8 <<< i := by decide
  exact additive_ext (g := id) (product_xor_right _) (fun _ _ => rfl) powers a

theorem zero_product (a : BitVec 8) : product 0#8 a = 0#8 := by
  have powers : ∀ i < 8, product 0#8 (1#8 <<< i) = 0#8 := by decide
  exact additive_ext (g := fun _ => 0#8) (product_xor_right _) (fun _ _ => rfl) powers a

instance : CommRing ByteField where
  add_assoc a b c := by ext1; exact BitVec.xor_assoc ..
  zero_add a := by ext1; exact BitVec.zero_xor
  add_zero a := by ext1; exact BitVec.xor_zero
  add_comm a b := by ext1; exact BitVec.xor_comm ..
  neg_add_cancel a := by ext1; exact BitVec.xor_self
  left_distrib a b c := by ext1; exact product_xor_right ..
  right_distrib a b c := by ext1; exact product_xor_left ..
  zero_mul a := by ext1; exact zero_product _
  mul_zero a := by ext1; exact (product_comm ..).trans (zero_product _)
  mul_assoc a b c := by ext1; exact product_assoc ..
  one_mul a := by ext1; exact one_product _
  mul_one a := by ext1; exact (product_comm ..).trans (one_product _)
  mul_comm a b := by ext1; exact product_comm ..
  nsmul := nsmulRec
  zsmul := zsmulRec

/-! ## Inverses from the 255th power -/

theorem square_xor (a b : BitVec 8) :
    product (a ^^^ b) (a ^^^ b) = product a a ^^^ product b b := by
  rw [product_xor_left, product_xor_right, product_xor_right, product_comm b a, BitVec.xor_assoc,
    ← BitVec.xor_assoc (product a b), BitVec.xor_self, BitVec.zero_xor]

theorem squares_xor (n : Nat) (a b : BitVec 8) :
    (fun c => product c c)^[n] (a ^^^ b) =
      (fun c => product c c)^[n] a ^^^ (fun c => product c c)^[n] b := by
  induction n generalizing a b with
  | zero => rfl
  | succ n ih => simp only [Function.iterate_succ_apply, square_xor, ih]

theorem bits_pow_two_pow (a : ByteField) (n : Nat) :
    (a ^ 2 ^ n).bits = (fun c => product c c)^[n] a.bits := by
  induction n with
  | zero => rw [pow_zero, pow_one]; rfl
  | succ n ih => rw [pow_succ, pow_mul, pow_two, bits_mul, ih, Function.iterate_succ_apply']

theorem pow_256 (a : ByteField) : a ^ 256 = a := by
  have powers : ∀ i < 8, (fun c => product c c)^[8] (1#8 <<< i) = 1#8 <<< i := by decide +kernel
  refine ext_bits ((bits_pow_two_pow a 8).trans ?_)
  exact additive_ext (g := id) (squares_xor 8) (fun _ _ => rfl) powers a.bits

theorem idempotent_bits : ∀ a : BitVec 8, product a a = a → a = 0#8 ∨ a = 1#8 := by decide +kernel

/-- Inversion is the 254th power. -/
theorem inv_eq_pow (a : ByteField) : a⁻¹ = a ^ 254 := by
  have folded : a⁻¹ = (List.range 7).foldr (fun _ acc => acc * acc * (a * a)) 1 := rfl
  rw [folded]
  simp only [List.range, List.range.loop, List.foldr_cons, List.foldr_nil]
  ring

theorem pow_255 {a : ByteField} (nonzero : a.bits ≠ 0#8) : a ^ 255 = 1 := by
  have absorbs : a * a ^ 255 = a := (pow_succ' a 255).symm.trans (pow_256 a)
  have idempotent : a ^ 255 * a ^ 255 = a ^ 255 := by
    rw [← pow_add, show 255 + 255 = 256 + 254 from rfl, pow_add, pow_256, ← pow_succ']
  rcases idempotent_bits _ (congrArg bits idempotent) with zero | one
  · rw [ext_bits (b := 0) zero, mul_zero] at absorbs
    exact absurd (congrArg bits absorbs).symm nonzero
  · exact ext_bits one

theorem mul_inv_of_nonzero {a : ByteField} (nonzero : a.bits ≠ 0#8) : a * a⁻¹ = 1 := by
  rw [inv_eq_pow, ← pow_succ', pow_255 nonzero]

instance : Field ByteField where
  exists_pair_ne := ⟨0, 1, by decide⟩
  mul_inv_cancel a nonzero := mul_inv_of_nonzero fun zero => nonzero (ext_bits zero)
  inv_zero := by decide
  nnqsmul := _
  nnqsmul_def := fun _ _ => rfl
  qsmul := _
  qsmul_def := fun _ _ => rfl

end ByteField

end OneLink.Library
