/-
# ThresholdRecovery.Shamir -- the two multipliers and the sharing of the recovery crate

The constant-time multiplier works on 32-bit words masked to a byte, the fast
one reads a table filled by the slow one.  Both compute the product of
`Library.ByteField` (`gfMul_word`, `element_gfMulFast`), and the Fermat power
behind the table of inverses is the inverse of that field (`gfInv_word`).

Randomness is a `ByteSource`: the bytes a run is handed, in order, and the error
it meets once they are used up.  Every run that returns draws finitely many
bytes, so such a source stands for the generator state and for the operating
system alike; the re-roll loop recurses on it.
-/
import OneLink.Library.ByteField
import OneLink.Library.Checked
import OneLink.Library.Framing

namespace OneLink.ThresholdRecovery

set_option autoImplicit false

open Library

/-! ## The arithmetic of the source, on 32-bit words -/

/-- `gf_add`: addition is exclusive or. -/
def gfAdd (a b : UInt32) : UInt32 := (a ^^^ b) &&& 0xFF

/-- `u32::conditional_select` with the choice given as the low bit of a word. -/
def conditionalSelect (whenZero whenOne choice : UInt32) : UInt32 :=
  if choice = 1 then whenOne else whenZero

/-- The rounds of `gf_mul` still to run. -/
def gfMulRounds : Nat → UInt32 → UInt32 → UInt32 → UInt32
  | 0, _, _, product => product
  | round + 1, shiftedMultiplicand, shiftedMultiplier, product =>
    gfMulRounds round
      (((shiftedMultiplicand <<< 1) &&& (0xFF : UInt32)) ^^^
        conditionalSelect 0 0x1B ((shiftedMultiplicand >>> 7) &&& 1))
      (shiftedMultiplier >>> 1)
      (product ^^^ conditionalSelect 0 shiftedMultiplicand (shiftedMultiplier &&& 1))

/-- `gf_mul`: eight rounds of shift and reduce. -/
def gfMul (multiplicand multiplier : UInt32) : UInt32 :=
  (gfMulRounds 8 (multiplicand &&& 0xFF) (multiplier &&& 0xFF) 0) &&& 0xFF

/-- The loop of `gf_pow`, on the exponent that is left. -/
def gfPowLoop (b : UInt32) (e : Nat) (r : UInt32) : UInt32 :=
  if e = 0 then r
  else gfPowLoop (gfMul b b) (e / 2) (if e % 2 = 1 then gfMul r b else r)
termination_by e

/-- `gf_pow`. -/
def gfPow (base : UInt32) (exp : Nat) : UInt32 := gfPowLoop (base &&& 0xFF) exp 1

/-- `gf_inv`. -/
def gfInv (a : UInt32) : UInt32 := if a.toUInt8 = 0 then 0 else gfPow a 254

/-- `gf_mul_fast`: the entry of the table, which holds the product of the slow multiplier. -/
def gfMulFast (a b : UInt8) : UInt8 := (gfMul a.toUInt32 b.toUInt32).toUInt8

/-- `gf_inv_fast`: the entry of the table of inverses. -/
def gfInvFast (a : UInt8) : UInt8 := if a = 0 then 0 else (gfInv a.toUInt32).toUInt8

/-- `gf_div_fast`. -/
def gfDivFast (a b : UInt8) : UInt8 := if b = 0 then 0 else gfMulFast a (gfInvFast b)

/-! ## Bytes as elements of the field -/

/-- The element a byte stands for. -/
def element (byte : UInt8) : ByteField := ⟨byte.toBitVec⟩

/-- The byte of an element. -/
def byteOf (a : ByteField) : UInt8 := ⟨a.bits⟩

/-- A word that is the zero extension of a byte. -/
def word (a : ByteField) : UInt32 := ⟨a.bits.setWidth 32⟩

@[simp] theorem element_byteOf (a : ByteField) : element (byteOf a) = a := rfl

@[simp] theorem byteOf_element (byte : UInt8) : byteOf (element byte) = byte := rfl

@[simp] theorem element_inj {a b : UInt8} : element a = element b ↔ a = b :=
  ⟨fun same => congrArg byteOf same, congrArg element⟩

@[simp] theorem element_xor (a b : UInt8) : element (a ^^^ b) = element a + element b := rfl

@[simp] theorem element_zero : element 0 = 0 := rfl

@[simp] theorem element_one : element 1 = 1 := rfl

@[simp] theorem word_element (byte : UInt8) : word (element byte) = byte.toUInt32 := rfl

@[simp] theorem toUInt8_word (a : ByteField) : (word a).toUInt8 = byteOf a := by
  apply UInt8.toBitVec_inj.1
  simp [word, byteOf]

theorem word_masked : ∀ bits : BitVec 8, word ⟨bits⟩ &&& 0xFF = word ⟨bits⟩ := by
  decide +kernel

theorem word_doubled : ∀ bits : BitVec 8,
    ((word ⟨bits⟩ <<< 1) &&& (0xFF : UInt32)) ^^^ conditionalSelect 0 0x1B ((word ⟨bits⟩ >>> 7) &&& 1) =
      word ⟨ByteField.double bits⟩ := by
  decide +kernel

theorem word_halved : ∀ bits : BitVec 8, word ⟨bits⟩ >>> 1 = word ⟨bits >>> 1⟩ := by
  decide +kernel

theorem word_low : ∀ bits : BitVec 8, word ⟨bits⟩ &&& 1 = 1 ↔ bits.getLsbD 0 := by
  decide +kernel

theorem word_xor (a b : ByteField) : word a ^^^ word b = word (a + b) := by
  apply UInt32.toBitVec_inj.1
  simp [word]

theorem word_selected (a b : BitVec 8) :
    conditionalSelect 0 (word ⟨a⟩) (word ⟨b⟩ &&& 1) =
      word ⟨if b.getLsbD 0 then a else 0#8⟩ := by
  simp only [conditionalSelect, word_low]
  split <;> rfl

/-! ## The source's arithmetic is the field's -/

theorem gfMulRounds_word (round : Nat) (a b product : BitVec 8) :
    gfMulRounds round (word ⟨a⟩) (word ⟨b⟩) (word ⟨product⟩) =
      word ⟨product ^^^ ByteField.rounds round a b⟩ := by
  induction round generalizing a b product with
  | zero => simp [gfMulRounds, ByteField.rounds]
  | succ round ih =>
    rw [gfMulRounds, word_doubled, word_halved, word_selected, word_xor]
    exact (ih _ _ _).trans (by rw [ByteField.rounds, ← BitVec.xor_assoc])

@[simp] theorem gfMul_word (a b : ByteField) : gfMul (word a) (word b) = word (a * b) := by
  rw [gfMul, word_masked a.bits, word_masked b.bits]
  have start := gfMulRounds_word 8 a.bits b.bits 0#8
  rw [BitVec.zero_xor] at start
  exact (congrArg (· &&& 0xFF) start).trans (word_masked _)

@[simp] theorem gfAdd_word (a b : ByteField) : gfAdd (word a) (word b) = word (a + b) := by
  rw [gfAdd, word_xor, word_masked (a + b).bits]

theorem gfPowLoop_word (a : ByteField) (e : Nat) (r : ByteField) :
    gfPowLoop (word a) e (word r) = word (r * a ^ e) := by
  induction e using Nat.strong_induction_on generalizing a r with
  | _ e ih =>
    rw [gfPowLoop]
    by_cases done : e = 0
    · rw [if_pos done, done, pow_zero, mul_one]
    · have halves : a ^ e = (a * a) ^ (e / 2) * a ^ (e % 2) := by
        rw [← pow_two, ← pow_mul, ← pow_add, Nat.div_add_mod]
      have smaller : e / 2 < e := Nat.div_lt_self (Nat.pos_of_ne_zero done) (by decide)
      rw [if_neg done, gfMul_word, gfMul_word, halves]
      by_cases odd : e % 2 = 1
      · rw [if_pos odd, ih _ smaller, odd, pow_one]
        rw [mul_assoc, mul_comm a]
      · rw [if_neg odd, ih _ smaller, (Nat.mod_two_eq_zero_or_one e).resolve_right odd, pow_zero,
          mul_one]

theorem gfPow_word (a : ByteField) (e : Nat) : gfPow (word a) e = word (a ^ e) := by
  rw [gfPow, word_masked a.bits]
  exact (gfPowLoop_word a e 1).trans (by rw [one_mul])

/-- `gf_inv` is the inverse of the field. -/
theorem gfInv_word (a : ByteField) : gfInv (word a) = word a⁻¹ := by
  rw [gfInv, toUInt8_word]
  split
  · rename_i zero
    have isZero : a = 0 := congrArg element zero
    rw [isZero, inv_zero]
    rfl
  · rw [gfPow_word, ByteField.inv_eq_pow]

theorem element_gfMulFast (a b : UInt8) : element (gfMulFast a b) = element a * element b := by
  rw [gfMulFast, ← word_element, ← word_element, gfMul_word, toUInt8_word, element_byteOf]

theorem element_gfDivFast (a b : UInt8) : element (gfDivFast a b) = element a / element b := by
  rw [gfDivFast]
  split
  · rename_i zero
    rw [zero, element_zero, div_zero]
  · rename_i nonzero
    rw [element_gfMulFast, gfInvFast, if_neg nonzero, ← word_element, gfInv_word, toUInt8_word,
      element_byteOf, div_eq_mul_inv]

/-- One share; position zero is reserved for the secret itself. -/
structure Share where
  x : UInt8
  y : UInt8
deriving DecidableEq, Repr

/-- `MAX_SECRET_BYTES`. -/
def maxSecretBytes : Nat := 64 * 1024

/-- `ShareError`. -/
inductive ShareError where
  | invalidParams (k n : Nat)
  | notEnoughShares (have_ need : Nat)
  | duplicateShareX
  | invalidShareX
  | secretTooLarge (actual max : Nat)
  | randomnessUnavailable (reason : String)
  | streamLengthMismatch (index expected actual : Nat)
  | shareCountMismatch (expected actual : Nat)
  | shareXMismatch (index : Nat) (left right : UInt8)
deriving DecidableEq, Repr

/-- `max_participants`. -/
def maxParticipants : Nat := 255

/-- `params_valid`. -/
abbrev ParamsValid (k n : Nat) : Prop := 1 ≤ k ∧ k ≤ n ∧ n ≤ maxParticipants

/-- The bytes a random generator hands to one run, and how it fails after them. -/
structure ByteSource where
  bytes : Bytes
  failure : String
deriving DecidableEq

/-! ## Splitting -/

/-- The draws of `coeffs[1..]`. -/
def drawCoefficients : Nat → ByteSource → Except ShareError (Bytes × ByteSource)
  | 0, source => .ok ([], source)
  | _ + 1, ⟨[], failure⟩ => .error (.randomnessUnavailable failure)
  | count + 1, ⟨byte :: bytes, failure⟩ => do
    let (rest, source) ← drawCoefficients count ⟨bytes, failure⟩
    .ok (byte :: rest, source)

/-- `while coeffs[last] == 0`: draw until the top coefficient is not zero. -/
def rerollTop (failure : String) (top : UInt8) : Bytes → Except ShareError (UInt8 × ByteSource)
  | [] => if top = 0 then .error (.randomnessUnavailable failure) else .ok (top, ⟨[], failure⟩)
  | byte :: bytes =>
    if top = 0 then rerollTop failure byte bytes else .ok (top, ⟨byte :: bytes, failure⟩)

/-- The coefficients `coeffs[1..]` of one secret byte, the re-rolled top one included. -/
def chooseCoefficients (k : Nat) (source : ByteSource) : Except ShareError (Bytes × ByteSource) := do
  let (drawn, source) ← drawCoefficients (k - 1) source
  match drawn.getLast? with
  | none => .ok (drawn, source)
  | some last => do
    let (top, source) ← rerollTop source.failure last source.bytes
    .ok (drawn.dropLast ++ [top], source)

/-- Horner's rule on the coefficients of one byte, at one position. -/
def shareValue (coeffs : Bytes) (x : UInt32) : UInt8 :=
  ((coeffs.reverse.foldl (fun acc coefficient => gfAdd (gfMul acc x) coefficient.toUInt32) 0)
    &&& (0xFF : UInt32)).toUInt8

/-- One byte more on every stream. -/
def pushColumn (coeffs : Bytes) (streams : List Bytes) : List Bytes :=
  streams.mapIdx fun index stream => stream ++ [shareValue coeffs (UInt32.ofNat (index + 1))]

/-- The loop over the secret's bytes. -/
def shareLoop (k : Nat) : Bytes → List Bytes → ByteSource → Except ShareError (List Bytes × ByteSource)
  | [], streams, source => .ok (streams, source)
  | secretByte :: rest, streams, source => do
    let (tail, source) ← chooseCoefficients k source
    shareLoop k rest (pushColumn (secretByte :: tail) streams) source

/-- `share_bytes_with_next`. -/
def shareBytesWithNext (secret : Bytes) (k n : Nat) (source : ByteSource) :
    Except ShareError (List Bytes × ByteSource) := do
  require (ParamsValid k n) (.invalidParams k n)
  require (secret.length ≤ maxSecretBytes) (.secretTooLarge secret.length maxSecretBytes)
  shareLoop k secret (List.replicate n []) source

/-! ## Reconstruction -/

/-- `lagrange_basis_at_zero`. -/
def lagrangeBasisAtZero (shares : List Share) : Bytes :=
  shares.mapIdx fun i share =>
    let quotient := shares.zipIdx.foldl (fun (acc : UInt8 × UInt8) (other : Share × Nat) =>
      if i = other.2 then acc
      else (gfMulFast acc.1 other.1.x, gfMulFast acc.2 (share.x ^^^ other.1.x))) (1, 1)
    gfDivFast quotient.1 quotient.2

/-- The positions are nonzero and distinct. -/
def checkPositions (positions : Bytes) : Except ShareError Unit := do
  require (0 ∉ positions) .invalidShareX
  require positions.Nodup .duplicateShareX

/-- The inner product of share bytes and basis. -/
def combine (values basis : Bytes) : UInt8 :=
  (((values.zip basis).foldl
    (fun acc (pair : UInt8 × UInt8) => gfAdd acc (gfMul pair.1.toUInt32 pair.2.toUInt32)) 0)
    &&& (0xFF : UInt32)).toUInt8

/-- `reconstruct_byte`. -/
def reconstructByte (shares : List Share) (k : Nat) : Except ShareError UInt8 := do
  require (¬ (k = 0 ∨ maxParticipants < k ∨ maxParticipants < shares.length))
    (.invalidParams k (if shares.length < 2 ^ 32 then shares.length else 2 ^ 32 - 1))
  require (k ≤ shares.length) (.notEnoughShares shares.length k)
  checkPositions ((shares.take k).map Share.x)
  .ok (combine ((shares.take k).map Share.y) (lagrangeBasisAtZero (shares.take k)))

/-- The first stream whose length is not that of the first. -/
def checkLengths (expected : Nat) : Nat → List Bytes → Except ShareError Unit
  | _, [] => .ok ()
  | index, stream :: rest => do
    require (stream.length = expected) (.streamLengthMismatch index expected stream.length)
    checkLengths expected (index + 1) rest

/-- `reconstruct_bytes`. -/
def reconstructBytes (xs : Bytes) (streams : List Bytes) (k : Nat) : Except ShareError Bytes := do
  require (xs.length = streams.length) (.notEnoughShares (min xs.length streams.length) k)
  -- the source compares the length truncated to 32 bits
  require (k ≤ xs.length % 2 ^ 32) (.notEnoughShares xs.length k)
  require (¬ (k = 0 ∨ maxParticipants < k ∨ maxParticipants < xs.length))
    (.invalidParams k (if xs.length < 2 ^ 32 then xs.length else 2 ^ 32 - 1))
  let count := (streams.headD []).length
  require (count ≤ maxSecretBytes) (.secretTooLarge count maxSecretBytes)
  checkLengths count 0 streams
  checkPositions (xs.take k)
  let basis := lagrangeBasisAtZero ((xs.take k).map fun x => ⟨x, 0⟩)
  .ok ((List.range count).map fun b => combine ((streams.take k).map fun s => s.getD b 0) basis)

end OneLink.ThresholdRecovery
