/-
# Canon.Varint — LEB128 and zigzag

`encode_varint` writes seven bits a byte, lowest first; `decode_varint` reads at most ten
bytes.  A written number is read back whatever follows it (`decodeVarint_encodeVarint`),
so no written number is a proper prefix of another.
-/
import OneLink.Library.Framing
import OneLink.Library.Checked
import Mathlib.Data.Nat.Bitwise

namespace OneLink.Canon

open Library

set_option autoImplicit false

/-- The tags of the wire format. -/
inductive TypeTag where
  | null
  | false
  | true
  | uInt
  | int
  | float32
  | float64
  | string
  | bytes
  | array
  | map
  | struct
  | enum
  | none
  | some
  | timestamp
  | uuid
  | nodeId
  | vectorClock
  | hlc
  deriving DecidableEq, Repr

inductive DecodeError where
  | unexpectedEof (pos : Nat)
  | unknownTag (byte : UInt8)
  | varintTooLong
  | tagMismatch (expected found : TypeTag)
  | invalidUtf8
  | lengthOverflow (claimed remaining : Nat)
  | numericOverflow (value : Nat) (target : String)
  | collectionTooLarge (claimed maximum : Nat)
  deriving DecidableEq, Repr

def maxVarintBytes : Nat := 10

/-- The low seven bits, with the continuation bit while there are higher ones. -/
def encodeVarint (value : UInt64) : Bytes :=
  if value >>> 7 = 0 then [(value &&& 0x7F).toUInt8]
  else ((value &&& 0x7F).toUInt8 ||| 0x80) :: encodeVarint (value >>> 7)
termination_by value.toNat
decreasing_by
  rename_i more
  have positive : (value >>> 7).toNat ≠ 0 := fun zero => more (UInt64.toNat_inj.mp zero)
  simp only [UInt64.toNat_shiftRight, UInt64.reduceToNat, Nat.reduceMod,
    Nat.shiftRight_eq_div_pow] at positive ⊢
  omega

/-- The loop of `decode_varint` over the bytes it may look at. -/
def decodeVarintLoop (pos : Nat) : Bytes → (shift : Nat) → (value : UInt64) → (bytes : Nat) →
    Except DecodeError (UInt64 × Nat)
  | [], _, _, bytes => if bytes = 0 then .error (.unexpectedEof pos) else .error .varintTooLong
  | byte :: rest, shift, value, bytes =>
    if shift ≥ 64 then .error .varintTooLong
    else
      let value := value ||| ((byte &&& 0x7F).toUInt64 <<< UInt64.ofNat shift)
      if byte &&& 0x80 = 0 then .ok (value, bytes + 1)
      else decodeVarintLoop pos rest (shift + 7) value (bytes + 1)

def decodeVarint (input : Bytes) (pos : Nat) : Except DecodeError (UInt64 × Nat) :=
  decodeVarintLoop pos ((input.drop pos).take maxVarintBytes) 0 0 0

def zigzag (value : Int64) : UInt64 := (value.toUInt64 <<< 1) ^^^ (value >>> 63).toUInt64

def unzigzag (raw : UInt64) : Int64 := (raw >>> 1).toInt64 ^^^ -(raw &&& 1).toInt64

def encodeZigzag (value : Int64) : Bytes := encodeVarint (zigzag value)

def decodeZigzag (input : Bytes) (pos : Nat) : Except DecodeError (Int64 × Nat) := do
  let (raw, n) ← decodeVarint input pos
  return (unzigzag raw, n)

/-! ## One byte -/

theorem toNat_shiftRight_seven (value : UInt64) : (value >>> 7).toNat = value.toNat / 128 := by
  simp [UInt64.toNat_shiftRight, Nat.shiftRight_eq_div_pow]

theorem toNat_low (value : UInt64) : (value &&& 0x7F).toUInt8.toNat = value.toNat % 128 := by
  have mask : (0x7F : UInt64).toNat = 2 ^ 7 - 1 := rfl
  rw [UInt64.toNat_toUInt8, UInt64.toNat_and, mask, Nat.and_two_pow_sub_one_eq_mod]
  omega

theorem toNat_continued {byte : UInt8} (small : byte.toNat < 128) :
    (byte ||| 0x80).toNat = byte.toNat + 128 := by
  have bit : (0x80 : UInt8).toNat = 2 ^ 7 * 1 := rfl
  rw [UInt8.toNat_or, bit, Nat.or_comm, ← Nat.two_pow_add_eq_or_of_lt small]
  omega

theorem toNat_payload (byte : UInt8) : (byte &&& 0x7F).toUInt64.toNat = byte.toNat % 128 := by
  have mask : (0x7F : UInt8).toNat = 2 ^ 7 - 1 := rfl
  rw [UInt8.toNat_toUInt64, UInt8.toNat_and, mask, Nat.and_two_pow_sub_one_eq_mod]

theorem last_iff (byte : UInt8) : byte &&& 0x80 = 0 ↔ byte.toNat < 128 := by
  have bound : byte.toNat < 256 := byte.toNat_lt
  have bit : (0x80 : UInt8).toNat = 2 ^ 7 := rfl
  rw [← UInt8.toNat_inj, UInt8.toNat_and, bit, Nat.and_two_pow, Nat.testBit_eq_decide_div_mod_eq,
    show 2 ^ 7 = 128 from rfl]
  by_cases high : byte.toNat / 128 % 2 = 1
  · simp only [high, decide_true, Bool.toNat_true, UInt8.toNat_zero]
    omega
  · simp only [high, decide_false, Bool.toNat_false, Nat.zero_mul, UInt8.toNat_zero, true_iff]
    omega

/-- Adding a group above the bits read so far. -/
theorem toNat_accumulate {value chunk : UInt64} {shift : Nat} (below : value.toNat < 2 ^ shift)
    (room : shift < 64) (fits : chunk.toNat * 2 ^ shift < 2 ^ 64) :
    (value ||| (chunk <<< UInt64.ofNat shift)).toNat = value.toNat + chunk.toNat * 2 ^ shift := by
  have amount : (UInt64.ofNat shift).toNat % 64 = shift := by
    rw [UInt64.toNat_ofNat']
    omega
  rw [UInt64.toNat_or, UInt64.toNat_shiftLeft, amount, Nat.shiftLeft_eq, Nat.mod_eq_of_lt fits,
    Nat.mul_comm, Nat.or_comm, ← Nat.two_pow_add_eq_or_of_lt below, Nat.add_comm]

/-! ## Reading what was written -/

theorem encodeVarint_ne_nil (value : UInt64) : encodeVarint value ≠ [] := by
  rw [encodeVarint]
  split <;> simp

theorem length_encodeVarint_le (k : Nat) (value : UInt64) (small : value.toNat < 128 ^ (k + 1)) :
    (encodeVarint value).length ≤ k + 1 := by
  induction k generalizing value with
  | zero =>
    rw [encodeVarint, if_pos]
    · simp
    · apply UInt64.toNat_inj.mp
      rw [toNat_shiftRight_seven]
      simp only [UInt64.toNat_zero]
      omega
  | succ k ih =>
    rw [encodeVarint]
    split
    · simp
    · have rest := ih (value >>> 7) (by
        rw [toNat_shiftRight_seven, Nat.div_lt_iff_lt_mul (by decide), ← Nat.pow_succ]
        exact small)
      rw [List.length_cons]
      omega

theorem length_encodeVarint (value : UInt64) :
    0 < (encodeVarint value).length ∧ (encodeVarint value).length ≤ maxVarintBytes :=
  ⟨List.length_pos_iff.mpr (encodeVarint_ne_nil value),
    length_encodeVarint_le 9 value (lt_trans value.toNat_lt (by decide))⟩

theorem sum_lt {acc value shift : Nat} (room : shift < 64) (below : acc < 2 ^ shift)
    (fits : value * 2 ^ shift < 2 ^ 64) : acc + value * 2 ^ shift < 2 ^ 64 := by
  have split : 2 ^ 64 = 2 ^ (64 - shift) * 2 ^ shift := by
    rw [← Nat.pow_add, Nat.sub_add_cancel (le_of_lt room)]
  rw [split] at fits ⊢
  have small : value + 1 ≤ 2 ^ (64 - shift) := Nat.lt_of_mul_lt_mul_right fits
  calc acc + value * 2 ^ shift
      < 2 ^ shift + value * 2 ^ shift := Nat.add_lt_add_right below _
    _ = (value + 1) * 2 ^ shift := by rw [Nat.succ_mul, Nat.add_comm]
    _ ≤ 2 ^ (64 - shift) * 2 ^ shift := Nat.mul_le_mul_right _ small

/-- The loop adds a written number above the bits it has. -/
theorem decodeVarintLoop_encodeVarint (pos : Nat) (value acc : UInt64) (rest : Bytes)
    (shift bytes : Nat) (room : shift < 64) (below : acc.toNat < 2 ^ shift)
    (fits : value.toNat * 2 ^ shift < 2 ^ 64) :
    decodeVarintLoop pos (encodeVarint value ++ rest) shift acc bytes =
      .ok (UInt64.ofNat (acc.toNat + value.toNat * 2 ^ shift),
        bytes + (encodeVarint value).length) := by
  induction value using encodeVarint.induct generalizing acc shift bytes with
  | case1 value done =>
    have small : value.toNat < 128 := by
      have zero := congrArg UInt64.toNat done
      rw [toNat_shiftRight_seven] at zero
      simp only [UInt64.toNat_zero] at zero
      omega
    have byte : ((value &&& 0x7F).toUInt8).toNat = value.toNat := by
      rw [toNat_low]
      omega
    have payload : ((value &&& 0x7F).toUInt8 &&& 0x7F).toUInt64.toNat = value.toNat := by
      rw [toNat_payload, byte]
      omega
    have last : (value &&& 0x7F).toUInt8 &&& 0x80 = 0 := by
      rw [last_iff, byte]
      exact small
    rw [encodeVarint, if_pos done, List.cons_append, List.nil_append, decodeVarintLoop,
      if_neg (by omega), if_pos last]
    congr 2
    apply UInt64.toNat_inj.mp
    rw [toNat_accumulate below room (by rwa [payload]), payload, UInt64.toNat_ofNat',
      Nat.mod_eq_of_lt (sum_lt room below fits)]
  | case2 value more ih =>
    have large : 128 ≤ value.toNat := by
      by_contra small
      apply more
      apply UInt64.toNat_inj.mp
      rw [toNat_shiftRight_seven]
      simp only [UInt64.toNat_zero]
      omega
    have low : ((value &&& 0x7F).toUInt8).toNat = value.toNat % 128 := toNat_low value
    have byte : ((value &&& 0x7F).toUInt8 ||| 0x80).toNat = value.toNat % 128 + 128 := by
      rw [toNat_continued (by omega), low]
    have payload : (((value &&& 0x7F).toUInt8 ||| 0x80) &&& 0x7F).toUInt64.toNat =
        value.toNat % 128 := by
      rw [toNat_payload, byte]
      omega
    have notLast : ¬ ((value &&& 0x7F).toUInt8 ||| 0x80) &&& 0x80 = 0 := by
      rw [last_iff, byte]
      omega
    have power : 2 ^ (shift + 7) = 128 * 2 ^ shift := by rw [Nat.pow_add, Nat.mul_comm]
    have parts : value.toNat % 128 * 2 ^ shift + value.toNat / 128 * 2 ^ (shift + 7) =
        value.toNat * 2 ^ shift := by
      rw [power, ← Nat.mul_assoc, ← Nat.add_mul]
      congr 1
      omega
    have roomNext : shift + 7 < 64 := by
      apply (Nat.pow_lt_pow_iff_right (by decide : 1 < 2)).mp
      rw [power]
      exact lt_of_le_of_lt (Nat.mul_le_mul_right _ large) fits
    have group : value.toNat % 128 * 2 ^ shift < 2 ^ 64 := by omega
    have acc' := toNat_accumulate below room (by rw [payload]; exact group)
    rw [payload] at acc'
    have belowNext : acc.toNat + value.toNat % 128 * 2 ^ shift < 2 ^ (shift + 7) := by
      have bound : value.toNat % 128 * 2 ^ shift ≤ 127 * 2 ^ shift :=
        Nat.mul_le_mul_right _ (by omega)
      omega
    rw [encodeVarint, if_neg more, List.cons_append, decodeVarintLoop, if_neg (by omega),
      if_neg notLast, ih _ _ _ roomNext (by rwa [acc']) (by rw [toNat_shiftRight_seven]; omega), acc',
      toNat_shiftRight_seven, Nat.add_assoc, parts, List.length_cons]
    congr 2
    omega

/-- A number is read back wherever it stands and whatever follows it. -/
theorem decodeVarint_encodeVarint (before rest : Bytes) (value : UInt64) :
    decodeVarint (before ++ (encodeVarint value ++ rest)) before.length =
      .ok (value, (encodeVarint value).length) := by
  have short := (length_encodeVarint value).2
  rw [decodeVarint, List.drop_left, List.take_append, List.take_of_length_le short,
    decodeVarintLoop_encodeVarint _ _ _ _ _ _ (by decide) (by decide) (by
      rw [Nat.pow_zero, Nat.mul_one]
      exact value.toNat_lt)]
  simp

/-! ## Zigzag -/

theorem neg_and_one (x : BitVec 64) :
    -(x &&& 1#64) = if x.getLsbD 0 then BitVec.allOnes 64 else 0#64 := by
  have bit : x &&& 1#64 = if x.getLsbD 0 then 1#64 else 0#64 := by
    rw [BitVec.and_one_eq_setWidth_ofBool_getLsbD]
    cases x.getLsbD 0
    · rfl
    · rfl
  rw [bit]
  split
  · rfl
  · rfl

/-- The sign in every bit. -/
theorem sshiftRight_sign (v : BitVec 64) :
    v.sshiftRight 63 = if v.msb then BitVec.allOnes 64 else 0#64 := by
  have half := BitVec.msb_eq_decide v
  have bound := v.isLt
  cases sign : v.msb with
  | false =>
    rw [sign, eq_comm, decide_eq_false_iff_not] at half
    rw [BitVec.sshiftRight_eq_of_msb_false sign, if_neg (by decide)]
    apply BitVec.eq_of_toNat_eq
    rw [BitVec.toNat_ushiftRight, Nat.shiftRight_eq_div_pow, BitVec.toNat_ofNat]
    omega
  | true =>
    rw [sign, eq_comm, decide_eq_true_eq] at half
    rw [BitVec.sshiftRight_eq_of_msb_true sign, if_pos rfl]
    apply BitVec.eq_of_toNat_eq
    rw [BitVec.toNat_not, BitVec.toNat_ushiftRight, BitVec.toNat_not, Nat.shiftRight_eq_div_pow,
      BitVec.toNat_allOnes]
    omega

theorem zigzag_bits (v : BitVec 64) :
    ((v <<< 1 ^^^ v.sshiftRight 63) >>> 1) ^^^ -((v <<< 1 ^^^ v.sshiftRight 63) &&& 1#64) = v := by
  have half := BitVec.msb_eq_decide v
  have bound := v.isLt
  rw [neg_and_one, sshiftRight_sign]
  cases sign : v.msb with
  | false =>
    rw [sign, eq_comm, decide_eq_false_iff_not] at half
    have low : (v <<< 1).getLsbD 0 = false := by simp
    simp only [Bool.false_eq_true, if_false, BitVec.xor_zero, low]
    apply BitVec.eq_of_toNat_eq
    rw [BitVec.toNat_ushiftRight, BitVec.toNat_shiftLeft, Nat.shiftRight_eq_div_pow,
      Nat.shiftLeft_eq]
    omega
  | true =>
    rw [sign, eq_comm, decide_eq_true_eq] at half
    have low : (v <<< 1 ^^^ BitVec.allOnes 64).getLsbD 0 = true := by simp
    simp only [if_true, low]
    rw [BitVec.xor_allOnes, BitVec.xor_allOnes]
    apply BitVec.eq_of_toNat_eq
    rw [BitVec.toNat_not, BitVec.toNat_ushiftRight, BitVec.toNat_not, BitVec.toNat_shiftLeft,
      Nat.shiftRight_eq_div_pow, Nat.shiftLeft_eq]
    omega

theorem unzigzag_zigzag (value : Int64) : unzigzag (zigzag value) = value := by
  apply Int64.toBitVec_inj.mp
  have bits := zigzag_bits value.toBitVec
  simpa [unzigzag, zigzag, Int64.toBitVec_shiftRight] using bits

theorem zigzag_injective : Function.Injective zigzag :=
  Function.LeftInverse.injective unzigzag_zigzag

theorem decodeZigzag_encodeZigzag (before rest : Bytes) (value : Int64) :
    decodeZigzag (before ++ (encodeZigzag value ++ rest)) before.length =
      .ok (value, (encodeZigzag value).length) := by
  rw [decodeZigzag, encodeZigzag, decodeVarint_encodeVarint, ok_bind]
  dsimp only
  rw [unzigzag_zigzag]
  rfl

end OneLink.Canon
