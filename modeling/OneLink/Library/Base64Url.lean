/-
# Library.Base64Url — unpadded base64url, and its strict decoder

`encode` writes three octets as four characters of the URL-safe alphabet and
drops the padding; `decode` reads groups of four characters back, with a last
group of two or three.  A decoder that keeps only canonical texts compares the
re-encoding of what it read with the text (`decodeStrict`): then decoding and
encoding are inverse to one another (`decodeStrict_encode`, `encode_of_decodeStrict`).
-/
import OneLink.Library.Framing

namespace OneLink.Library.Base64Url

set_option autoImplicit false

/-- The URL-safe alphabet. -/
def alphabet (n : Nat) : Char :=
  if n < 26 then Char.ofNat (65 + n)
  else if n < 52 then Char.ofNat (97 + (n - 26))
  else if n < 62 then Char.ofNat (48 + (n - 52))
  else if n = 62 then '-'
  else '_'

def index? (c : Char) : Option Nat :=
  let n := c.toNat
  if 65 ≤ n ∧ n ≤ 90 then some (n - 65)
  else if 97 ≤ n ∧ n ≤ 122 then some (n - 97 + 26)
  else if 48 ≤ n ∧ n ≤ 57 then some (n - 48 + 52)
  else if c = '-' then some 62
  else if c = '_' then some 63
  else none

theorem index?_alphabet {n : Nat} (small : n < 64) : index? (alphabet n) = some n := by
  interval_cases n <;> rfl

def encodeChars : Bytes → List Char
  | [] => []
  | [a] => [alphabet (a.toNat / 4), alphabet (a.toNat % 4 * 16)]
  | [a, b] =>
    [alphabet (a.toNat / 4), alphabet (a.toNat % 4 * 16 + b.toNat / 16),
      alphabet (b.toNat % 16 * 4)]
  | a :: b :: c :: rest =>
    alphabet (a.toNat / 4) :: alphabet (a.toNat % 4 * 16 + b.toNat / 16) ::
      alphabet (b.toNat % 16 * 4 + c.toNat / 64) :: alphabet (c.toNat % 64) ::
      encodeChars rest

def encode (data : Bytes) : String :=
  String.ofList (encodeChars data)

/-- Read groups of four characters; surplus low bits of a short last group are
dropped, as a lenient decoder does. -/
def decodeChars : List Char → Option Bytes
  | [] => some []
  | [_] => none
  | [w, x] => do
    let w ← index? w
    let x ← index? x
    pure [UInt8.ofNat (w * 4 + x / 16)]
  | [w, x, y] => do
    let w ← index? w
    let x ← index? x
    let y ← index? y
    pure [UInt8.ofNat (w * 4 + x / 16), UInt8.ofNat (x % 16 * 16 + y / 4)]
  | w :: x :: y :: z :: rest => do
    let w ← index? w
    let x ← index? x
    let y ← index? y
    let z ← index? z
    let rest ← decodeChars rest
    pure (UInt8.ofNat (w * 4 + x / 16) :: UInt8.ofNat (x % 16 * 16 + y / 4) ::
      UInt8.ofNat (y % 4 * 64 + z) :: rest)

theorem ofNat_eq_of_toNat {a : UInt8} {n : Nat} (same : n = a.toNat) : UInt8.ofNat n = a := by
  subst same
  exact UInt8.ofNat_toNat

theorem decodeChars_encodeChars (data : Bytes) : decodeChars (encodeChars data) = some data := by
  fun_induction encodeChars data with
  | case1 => rfl
  | case2 a =>
    have ha := a.toNat_lt
    rw [decodeChars, index?_alphabet (by omega), index?_alphabet (by omega)]
    simp only [Option.bind_eq_bind, Option.bind_some, Option.pure_def]
    rw [ofNat_eq_of_toNat (a := a) (by omega)]
  | case3 a b =>
    have ha := a.toNat_lt
    have hb := b.toNat_lt
    rw [decodeChars, index?_alphabet (by omega), index?_alphabet (by omega),
      index?_alphabet (by omega)]
    simp only [Option.bind_eq_bind, Option.bind_some, Option.pure_def]
    rw [ofNat_eq_of_toNat (a := a) (by omega), ofNat_eq_of_toNat (a := b) (by omega)]
  | case4 a b c rest ih =>
    have ha := a.toNat_lt
    have hb := b.toNat_lt
    have hc := c.toNat_lt
    rw [decodeChars, index?_alphabet (by omega), index?_alphabet (by omega),
      index?_alphabet (by omega), index?_alphabet (by omega), ih]
    simp only [Option.bind_eq_bind, Option.bind_some, Option.pure_def]
    rw [ofNat_eq_of_toNat (a := a) (by omega), ofNat_eq_of_toNat (a := b) (by omega),
      ofNat_eq_of_toNat (a := c) (by omega)]

/-- The canonical decoder: what it reads must re-encode to the text itself. -/
def decodeStrict (text : String) : Option Bytes :=
  (decodeChars text.toList).filter fun data => encode data = text

@[simp] theorem decodeStrict_encode (data : Bytes) : decodeStrict (encode data) = some data := by
  simp [decodeStrict, encode, decodeChars_encodeChars]

theorem encode_of_decodeStrict {text : String} {data : Bytes}
    (read : decodeStrict text = some data) : encode data = text := by
  unfold decodeStrict at read
  rw [Option.filter_eq_some_iff] at read
  simpa using read.2

theorem encode_injective : Function.Injective encode := by
  intro a b same
  have both := decodeStrict_encode a
  rw [same, decodeStrict_encode] at both
  exact (Option.some.inj both).symm

theorem length_encodeChars (data : Bytes) :
    (encodeChars data).length = (data.length * 4 + 2) / 3 := by
  fun_induction encodeChars data with
  | case1 => rfl
  | case2 a => simp
  | case3 a b => simp
  | case4 a b c rest ih => simp only [List.length_cons, ih]; omega

theorem length_encode (data : Bytes) : (encode data).length = (data.length * 4 + 2) / 3 := by
  rw [encode, String.length_ofList, length_encodeChars]

end OneLink.Library.Base64Url
