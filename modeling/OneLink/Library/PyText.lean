/-
# Library.PyText — `str.strip` and `bytes.hex`

Python strips the characters that Unicode calls white space, with the four
information separators.  The hexadecimal text of a byte string determines it
(`hexText_inj`).
-/
import OneLink.Library.Framing

namespace OneLink.Library

set_option autoImplicit false

/-- `ch.isspace()` -/
def isSpace (ch : Char) : Bool :=
  let code := ch.toNat
  (0x09 ≤ code && code ≤ 0x0d) || (0x1c ≤ code && code ≤ 0x20) || code == 0x85 || code == 0xa0 ||
    code == 0x1680 || (0x2000 ≤ code && code ≤ 0x200a) || code == 0x2028 || code == 0x2029 ||
    code == 0x202f || code == 0x205f || code == 0x3000

/-- `text.strip()` -/
def strip (text : String) : String :=
  String.ofList ((text.toList.dropWhile isSpace).reverse.dropWhile isSpace).reverse

/-! ## Hexadecimal text -/

/-- The lower-case digit of a number below sixteen. -/
def hexChar (n : Nat) : Char := Char.ofNat (if n < 10 then 48 + n else 87 + n)

/-- `data.hex()` -/
def hexText (data : Bytes) : String :=
  String.ofList (data.flatMap fun byte => [hexChar (byte.toNat / 16), hexChar (byte.toNat % 16)])

theorem hexChar_inj {m n : Nat} (hm : m < 16) (hn : n < 16) (same : hexChar m = hexChar n) :
    m = n := by
  have all : ∀ i : Fin 16, ∀ j : Fin 16, hexChar i = hexChar j → i = j := by decide
  exact congrArg Fin.val (all ⟨m, hm⟩ ⟨n, hn⟩ same)

theorem hexText_inj {a b : Bytes} (same : hexText a = hexText b) : a = b := by
  have digits := congrArg String.toList same
  simp only [hexText, String.toList_ofList] at digits
  clear same
  induction a generalizing b with
  | nil =>
    cases b with
    | nil => rfl
    | cons byte b => simp at digits
  | cons byte a ih =>
    cases b with
    | nil => simp at digits
    | cons byte' b =>
      simp only [List.flatMap_cons, List.cons_append, List.nil_append, List.cons.injEq] at digits
      obtain ⟨high, low, rest⟩ := digits
      have bound := byte.toNat_lt
      have bound' := byte'.toNat_lt
      have high' := hexChar_inj (by omega) (by omega) high
      have low' := hexChar_inj (by omega) (by omega) low
      have value : byte.toNat = byte'.toNat := by omega
      rw [UInt8.toNat_inj.1 value, ih rest]

end OneLink.Library
