/-
# Library.Framing — renderings that can be read off the front of a byte string

A rendering is *prefix free* when its output can be split off the front of any
longer byte string.  Concatenations of prefix-free renderings are then injective
field by field, which is what a canonical encoding and an associated-data layout
are used for.  Three renderings are given:

* a fixed-width big-endian integer (`beBytes`);
* the ASCII-only JSON string literal (`jsonString`): printable ASCII stands for
  itself, the quote and the backslash are escaped, five control characters have
  a two-byte escape, everything else is one or two `\uXXXX` units;
* the decimal integer (`jsonInt`), which is prefix free in front of any byte
  that is not a digit (`jsonInt_append_inj`).
-/
import Mathlib.Data.Nat.Digits.Defs
import Mathlib.Tactic.IntervalCases

namespace OneLink.Library

set_option autoImplicit false

abbrev Bytes := List UInt8

/-- The bytes of an ASCII text. -/
def ascii (s : String) : Bytes :=
  s.toList.map fun c => UInt8.ofNat c.toNat

/-- `n` times the same byte. -/
abbrev filled (n : Nat) (byte : UInt8) : { bytes : Bytes // bytes.length = n } :=
  ⟨List.replicate n byte, List.length_replicate⟩

/-- A rendering whose output can be split off the front of any byte string. -/
def PrefixFree {α : Type} (f : α → Bytes) : Prop :=
  ∀ (a b : α) (s t : Bytes), f a ++ s = f b ++ t → a = b ∧ s = t

/-! ## Fixed-width integers -/

/-- `width` bytes of `n`, most significant first. -/
def beBytes : Nat → Nat → Bytes
  | 0, _ => []
  | width + 1, n => beBytes width (n / 256) ++ [UInt8.ofNat (n % 256)]

@[simp] theorem length_beBytes (width n : Nat) : (beBytes width n).length = width := by
  induction width generalizing n with
  | zero => rfl
  | succ width ih => simp [beBytes, ih]

theorem beBytes_inj {width m n : Nat} (hm : m < 256 ^ width) (hn : n < 256 ^ width)
    (same : beBytes width m = beBytes width n) : m = n := by
  induction width generalizing m n with
  | zero => simp at hm hn; omega
  | succ width ih =>
    rw [pow_succ] at hm hn
    obtain ⟨high, low⟩ := List.append_inj' same rfl
    have highEq : m / 256 = n / 256 :=
      ih (Nat.div_lt_of_lt_mul (by omega)) (Nat.div_lt_of_lt_mul (by omega)) high
    have lowEq : m % 256 = n % 256 := by
      have bytes := congrArg UInt8.toNat (List.cons.inj low).1
      rw [UInt8.toNat_ofNat', UInt8.toNat_ofNat'] at bytes
      omega
    omega

/-! ## JSON string literals -/

def hexDigit (d : Nat) : UInt8 :=
  UInt8.ofNat (if d < 10 then 48 + d else 87 + d)

def unhexDigit (b : UInt8) : Option Nat :=
  if 48 ≤ b.toNat ∧ b.toNat < 58 then some (b.toNat - 48)
  else if 97 ≤ b.toNat ∧ b.toNat < 103 then some (b.toNat - 87)
  else none

theorem unhexDigit_hexDigit {d : Nat} (small : d < 16) : unhexDigit (hexDigit d) = some d := by
  interval_cases d <;> rfl

/-- One `\uXXXX` unit. -/
def unicodeUnit (n : Nat) : Bytes :=
  [92, 117, hexDigit (n / 4096 % 16), hexDigit (n / 256 % 16), hexDigit (n / 16 % 16),
    hexDigit (n % 16)]

/-- The bytes one character of a string stands for in an ASCII-only literal. -/
def escapeChar (c : Char) : Bytes :=
  if c = '"' then [92, 34]
  else if c = '\\' then [92, 92]
  else if c.toNat = 8 then [92, 98]
  else if c.toNat = 12 then [92, 102]
  else if c = '\n' then [92, 110]
  else if c = '\r' then [92, 114]
  else if c = '\t' then [92, 116]
  else if 32 ≤ c.toNat ∧ c.toNat ≤ 126 then [UInt8.ofNat c.toNat]
  else if c.toNat < 65536 then unicodeUnit c.toNat
  else unicodeUnit (55296 + (c.toNat - 65536) / 1024) ++
    unicodeUnit (56320 + (c.toNat - 65536) % 1024)

/-- A JSON string literal, quotes included. -/
def jsonString (s : String) : Bytes :=
  34 :: (s.toList.flatMap escapeChar ++ [34])

def readUnit : Bytes → Option (Nat × Bytes)
  | 92 :: 117 :: a :: b :: c :: d :: rest => do
    let a ← unhexDigit a
    let b ← unhexDigit b
    let c ← unhexDigit c
    let d ← unhexDigit d
    pure (4096 * a + 256 * b + 16 * c + d, rest)
  | _ => none

/-- Read one escaped or plain character. -/
def readChar : Bytes → Option (Char × Bytes)
  | 92 :: 34 :: rest => some ('"', rest)
  | 92 :: 92 :: rest => some ('\\', rest)
  | 92 :: 98 :: rest => some (Char.ofNat 8, rest)
  | 92 :: 102 :: rest => some (Char.ofNat 12, rest)
  | 92 :: 110 :: rest => some ('\n', rest)
  | 92 :: 114 :: rest => some ('\r', rest)
  | 92 :: 116 :: rest => some ('\t', rest)
  | 92 :: rest => do
    let (high, rest) ← readUnit (92 :: rest)
    if 55296 ≤ high ∧ high < 56320 then
      let (low, rest) ← readUnit rest
      pure (Char.ofNat (65536 + (high - 55296) * 1024 + (low - 56320)), rest)
    else
      pure (Char.ofNat high, rest)
  | b :: rest => some (Char.ofNat b.toNat, rest)
  | [] => none

theorem readUnit_unicodeUnit {n : Nat} (small : n < 65536) (rest : Bytes) :
    readUnit (unicodeUnit n ++ rest) = some (n, rest) := by
  simp only [unicodeUnit, List.cons_append, List.nil_append, readUnit,
    unhexDigit_hexDigit (Nat.mod_lt _ (by decide : 0 < 16)), Option.bind_eq_bind,
    Option.bind_some, Option.pure_def, Option.some.injEq, Prod.mk.injEq, and_true]
  omega

/-- After a backslash and a `u` the reader is in its `\uXXXX` branch. -/
theorem readChar_unicodeUnit (n : Nat) (rest : Bytes) :
    readChar (unicodeUnit n ++ rest) =
      (readUnit (unicodeUnit n ++ rest)).bind fun unit =>
        if 55296 ≤ unit.1 ∧ unit.1 < 56320 then
          (readUnit unit.2).bind fun low =>
            some (Char.ofNat (65536 + (unit.1 - 55296) * 1024 + (low.1 - 56320)), low.2)
        else some (Char.ofNat unit.1, unit.2) := rfl

/-- A character is never a surrogate. -/
theorem char_not_surrogate (c : Char) : c.toNat < 55296 ∨ 57343 < c.toNat := by
  rcases c.valid with low | ⟨high, -⟩
  · exact Or.inl low
  · exact Or.inr high

theorem readChar_plain {b : UInt8} (ne : b ≠ 92) (rest : Bytes) :
    readChar (b :: rest) = some (Char.ofNat b.toNat, rest) := by
  unfold readChar
  split <;> simp_all

theorem char_lt (c : Char) : c.toNat < 1114112 := by
  rcases c.valid with low | ⟨-, high⟩
  · exact Nat.lt_of_lt_of_le low (by norm_num)
  · exact high

theorem readChar_printable {c : Char} (ne : c ≠ '\\') (printable : c.toNat ≤ 126)
    (rest : Bytes) : readChar (UInt8.ofNat c.toNat :: rest) = some (c, rest) := by
  have byte : (UInt8.ofNat c.toNat).toNat = c.toNat := by
    rw [UInt8.toNat_ofNat']
    exact Nat.mod_eq_of_lt (by omega)
  have notBackslash : UInt8.ofNat c.toNat ≠ 92 := by
    intro h
    have eq : c.toNat = 92 := by rw [← byte, h]; rfl
    apply ne
    rw [← Char.ofNat_toNat c, eq]
  rw [readChar_plain notBackslash, byte, Char.ofNat_toNat]

theorem readChar_bmp {c : Char} (small : c.toNat < 65536) (rest : Bytes) :
    readChar (unicodeUnit c.toNat ++ rest) = some (c, rest) := by
  have notHigh : ¬ (55296 ≤ c.toNat ∧ c.toNat < 56320) := by
    have := char_not_surrogate c
    omega
  rw [readChar_unicodeUnit, readUnit_unicodeUnit small]
  simp only [Option.bind_some, if_neg notHigh, Char.ofNat_toNat]

/-- A surrogate pair is read as one character. -/
theorem readChar_pair {high low : Nat} (isHigh : 55296 ≤ high ∧ high < 56320)
    (isLow : low < 65536) (rest : Bytes) :
    readChar (unicodeUnit high ++ (unicodeUnit low ++ rest)) =
      some (Char.ofNat (65536 + (high - 55296) * 1024 + (low - 56320)), rest) := by
  rw [readChar_unicodeUnit, readUnit_unicodeUnit (by omega)]
  simp only [Option.bind_some, if_pos isHigh, readUnit_unicodeUnit isLow]

/-- A character beyond the basic plane is read back from its surrogate pair. -/
theorem readChar_astral {c : Char} (large : 65536 ≤ c.toNat) (rest : Bytes) :
    readChar (unicodeUnit (55296 + (c.toNat - 65536) / 1024) ++
      (unicodeUnit (56320 + (c.toNat - 65536) % 1024) ++ rest)) = some (c, rest) := by
  have bound := char_lt c
  rw [readChar_pair (by omega) (by omega)]
  have back : 65536 + (55296 + (c.toNat - 65536) / 1024 - 55296) * 1024 +
      (56320 + (c.toNat - 65536) % 1024 - 56320) = c.toNat := by omega
  rw [back, Char.ofNat_toNat]

theorem readChar_escapeChar (c : Char) (rest : Bytes) :
    readChar (escapeChar c ++ rest) = some (c, rest) := by
  unfold escapeChar
  split_ifs with h1 h2 h3 h4 h5 h6 h7 h8 h9
  · rw [h1]; rfl
  · rw [h2]; rfl
  · rw [← Char.ofNat_toNat c, h3]; rfl
  · rw [← Char.ofNat_toNat c, h4]; rfl
  · rw [h5]; rfl
  · rw [h6]; rfl
  · rw [h7]; rfl
  · exact readChar_printable h2 h8.2 rest
  · exact readChar_bmp h9 rest
  · rw [List.append_assoc]
    exact readChar_astral (by omega) rest

/-- No escape begins with a bare quote, so a literal's closing quote is its first. -/
theorem escapeChar_head (c : Char) : ∃ b rest, escapeChar c = b :: rest ∧ b ≠ 34 := by
  unfold escapeChar
  split_ifs with h1 h2 h3 h4 h5 h6 h7 h8 h9
  all_goals try exact ⟨92, _, rfl, by decide⟩
  refine ⟨_, _, rfl, fun h => h1 ?_⟩
  have byte : (UInt8.ofNat c.toNat).toNat = c.toNat := by
    rw [UInt8.toNat_ofNat']
    exact Nat.mod_eq_of_lt (by omega)
  have eq : c.toNat = 34 := by rw [← byte, h]; rfl
  rw [← Char.ofNat_toNat c, eq]

theorem escaped_append_inj (s t : List Char) (x y : Bytes)
    (same : s.flatMap escapeChar ++ 34 :: x = t.flatMap escapeChar ++ 34 :: y) :
    s = t ∧ x = y := by
  induction s generalizing t with
  | nil =>
    cases t with
    | nil => simpa using same
    | cons d ds =>
      obtain ⟨b, rest, shape, ne⟩ := escapeChar_head d
      simp [shape, ne.symm] at same
  | cons c cs ih =>
    cases t with
    | nil =>
      obtain ⟨b, rest, shape, ne⟩ := escapeChar_head c
      simp [shape, ne] at same
    | cons d ds =>
      simp only [List.flatMap_cons, List.append_assoc] at same
      have front := readChar_escapeChar c (cs.flatMap escapeChar ++ 34 :: x)
      rw [same, readChar_escapeChar] at front
      simp only [Option.some.injEq, Prod.mk.injEq] at front
      obtain ⟨head, tail⟩ := ih ds front.2.symm
      exact ⟨by rw [front.1, head], tail⟩

theorem jsonString_prefixFree : PrefixFree jsonString := by
  intro a b s t same
  simp only [jsonString, List.cons_append, List.append_assoc, List.nil_append,
    List.cons.injEq, true_and] at same
  obtain ⟨chars, rest⟩ := escaped_append_inj _ _ _ _ same
  exact ⟨String.toList_inj.mp chars, rest⟩

/-! ## Decimal integers -/

def isDigit (b : UInt8) : Bool := 48 ≤ b.toNat && b.toNat < 58

/-- The decimal digits of a natural number, most significant first. -/
def jsonNat (n : Nat) : Bytes :=
  if n = 0 then [48] else ((Nat.digits 10 n).map fun d => UInt8.ofNat (48 + d)).reverse

def jsonInt : Int → Bytes
  | .ofNat n => jsonNat n
  | .negSucc n => 45 :: jsonNat (n + 1)

theorem jsonNat_digits (n : Nat) : ∀ b ∈ jsonNat n, isDigit b = true := by
  intro b member
  unfold jsonNat at member
  split at member
  · simp only [List.mem_singleton] at member
    subst member
    decide
  · simp only [List.mem_reverse, List.mem_map] at member
    obtain ⟨d, inDigits, rfl⟩ := member
    have small : d < 10 := Nat.digits_lt_base (by decide) inDigits
    interval_cases d <;> decide

theorem digitByte_inj {d e : Nat} (hd : d < 10) (he : e < 10)
    (same : UInt8.ofNat (48 + d) = UInt8.ofNat (48 + e)) : d = e := by
  have bytes := congrArg UInt8.toNat same
  rw [UInt8.toNat_ofNat', UInt8.toNat_ofNat'] at bytes
  omega

theorem map_digitByte_inj : ∀ (xs ys : List Nat), (∀ d ∈ xs, d < 10) → (∀ d ∈ ys, d < 10) →
    xs.map (fun d => UInt8.ofNat (48 + d)) = ys.map (fun d => UInt8.ofNat (48 + d)) → xs = ys
  | [], [], _, _, _ => rfl
  | [], _ :: _, _, _, same => by simp at same
  | _ :: _, [], _, _, same => by simp at same
  | x :: xs, y :: ys, hx, hy, same => by
    simp only [List.map_cons, List.cons.injEq] at same
    rw [digitByte_inj (hx x (by simp)) (hy y (by simp)) same.1,
      map_digitByte_inj xs ys (fun d h => hx d (by simp [h])) (fun d h => hy d (by simp [h]))
        same.2]

theorem jsonNat_zero_ne {n : Nat} (pos : n ≠ 0) : jsonNat n ≠ [48] := by
  intro same
  rw [jsonNat, if_neg pos, List.reverse_eq_iff, List.reverse_singleton] at same
  have digits : Nat.digits 10 n = [0] :=
    map_digitByte_inj _ [0] (fun d h => Nat.digits_lt_base (by decide) h) (by simp) same
  exact pos (by rw [← Nat.ofDigits_digits 10 n, digits]; rfl)

theorem jsonNat_injective : Function.Injective jsonNat := by
  intro m n same
  by_cases hm : m = 0
  · by_cases hn : n = 0
    · rw [hm, hn]
    · exact absurd (by rw [← same, hm]; rfl) (jsonNat_zero_ne hn)
  · by_cases hn : n = 0
    · exact absurd (by rw [same, hn]; rfl) (jsonNat_zero_ne hm)
    · simp only [jsonNat, if_neg hm, if_neg hn, List.reverse_inj] at same
      have digits := map_digitByte_inj _ _ (fun d h => Nat.digits_lt_base (by decide) h)
        (fun d h => Nat.digits_lt_base (by decide) h) same
      exact Nat.digits_inj_iff.mp digits

theorem jsonNat_cons (n : Nat) : ∃ b rest, jsonNat n = b :: rest ∧ isDigit b = true := by
  cases shape : jsonNat n with
  | nil =>
    unfold jsonNat at shape
    split at shape
    · simp at shape
    · rename_i pos
      simp only [List.reverse_eq_nil_iff, List.map_eq_nil_iff,
        Nat.digits_eq_nil_iff_eq_zero] at shape
      exact absurd shape pos
  | cons b rest => exact ⟨b, rest, rfl, jsonNat_digits n b (by simp [shape])⟩

/-- A run of digits in front of a byte that is not one can be split off. -/
theorem digits_append_inj {xs ys s t : Bytes} {a b : UInt8}
    (hx : ∀ d ∈ xs, isDigit d = true) (hy : ∀ d ∈ ys, isDigit d = true)
    (ha : isDigit a = false) (hb : isDigit b = false)
    (same : xs ++ a :: s = ys ++ b :: t) : xs = ys ∧ a :: s = b :: t := by
  induction xs generalizing ys with
  | nil =>
    cases ys with
    | nil => exact ⟨rfl, same⟩
    | cons y ys =>
      simp only [List.nil_append, List.cons_append, List.cons.injEq] at same
      rw [same.1, hy y (by simp)] at ha
      simp at ha
  | cons x xs ih =>
    cases ys with
    | nil =>
      simp only [List.nil_append, List.cons_append, List.cons.injEq] at same
      rw [← same.1, hx x (by simp)] at hb
      simp at hb
    | cons y ys =>
      simp only [List.cons_append, List.cons.injEq] at same
      obtain ⟨tails, rest⟩ := ih (fun d h => hx d (by simp [h])) (fun d h => hy d (by simp [h]))
        same.2
      exact ⟨by rw [same.1, tails], rest⟩

/-- An integer literal is determined in front of any byte that is not a digit. -/
theorem jsonInt_append_inj {m n : Int} {s t : Bytes} {a b : UInt8}
    (ha : isDigit a = false) (hb : isDigit b = false)
    (same : jsonInt m ++ a :: s = jsonInt n ++ b :: t) : m = n ∧ a :: s = b :: t := by
  have minus : isDigit 45 = false := by decide
  cases m with
  | ofNat m =>
    cases n with
    | ofNat n =>
      obtain ⟨eq, rest⟩ := digits_append_inj (jsonNat_digits m) (jsonNat_digits n) ha hb same
      exact ⟨by rw [jsonNat_injective eq], rest⟩
    | negSucc n =>
      obtain ⟨d, rest, shape, digit⟩ := jsonNat_cons m
      simp only [jsonInt, shape, List.cons_append, List.cons.injEq] at same
      simp [← same.1, digit] at minus
  | negSucc m =>
    cases n with
    | ofNat n =>
      obtain ⟨d, rest, shape, digit⟩ := jsonNat_cons n
      simp only [jsonInt, shape, List.cons_append, List.cons.injEq] at same
      simp [same.1, digit] at minus
    | negSucc n =>
      simp only [jsonInt, List.cons_append, List.cons.injEq, true_and] at same
      obtain ⟨eq, rest⟩ :=
        digits_append_inj (jsonNat_digits _) (jsonNat_digits _) ha hb same
      have := jsonNat_injective eq
      exact ⟨by congr 1; omega, rest⟩

end OneLink.Library
