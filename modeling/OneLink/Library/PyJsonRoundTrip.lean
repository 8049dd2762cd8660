/-
# Library.PyJsonRoundTrip -- Python's JSON texts read back, and how long they are

`Good` values have distinct keys and no high surrogate directly before a low one in a
string (the scanner would join the two).  A good value survives the round trip
(`loads_dumps`), and the scanner returns nothing else (`loads_good`).

`jsonBytes` counts them on the value; `length_dumps` says that `dumps` writes as many.
-/
import OneLink.Library.Framing
import OneLink.Library.PyJson

namespace OneLink.Library.PyJson

set_option autoImplicit false

/-! ## Strings -/

/-- Code points, with no surrogate pair left apart. -/
structure WellFormed (s : PyStr) : Prop where
  points : ∀ n ∈ s, n < 0x110000
  joined : s.IsChain fun a b => ¬ (isHigh a = true ∧ isLow b = true)

/-- The text begins with an escaped low surrogate. -/
def startsLow : Text → Bool
  | '\\' :: 'u' :: more =>
    match scanHex more with
    | some (m, _) => isLow m
    | none => false
  | _ => false

theorem hexValue_hexChar {d : Nat} (small : d < 16) : hexValue (hexChar d) = some d := by
  have all : ∀ d < 16, hexValue (hexChar d) = some d := by decide
  exact all d small

theorem scanHex_digits {n : Nat} (small : n < 0x10000) (rest : Text) :
    scanHex (hexChar (n / 4096 % 16) :: hexChar (n / 256 % 16) :: hexChar (n / 16 % 16) ::
      hexChar (n % 16) :: rest) = some (n, rest) := by
  have value : ((n / 4096 % 16 * 16 + n / 256 % 16) * 16 + n / 16 % 16) * 16 + n % 16 = n := by
    omega
  simp only [scanHex, hexValue_hexChar (Nat.mod_lt _ (by decide : 0 < 16)), Option.bind_eq_bind,
    Option.bind_some, value]
  rfl

theorem scanUnicode_alone {text rest : Text} {n : Nat} (hex : scanHex text = some (n, rest))
    (apart : isHigh n = true → startsLow rest = false) : scanUnicode text = some (n, rest) := by
  simp only [scanUnicode, hex, Option.bind_eq_bind, Option.bind_some]
  split
  · next high =>
      have notLow := apart high
      split
      · next more =>
          simp only [startsLow] at notLow
          split
          · next m after found =>
              rw [found] at notLow
              simp only [notLow, Bool.false_eq_true, if_false]
              rfl
          · rfl
      · rfl
  · rfl

theorem scanUnicode_pair {text more rest : Text} {n m : Nat}
    (hex : scanHex text = some (n, '\\' :: 'u' :: more)) (hexLow : scanHex more = some (m, rest))
    (high : isHigh n = true) (low : isLow m = true) :
    scanUnicode text = some (0x10000 + (n - 0xd800) * 1024 + (m - 0xdc00), rest) := by
  simp only [scanUnicode, hex, hexLow, high, low, Option.bind_eq_bind, Option.bind_some, if_true]
  rfl

theorem scanPoint_unicode (text : Text) :
    scanPoint ('\\' :: 'u' :: text) = scanUnicode text := by
  simp [scanPoint]

theorem toNat_ofNat {n : Nat} (small : n < 0xd800) : (Char.ofNat n).toNat = n := by
  rw [Char.ofNat, dif_pos (.inl small)]
  rfl

theorem scanPoint_printable {n : Nat} (printable : 32 ≤ n ∧ n ≤ 126) (notSlash : n ≠ 92)
    (rest : Text) : scanPoint (Char.ofNat n :: rest) = some (n, rest) := by
  have value : (Char.ofNat n).toNat = n := toNat_ofNat (by omega)
  have other : Char.ofNat n ≠ '\\' := by
    intro same
    have code := congrArg Char.toNat same
    rw [value] at code
    exact notSlash code
  rw [scanPoint.eq_def]
  split <;> simp_all

/-- The forms of an escaped code point: a short escape, the character itself, one `\\u`
escape, or two. -/
theorem escapePoint_cases (n : Nat) :
    (∃ c, escapePoint n = ['\\', c] ∧ c ≠ 'u' ∧
      ∀ rest, scanPoint ('\\' :: c :: rest) = some (n, rest)) ∨
    ((32 ≤ n ∧ n ≤ 126) ∧ n ≠ 34 ∧ n ≠ 92 ∧ escapePoint n = [Char.ofNat n]) ∨
    (n < 0x10000 ∧ escapePoint n = escapeHex n) ∨
    (0x10000 ≤ n ∧ escapePoint n = escapeHex (0xd800 + (n - 0x10000) / 1024 % 1024) ++
      escapeHex (0xdc00 + (n - 0x10000) % 1024)) := by
  have short (c : Char) (m : Nat) (same : n = m) (written : escapePoint m = ['\\', c])
      (other : c ≠ 'u') (read : ∀ rest, scanPoint ('\\' :: c :: rest) = some (m, rest)) :
      ∃ c, escapePoint n = ['\\', c] ∧ c ≠ 'u' ∧
        ∀ rest, scanPoint ('\\' :: c :: rest) = some (n, rest) := by
    subst same
    exact ⟨c, written, other, read⟩
  by_cases quote : n = 34
  · exact .inl (short '"' 34 quote rfl (by decide) fun _ => rfl)
  by_cases slash : n = 92
  · exact .inl (short '\\' 92 slash rfl (by decide) fun _ => rfl)
  by_cases newline : n = 10
  · exact .inl (short 'n' 10 newline rfl (by decide) fun _ => rfl)
  by_cases carriage : n = 13
  · exact .inl (short 'r' 13 carriage rfl (by decide) fun _ => rfl)
  by_cases tab : n = 9
  · exact .inl (short 't' 9 tab rfl (by decide) fun _ => rfl)
  by_cases feed : n = 12
  · exact .inl (short 'f' 12 feed rfl (by decide) fun _ => rfl)
  by_cases back : n = 8
  · exact .inl (short 'b' 8 back rfl (by decide) fun _ => rfl)
  have plain : escapePoint n =
      if 32 ≤ n ∧ n ≤ 126 then [Char.ofNat n]
      else if n < 0x10000 then escapeHex n
      else escapeHex (0xd800 + (n - 0x10000) / 1024 % 1024) ++
        escapeHex (0xdc00 + (n - 0x10000) % 1024) := by
    simp only [escapePoint, quote, slash, newline, carriage, tab, feed, back, if_false]
  rw [plain]
  split
  · next printable => exact .inr (.inl ⟨printable, quote, slash, rfl⟩)
  split
  · next small => exact .inr (.inr (.inl ⟨small, rfl⟩))
  · next large => exact .inr (.inr (.inr ⟨by omega, rfl⟩))

theorem scanPoint_escapePoint {n : Nat} (point : n < 0x110000) {rest : Text}
    (apart : isHigh n = true → startsLow rest = false) :
    scanPoint (escapePoint n ++ rest) = some (n, rest) := by
  obtain ⟨c, written, -, read⟩ | ⟨printable, -, notSlash, written⟩ | ⟨small, written⟩ |
    ⟨large, written⟩ := escapePoint_cases n
  all_goals rw [written]
  · exact read rest
  · exact scanPoint_printable printable notSlash rest
  · exact (scanPoint_unicode _).trans (scanUnicode_alone (scanHex_digits small rest) apart)
  · -- The two halves of an astral code point join again.
    have high : 0xd800 + (n - 0x10000) / 1024 % 1024 < 0x10000 := by omega
    have low : 0xdc00 + (n - 0x10000) % 1024 < 0x10000 := by omega
    have joined := scanUnicode_pair (scanHex_digits high _) (scanHex_digits low rest)
      (by simp only [isHigh, Bool.and_eq_true, decide_eq_true_eq]; omega)
      (by simp only [isLow, Bool.and_eq_true, decide_eq_true_eq]; omega)
    have value : 0x10000 + (0xd800 + (n - 0x10000) / 1024 % 1024 - 0xd800) * 1024 +
        (0xdc00 + (n - 0x10000) % 1024 - 0xdc00) = n := by omega
    rw [value] at joined
    simp only [escapeHex, List.cons_append, List.nil_append]
    rw [scanPoint_unicode]
    exact joined

/-- Every escape begins with a character other than the quote. -/
theorem escapePoint_cons (n : Nat) : ∃ c rest, escapePoint n = c :: rest ∧ c ≠ '"' := by
  obtain ⟨c, written, -, -⟩ | ⟨printable, notQuote, -, written⟩ | ⟨-, written⟩ |
    ⟨-, written⟩ := escapePoint_cases n
  · exact ⟨_, _, written, by decide⟩
  · refine ⟨_, _, written, fun same => notQuote ?_⟩
    have code := congrArg Char.toNat same
    rwa [toNat_ofNat (by omega)] at code
  · exact ⟨_, _, written, by decide⟩
  · exact ⟨_, _, written, by decide⟩

theorem startsLow_hex {n : Nat} (small : n < 0x10000) (rest : Text) :
    startsLow (escapeHex n ++ rest) = isLow n := by
  simp only [escapeHex, List.cons_append, List.nil_append, startsLow, scanHex_digits small]

/-- Only a low surrogate itself is written as an escaped low surrogate. -/
theorem startsLow_escapePoint {n : Nat} (notLow : isLow n = false) (rest : Text) :
    startsLow (escapePoint n ++ rest) = false := by
  have plain (c : Char) (text : Text) (other : c ≠ '\\' ∨ text.head? ≠ some 'u') :
      startsLow (c :: text) = false := by
    rw [startsLow.eq_def]
    split
    · next found =>
        obtain ⟨rfl, rfl⟩ := List.cons.inj found
        simp at other
    · rfl
  obtain ⟨c, written, notU, -⟩ | ⟨printable, -, notSlash, written⟩ | ⟨small, written⟩ |
    ⟨large, written⟩ := escapePoint_cases n
  all_goals rw [written]
  · exact plain _ _ (.inr (by simpa using notU))
  · refine plain _ _ (.inl fun same => notSlash ?_)
    have code := congrArg Char.toNat same
    rwa [toNat_ofNat (by omega)] at code
  · rw [startsLow_hex small, notLow]
  · rw [List.append_assoc, startsLow_hex (by omega)]
    simp only [isLow, Bool.and_eq_false_iff, decide_eq_false_iff_not]
    left
    omega

theorem scanString_quote (fuel : Nat) (rest : Text) :
    scanString (fuel + 1) ('"' :: rest) = some ([], rest) := by
  simp [scanString]

theorem scanString_point {fuel n : Nat} {text rest after : Text} {s : PyStr}
    (head : text.head? ≠ some '"') (point : scanPoint text = some (n, rest))
    (string : scanString fuel rest = some (s, after)) :
    scanString (fuel + 1) text = some (n :: s, after) := by
  rw [scanString.eq_def]
  split
  · next impossible => cases impossible
  · next found => exact absurd rfl head
  · next same _ =>
      cases same
      simp only [point, string, Option.bind_eq_bind, Option.bind_some]
      rfl

/-- A string literal reads back. -/
theorem scanString_dumps {s : PyStr} (good : WellFormed s) (rest : Text) {fuel : Nat}
    (enough : s.length < fuel) :
    scanString fuel (s.flatMap escapePoint ++ '"' :: rest) = some (s, rest) := by
  induction s generalizing fuel with
  | nil =>
    obtain ⟨fuel, rfl⟩ : ∃ f, fuel = f + 1 := ⟨fuel - 1, by simp at enough; omega⟩
    exact scanString_quote fuel rest
  | cons n s ih =>
    obtain ⟨fuel, rfl⟩ : ∃ f, fuel = f + 1 := ⟨fuel - 1, by omega⟩
    have tail : WellFormed s :=
      ⟨fun m mem => good.points m (List.mem_cons_of_mem _ mem), good.joined.of_cons⟩
    have apart : isHigh n = true →
        startsLow (s.flatMap escapePoint ++ '"' :: rest) = false := by
      intro high
      cases s with
      | nil => rfl
      | cons m s =>
        rw [List.flatMap_cons, List.append_assoc]
        apply startsLow_escapePoint
        have joined := List.isChain_cons_cons.mp good.joined
        exact Bool.eq_false_of_not_eq_true fun low => joined.1 ⟨high, low⟩
    obtain ⟨c, more, written, notQuote⟩ := escapePoint_cons n
    rw [List.flatMap_cons, List.append_assoc]
    apply scanString_point
    · rw [written]
      simpa using notQuote
    · exact scanPoint_escapePoint (good.points n (by simp)) apart
    · exact ih tail (by simp at enough; omega)

/-! ## Numbers -/

/-- Nothing follows, or what follows a value inside a list or a dictionary. -/
def Delimited (rest : Text) : Prop :=
  rest = [] ∨ ∃ c more, rest = c :: more ∧ (c = ',' ∨ c = ']' ∨ c = '}')

theorem takeWhile_digits {digits rest : Text} (all : ∀ c ∈ digits, c.isDigit = true)
    (stop : Delimited rest) :
    (digits ++ rest).takeWhile Char.isDigit = digits ∧
      (digits ++ rest).dropWhile Char.isDigit = rest := by
  have ends : rest.takeWhile Char.isDigit = [] ∧ rest.dropWhile Char.isDigit = rest := by
    obtain rfl | ⟨c, more, rfl, rfl | rfl | rfl⟩ := stop
    · exact ⟨rfl, rfl⟩
    · exact ⟨rfl, rfl⟩
    · exact ⟨rfl, rfl⟩
    · exact ⟨rfl, rfl⟩
  rw [List.takeWhile_append_of_pos all, List.dropWhile_append_of_pos all, ends.1, ends.2,
    List.append_nil]
  exact ⟨rfl, rfl⟩

theorem digits_cons (n : Nat) :
    ∃ c more, Nat.toDigits 10 n = c :: more ∧ ∀ d ∈ Nat.toDigits 10 n, d.isDigit = true := by
  obtain ⟨c, more, written⟩ := List.exists_cons_of_ne_nil (Nat.toDigits_ne_nil (n := n) (b := 10))
  exact ⟨c, more, written, fun d mem => Nat.isDigit_of_mem_toDigits (by decide) (by decide) mem⟩

/-- No digits but those of zero begin with a zero. -/
theorem head_toDigits {n : Nat} (positive : n ≠ 0) (rest : Text) :
    Nat.toDigits 10 n ≠ '0' :: rest := by
  induction n using Nat.strongRecOn generalizing rest with
  | ind n ih =>
    by_cases small : n < 10
    · rw [Nat.toDigits_of_lt_base small]
      intro same
      exact positive (Nat.digitChar_eq_zero.mp (List.cons.inj same).1)
    · rw [Nat.toDigits_of_base_le (by decide) (by omega)]
      obtain ⟨c, more, written, -⟩ := digits_cons (n / 10)
      rw [written, List.cons_append]
      intro same
      refine ih (n / 10) (by omega) (by omega) more ?_
      rw [written, (List.cons.inj same).1]

theorem scanInteger_toDigits (n : Nat) {rest : Text} (stop : Delimited rest) :
    scanInteger (Nat.toDigits 10 n ++ rest) = some (Nat.toDigits 10 n, rest) := by
  by_cases zero : n = 0
  · subst zero
    rw [Nat.toDigits_zero]
    rfl
  · obtain ⟨c, more, written, all⟩ := digits_cons n
    obtain ⟨taken, dropped⟩ := takeWhile_digits all stop
    rw [scanInteger.eq_def]
    split
    · next same =>
        rw [written, List.cons_append] at same
        exact absurd (written.trans (by rw [(List.cons.inj same).1])) (head_toDigits zero more)
    · simp only [taken, dropped, Nat.toDigits_ne_nil, if_false]

theorem scanFraction_delimited {rest : Text} (stop : Delimited rest) :
    scanFraction rest = ([], rest) ∧ scanExponent rest = ([], rest) := by
  obtain rfl | ⟨c, more, rfl, rfl | rfl | rfl⟩ := stop
  · exact ⟨rfl, rfl⟩
  · exact ⟨rfl, rfl⟩
  · exact ⟨rfl, rfl⟩
  · exact ⟨rfl, rfl⟩

variable {F : Type} {fl : Floats F}

variable (fl) in
theorem scanUnsigned_toDigits (negative : Bool) (n : Nat) {rest : Text} (stop : Delimited rest) :
    scanUnsigned fl negative (Nat.toDigits 10 n ++ rest) =
      some (.int (if negative then -(n : Int) else n), rest) := by
  obtain ⟨noFraction, noExponent⟩ := scanFraction_delimited stop
  simp only [scanUnsigned, scanInteger_toDigits n stop, Option.bind_eq_bind, Option.bind_some,
    noFraction, noExponent, and_self, if_true, Nat.ofDigitChars_ten_toDigits]
  rfl

/-- A text that begins with a digit is scanned as a number. -/
theorem scanAtom_digit {c : Char} {rest : Text} (digit : c.isDigit = true) :
    scanAtom fl (c :: rest) = scanUnsigned fl false (c :: rest) := by
  rw [scanAtom.eq_def]
  split <;> first | rfl | (next same => obtain ⟨rfl, -⟩ := List.cons.inj same; cases digit)

theorem scanAtom_int (n : Int) {rest : Text} (stop : Delimited rest) :
    scanAtom fl (dumpsInt n ++ rest) = some (.int n, rest) := by
  cases n with
  | ofNat n =>
    obtain ⟨c, more, written, all⟩ := digits_cons n
    have value := scanUnsigned_toDigits fl false n stop
    rw [dumpsInt]
    rw [written] at all value ⊢
    rw [List.cons_append] at value ⊢
    rw [scanAtom_digit (all c (by simp)), value]
    rfl
  | negSucc n =>
    have value := scanUnsigned_toDigits fl true (n + 1) stop
    rw [dumpsInt, List.cons_append]
    have minus : scanAtom fl ('-' :: (Nat.toDigits 10 (n + 1) ++ rest)) =
        scanUnsigned fl true (Nat.toDigits 10 (n + 1) ++ rest) := by
      rw [scanAtom.eq_def]
      split
      · next same => cases (List.cons.inj same).1
      · next same => cases (List.cons.inj same).1
      · next same => cases (List.cons.inj same).1
      · next same => cases (List.cons.inj same).1
      · next same => cases (List.cons.inj same).1
      · next same =>
          -- the digits of a number do not begin with the `I` of `Infinity`
          have digits := (List.cons.inj same).2
          obtain ⟨c, more, written, all⟩ := digits_cons (n + 1)
          have digit : c.isDigit = true := all c (by rw [written]; simp)
          rw [written, List.cons_append] at digits
          rw [(List.cons.inj digits).1] at digit
          cases digit
      · next same => rw [(List.cons.inj same).2]
      · next notMinus => exact absurd rfl (notMinus _)
    rw [minus, value]
    rfl

/-! ## Values -/

/-- What `json` writes for a float it reads back as that float. -/
def Floats.Lawful (fl : Floats F) : Prop :=
  ∀ x rest, Delimited rest → scanAtom fl (fl.toToken x ++ rest) = some (.float x, rest)

mutual

/-- Well-formed strings and distinct keys throughout. -/
def Good : Value F → Prop
  | .str s => WellFormed s
  | .list items => GoodItems items
  | .dict members => (members.map Prod.fst).Nodup ∧ GoodMembers members
  | _ => True

def GoodItems : List (Value F) → Prop
  | [] => True
  | item :: rest => Good item ∧ GoodItems rest

def GoodMembers : List (PyStr × Value F) → Prop
  | [] => True
  | (key, value) :: rest => WellFormed key ∧ Good value ∧ GoodMembers rest

end

theorem goodMembers_iff {members : List (PyStr × Value F)} :
    GoodMembers members ↔ ∀ member ∈ members, WellFormed member.1 ∧ Good member.2 := by
  induction members with
  | nil => simp [GoodMembers]
  | cons member rest ih =>
    obtain ⟨key, value⟩ := member
    simp only [GoodMembers, ih, List.forall_mem_cons, and_assoc]

/-- Distinct keys are inserted in order. -/
theorem goodItems_iff {items : List (Value F)} : GoodItems items ↔ ∀ item ∈ items, Good item := by
  induction items with
  | nil => simp [GoodItems]
  | cons item rest ih => rw [GoodItems, ih, List.forall_mem_cons]

theorem dictOf_of_nodup {members : List (PyStr × Value F)}
    (distinct : (members.map Prod.fst).Nodup) : dictOf members = members := by
  have insertAll (members : List (PyStr × Value F)) (d : OrderedDict PyStr (Value F))
      (distinct : (d.keys ++ members.map Prod.fst).Nodup) :
      (members.foldl (fun d member => d.set member.1 member.2) d).items = d.items ++ members := by
    induction members generalizing d with
    | nil => simp
    | cons member rest ih =>
      obtain ⟨key, value⟩ := member
      simp only [List.map_cons, List.nodup_append, List.nodup_cons, List.mem_cons] at distinct
      have fresh : key ∉ d.keys := fun mem => distinct.2.2 key mem key (.inl rfl) rfl
      have inserted : (d.set key value).items = d.items ++ [(key, value)] :=
        OrderedDict.assign_of_not_mem value fresh
      have keys : (d.set key value).keys = d.keys ++ [key] := by
        rw [OrderedDict.keys_set, if_neg fresh]
      rw [List.foldl_cons, ih _ ?_, inserted, List.append_assoc]
      · rfl
      · rw [keys, List.append_assoc]
        simp only [List.nodup_append, List.nodup_cons, List.cons_append, List.nil_append,
          List.mem_cons]
        exact distinct
  exact insertAll members .empty distinct

theorem dictOf_good {members : List (PyStr × Value F)} (good : GoodMembers members) :
    Good (.dict (dictOf members)) := by
  have kept (members : List (PyStr × Value F)) (d : OrderedDict PyStr (Value F))
      (good : GoodMembers members) (goodBefore : GoodMembers d.items) :
      GoodMembers (members.foldl (fun d member => d.set member.1 member.2) d).items := by
    induction members generalizing d with
    | nil => exact goodBefore
    | cons member rest ih =>
      obtain ⟨key, value⟩ := member
      refine ih _ good.2.2 (goodMembers_iff.mpr fun entry mem => ?_)
      obtain rfl | old := OrderedDict.mem_assign mem
      · exact ⟨good.1, good.2.1⟩
      · exact goodMembers_iff.mp goodBefore entry old
  exact ⟨OrderedDict.nodup _, kept members .empty good trivial⟩

/-- What an atom never begins with. -/
theorem scanAtom_other {c : Char} (rest : Text)
    (other : c = '"' ∨ c = '[' ∨ c = '{' ∨ c = ']' ∨ c = '}' ∨ isWhitespace c = true) :
    scanAtom fl (c :: rest) = none := by
  simp only [isWhitespace, Bool.or_eq_true, decide_eq_true_eq, or_assoc] at other
  obtain rfl | rfl | rfl | rfl | rfl | rfl | rfl | rfl | rfl := other
  all_goals rfl

theorem scanValue_atom {text rest : Text} {value : Value F} (fuel : Nat)
    (atom : scanAtom fl text = some (value, rest)) :
    scanValue fl (fuel + 1) text = some (value, rest) := by
  rw [scanValue.eq_def]
  split
  · next impossible => cases impossible
  · next found => rw [scanAtom_other _ (.inl rfl)] at atom; cases atom
  · next found => rw [scanAtom_other _ (.inr (.inl rfl))] at atom; cases atom
  · next found => rw [scanAtom_other _ (.inr (.inr (.inl rfl)))] at atom; cases atom
  · exact atom

/-- A value begins with no white space and no closing bracket. -/
theorem scanValue_head {fuel : Nat} {text rest : Text} {value : Value F}
    (read : scanValue fl fuel text = some (value, rest)) :
    skipWhitespace text = text ∧ text.head? ≠ some ']' := by
  obtain ⟨fuel, rfl⟩ : ∃ f, fuel = f + 1 := by
    cases fuel with
    | zero => cases read
    | succ f => exact ⟨f, rfl⟩
  cases text with
  | nil => exact ⟨rfl, by simp⟩
  | cons c more =>
    have noAtom (closing : c = ']' ∨ isWhitespace c = true) : False := by
      have other : scanAtom fl (c :: more) = none :=
        scanAtom_other more (.inr (.inr (.inr (closing.imp_right .inr))))
      rw [scanValue.eq_def] at read
      split at read
      · next impossible => cases impossible
      · next same => obtain ⟨rfl, -⟩ := List.cons.inj same; simp [isWhitespace] at closing
      · next same => obtain ⟨rfl, -⟩ := List.cons.inj same; simp [isWhitespace] at closing
      · next same => obtain ⟨rfl, -⟩ := List.cons.inj same; simp [isWhitespace] at closing
      · rw [other] at read
        cases read
    constructor
    · rw [skipWhitespace, List.dropWhile_cons_of_neg]
      exact fun white => noAtom (.inr white)
    · intro same
      exact noAtom (.inl (Option.some.inj same))

theorem scanValue_str {fuel : Nat} {text rest : Text} {s : PyStr}
    (read : scanString fuel text = some (s, rest)) :
    scanValue fl (fuel + 1) ('"' :: text) = some (.str s, rest) := by
  simp only [scanValue, read, Option.bind_eq_bind, Option.bind_some]
  rfl

theorem scanItems_last {fuel : Nat} {text rest : Text} {item : Value F}
    (read : scanValue fl fuel text = some (item, ']' :: rest)) :
    scanItems fl (fuel + 1) text = some ([item], rest) := by
  have closing : skipWhitespace (']' :: rest) = ']' :: rest := rfl
  simp only [scanItems, read, closing, Option.bind_eq_bind, Option.bind_some]
  rfl

theorem scanItems_more {fuel : Nat} {text middle rest : Text} {item : Value F}
    {items : List (Value F)} (read : scanValue fl fuel text = some (item, ',' :: middle))
    (head : skipWhitespace middle = middle)
    (readItems : scanItems fl fuel middle = some (items, rest)) :
    scanItems fl (fuel + 1) text = some (item :: items, rest) := by
  have comma : skipWhitespace (',' :: middle) = ',' :: middle := rfl
  rw [scanItems]
  simp only [read, comma, head, readItems, Option.bind_eq_bind, Option.bind_some]
  rfl

theorem scanValue_list {fuel : Nat} {text rest : Text} {items : List (Value F)}
    (head : skipWhitespace text = text ∧ text.head? ≠ some ']')
    (read : scanItems fl fuel text = some (items, rest)) :
    scanValue fl (fuel + 1) ('[' :: text) = some (.list items, rest) := by
  simp only [scanValue, head.1]
  split
  · exact absurd rfl head.2
  · simp only [read, Option.bind_eq_bind, Option.bind_some]
    rfl

theorem scanMembers_last {fuel : Nat} {text middle rest : Text} {key : PyStr} {value : Value F}
    (readKey : scanString fuel text = some (key, ':' :: middle))
    (head : skipWhitespace middle = middle)
    (readValue : scanValue fl fuel middle = some (value, '}' :: rest)) :
    scanMembers fl (fuel + 1) ('"' :: text) = some ([(key, value)], rest) := by
  have colon : skipWhitespace (':' :: middle) = ':' :: middle := rfl
  have closing : skipWhitespace ('}' :: rest) = '}' :: rest := rfl
  simp only [scanMembers, readKey, colon, head, readValue, closing, Option.bind_eq_bind,
    Option.bind_some]
  rfl

theorem scanMembers_more {fuel : Nat} {text middle more rest : Text} {key : PyStr}
    {value : Value F} {members : List (PyStr × Value F)}
    (readKey : scanString fuel text = some (key, ':' :: middle))
    (head : skipWhitespace middle = middle)
    (readValue : scanValue fl fuel middle = some (value, ',' :: '"' :: more))
    (readMembers : scanMembers fl fuel ('"' :: more) = some (members, rest)) :
    scanMembers fl (fuel + 1) ('"' :: text) = some ((key, value) :: members, rest) := by
  have colon : skipWhitespace (':' :: middle) = ':' :: middle := rfl
  have comma : skipWhitespace (',' :: '"' :: more) = ',' :: '"' :: more := rfl
  have quote : skipWhitespace ('"' :: more) = '"' :: more := rfl
  rw [scanMembers]
  simp only [readKey, colon, head, readValue, comma, quote, readMembers, Option.bind_eq_bind,
    Option.bind_some]
  rfl

theorem scanValue_dict {fuel : Nat} {text rest : Text} {members : List (PyStr × Value F)}
    (read : scanMembers fl fuel ('"' :: text) = some (members, rest)) :
    scanValue fl (fuel + 1) ('{' :: '"' :: text) = some (.dict (dictOf members), rest) := by
  have quote : skipWhitespace ('"' :: text) = '"' :: text := rfl
  simp only [scanValue, quote]
  change (scanMembers fl fuel ('"' :: text)).bind _ = _
  rw [read]
  rfl

theorem dumps_ne_nil (lawful : fl.Lawful) (value : Value F) : dumps fl value ≠ [] := by
  cases value with
  | null => simp [dumps]
  | bool b => cases b <;> simp [dumps]
  | int n => cases n <;> simp [dumps, dumpsInt]
  | float x =>
    intro empty
    rw [dumps] at empty
    have read := lawful x [] (.inl rfl)
    rw [empty] at read
    cases read
  | str s => simp [dumps, dumpsStr]
  | list items => simp [dumps]
  | dict members => simp [dumps]

variable (fl) in
theorem dumpsMembers_cons (member : PyStr × Value F) (rest : List (PyStr × Value F)) :
    ∃ text, dumpsMembers fl (member :: rest) = '"' :: text := by
  obtain ⟨key, value⟩ := member
  cases rest with
  | nil =>
    rw [dumpsMembers, dumpsStr, List.cons_append]
    exact ⟨_, rfl⟩
  | cons next rest =>
    rw [dumpsMembers, dumpsStr, List.cons_append]
    exact ⟨_, rfl⟩

theorem length_flatMap_escape (s : PyStr) : s.length ≤ (s.flatMap escapePoint).length := by
  induction s with
  | nil => simp
  | cons n s ih =>
    obtain ⟨c, rest, written, -⟩ := escapePoint_cons n
    rw [List.flatMap_cons, List.length_append, written]
    simp only [List.length_cons]
    omega

theorem delimited_comma (rest : Text) : Delimited (',' :: rest) := .inr ⟨_, _, rfl, .inl rfl⟩

theorem delimited_bracket (rest : Text) : Delimited (']' :: rest) :=
  .inr ⟨_, _, rfl, .inr (.inl rfl)⟩

theorem delimited_brace (rest : Text) : Delimited ('}' :: rest) :=
  .inr ⟨_, _, rfl, .inr (.inr rfl)⟩

mutual

/-- A good value reads back, with as much fuel as it has characters. -/
theorem scanValue_dumps (lawful : fl.Lawful) : (value : Value F) → Good value →
    ∀ (fuel : Nat) (rest : Text), (dumps fl value).length ≤ fuel → Delimited rest →
      scanValue fl fuel (dumps fl value ++ rest) = some (value, rest)
  | value, good, 0, rest, enough, _ => by
    exact absurd (List.eq_nil_of_length_eq_zero (by omega)) (dumps_ne_nil lawful value)
  | .null, _, fuel + 1, rest, _, _ => by
    rw [dumps]
    exact scanValue_atom fuel rfl
  | .bool true, _, fuel + 1, rest, _, _ => by
    rw [dumps]
    exact scanValue_atom fuel rfl
  | .bool false, _, fuel + 1, rest, _, _ => by
    rw [dumps]
    exact scanValue_atom fuel rfl
  | .int n, _, fuel + 1, rest, _, stop => by
    rw [dumps]
    exact scanValue_atom fuel (scanAtom_int n stop)
  | .float x, _, fuel + 1, rest, _, stop => by
    rw [dumps]
    exact scanValue_atom fuel (lawful x rest stop)
  | .str s, good, fuel + 1, rest, enough, _ => by
    rw [Good] at good
    have longer := length_flatMap_escape s
    simp only [dumps, dumpsStr, List.length_cons, List.length_append, List.length_nil] at enough
    simp only [dumps, dumpsStr, List.cons_append, List.append_assoc, List.nil_append]
    exact scanValue_str (scanString_dumps good rest (by omega))
  | .list [], _, fuel + 1, rest, _, _ => by
    simp only [dumps, dumpsItems, List.nil_append, List.cons_append]
    rfl
  | .list (item :: items), good, fuel + 1, rest, enough, _ => by
    rw [Good] at good
    simp only [dumps, List.length_cons, List.length_append, List.length_nil] at enough
    simp only [dumps, List.cons_append, List.append_assoc, List.nil_append]
    have read := scanItems_dumps lawful item items good fuel rest (by omega)
    exact scanValue_list read.1 read.2
  | .dict [], _, fuel + 1, rest, _, _ => by
    simp only [dumps, dumpsMembers, List.nil_append, List.cons_append]
    rfl
  | .dict (member :: members), good, fuel + 1, rest, enough, _ => by
    rw [Good] at good
    simp only [dumps, List.length_cons, List.length_append, List.length_nil] at enough
    simp only [dumps, List.cons_append, List.append_assoc, List.nil_append]
    have read := scanMembers_dumps lawful member members good.2 fuel rest (by omega)
    obtain ⟨text, quote⟩ := dumpsMembers_cons fl member members
    rw [quote, List.cons_append] at read ⊢
    rw [scanValue_dict read, dictOf_of_nodup good.1]

theorem scanItems_dumps (lawful : fl.Lawful) : (item : Value F) → (items : List (Value F)) →
    GoodItems (item :: items) → ∀ (fuel : Nat) (rest : Text),
      (dumpsItems fl (item :: items)).length < fuel →
      (skipWhitespace (dumpsItems fl (item :: items) ++ ']' :: rest) =
          dumpsItems fl (item :: items) ++ ']' :: rest ∧
        (dumpsItems fl (item :: items) ++ ']' :: rest).head? ≠ some ']') ∧
      scanItems fl fuel (dumpsItems fl (item :: items) ++ ']' :: rest) =
        some (item :: items, rest)
  | item, [], good, fuel + 1, rest, enough => by
    rw [GoodItems] at good
    simp only [dumpsItems] at enough ⊢
    have read := scanValue_dumps lawful item good.1 fuel (']' :: rest) (by omega)
      (delimited_bracket rest)
    exact ⟨scanValue_head read, scanItems_last read⟩
  | item, next :: items, good, fuel + 1, rest, enough => by
    rw [GoodItems] at good
    simp only [dumpsItems, List.length_append, List.length_cons] at enough
    simp only [dumpsItems, List.append_assoc, List.cons_append]
    have read := scanValue_dumps lawful item good.1 fuel _ (by omega)
      (delimited_comma (dumpsItems fl (next :: items) ++ ']' :: rest))
    obtain ⟨head, more⟩ := scanItems_dumps lawful next items good.2 fuel rest (by omega)
    exact ⟨scanValue_head read, scanItems_more read head.1 more⟩

theorem scanMembers_dumps (lawful : fl.Lawful) : (member : PyStr × Value F) →
    (members : List (PyStr × Value F)) → GoodMembers (member :: members) →
    ∀ (fuel : Nat) (rest : Text), (dumpsMembers fl (member :: members)).length < fuel →
      scanMembers fl fuel (dumpsMembers fl (member :: members) ++ '}' :: rest) =
        some (member :: members, rest)
  | (key, value), [], good, fuel + 1, rest, enough => by
    rw [GoodMembers] at good
    have longer := length_flatMap_escape key
    simp only [dumpsMembers, dumpsStr, List.length_append, List.length_cons,
      List.length_nil] at enough
    simp only [dumpsMembers, dumpsStr, List.append_assoc, List.cons_append, List.nil_append]
    have read := scanValue_dumps lawful value good.2.1 fuel ('}' :: rest) (by omega)
      (delimited_brace rest)
    exact scanMembers_last (scanString_dumps good.1 _ (by omega)) (scanValue_head read).1 read
  | (key, value), next :: members, good, fuel + 1, rest, enough => by
    rw [GoodMembers] at good
    have longer := length_flatMap_escape key
    simp only [dumpsMembers, dumpsStr, List.length_append, List.length_cons,
      List.length_nil] at enough
    simp only [dumpsMembers, dumpsStr, List.append_assoc, List.cons_append, List.nil_append]
    have read := scanValue_dumps lawful value good.2.1 fuel
      (',' :: (dumpsMembers fl (next :: members) ++ '}' :: rest)) (by omega)
      (delimited_comma _)
    have more := scanMembers_dumps lawful next members good.2.2 fuel rest (by omega)
    have head := (scanValue_head read).1
    obtain ⟨text, quote⟩ := dumpsMembers_cons fl next members
    rw [quote, List.cons_append] at read more head ⊢
    exact scanMembers_more (scanString_dumps good.1 _ (by omega)) head read more

end

theorem loads_dumps (lawful : fl.Lawful) {value : Value F} (good : Good value) :
    loads fl (dumps fl value) = some value := by
  have read := scanValue_dumps lawful value good ((dumps fl value).length + 1) []
    (Nat.le_succ _) (.inl rfl)
  rw [List.append_nil] at read
  have noMark : (dumps fl value).head? ≠ some '\ufeff' := by
    intro mark
    obtain ⟨rest, written⟩ : ∃ rest, dumps fl value = '\ufeff' :: rest := by
      cases text : dumps fl value with
      | nil => simp [text] at mark
      | cons c rest =>
        rw [text] at mark
        exact ⟨rest, by rw [Option.some.inj mark]⟩
    rw [written] at read
    cases read
  simp only [loads, noMark, if_false, (scanValue_head read).1, read, Option.bind_eq_bind,
    Option.bind_some]
  rfl

/-! ## Everything the scanner returns is good -/

theorem hexValue_lt {c : Char} {d : Nat} (read : hexValue c = some d) : d < 16 := by
  unfold hexValue at read
  split at read
  · cases read; omega
  split at read
  · cases read; omega
  split at read
  · cases read; omega
  · cases read

theorem scanHex_lt {text rest : Text} {n : Nat} (read : scanHex text = some (n, rest)) :
    n < 0x10000 := by
  unfold scanHex at read
  split at read
  · simp only [Option.bind_eq_bind, Option.bind_eq_some_iff] at read
    obtain ⟨a, readA, b, readB, c, readC, d, readD, same⟩ := read
    have boundA := hexValue_lt readA
    have boundB := hexValue_lt readB
    have boundC := hexValue_lt readC
    have boundD := hexValue_lt readD
    cases same
    omega
  · cases read

/-- A scanned code point is one; a high surrogate is not followed by an escaped low one,
and a low surrogate was escaped. -/
theorem scanUnicode_spec {text rest : Text} {n : Nat} (read : scanUnicode text = some (n, rest)) :
    n < 0x110000 ∧ (isHigh n = true → startsLow rest = false) ∧
      (isLow n = true → startsLow ('\\' :: 'u' :: text) = true) := by
  simp only [scanUnicode, Option.bind_eq_bind, Option.bind_eq_some_iff] at read
  obtain ⟨⟨first, after⟩, readFirst, read⟩ := read
  dsimp only at read
  have small := scanHex_lt readFirst
  have alone (last : (some (first, after) : Option (Nat × Text)) = some (n, rest))
      (apart : isHigh first = true → startsLow after = false) :
      n < 0x110000 ∧ (isHigh n = true → startsLow rest = false) ∧
        (isLow n = true → startsLow ('\\' :: 'u' :: text) = true) := by
    cases last
    refine ⟨by omega, apart, fun low => ?_⟩
    simp only [startsLow, readFirst, low]
  split at read
  · next high =>
      split at read
      · next more =>
          split at read
          · next second _ readSecond =>
              split at read
              · next low =>
                  have bound := scanHex_lt readSecond
                  have joined := (Prod.ext_iff.mp (Option.some.inj read)).1
                  simp only [isHigh, isLow, Bool.and_eq_true, decide_eq_true_eq] at high low
                  dsimp only at joined
                  refine ⟨by omega, fun astral => ?_, fun astral => ?_⟩
                  · simp only [isHigh, Bool.and_eq_true, decide_eq_true_eq] at astral
                    omega
                  · simp only [isLow, Bool.and_eq_true, decide_eq_true_eq] at astral
                    omega
              · next notLow =>
                  exact alone read fun _ => by simpa [startsLow, readSecond] using notLow
          · next noHex => exact alone read fun _ => by simp only [startsLow, noHex]
      · next noEscape =>
          refine alone read fun _ => ?_
          rw [startsLow.eq_def]
          split
          · exact absurd rfl (noEscape _)
          · rfl
  · next notHigh => exact alone read fun high => absurd high notHigh

theorem scanPoint_spec {text rest : Text} {n : Nat} (read : scanPoint text = some (n, rest)) :
    n < 0x110000 ∧ (isHigh n = true → startsLow rest = false) ∧
      (isLow n = true → startsLow text = true) := by
  have plain (m : Nat) (point : m < 0x110000) (noSurrogate : m < 0xd800 ∨ 0xdfff < m)
      (same : m = n) : n < 0x110000 ∧ (isHigh n = true → startsLow rest = false) ∧
        (isLow n = true → startsLow text = true) := by
    subst same
    refine ⟨point, fun high => ?_, fun low => ?_⟩
    · simp only [isHigh, Bool.and_eq_true, decide_eq_true_eq] at high
      omega
    · simp only [isLow, Bool.and_eq_true, decide_eq_true_eq] at low
      omega
  rw [scanPoint.eq_def] at read
  split at read
  · exact plain 34 (by decide) (by decide) (Prod.ext_iff.mp (Option.some.inj read)).1
  · exact plain 92 (by decide) (by decide) (Prod.ext_iff.mp (Option.some.inj read)).1
  · exact plain 47 (by decide) (by decide) (Prod.ext_iff.mp (Option.some.inj read)).1
  · exact plain 8 (by decide) (by decide) (Prod.ext_iff.mp (Option.some.inj read)).1
  · exact plain 12 (by decide) (by decide) (Prod.ext_iff.mp (Option.some.inj read)).1
  · exact plain 10 (by decide) (by decide) (Prod.ext_iff.mp (Option.some.inj read)).1
  · exact plain 13 (by decide) (by decide) (Prod.ext_iff.mp (Option.some.inj read)).1
  · exact plain 9 (by decide) (by decide) (Prod.ext_iff.mp (Option.some.inj read)).1
  · exact scanUnicode_spec read
  · cases read
  · split at read
    · cases read
    · exact plain _ (char_lt _) (char_not_surrogate _) (Prod.ext_iff.mp (Option.some.inj read)).1
  · cases read

theorem scanString_good {fuel : Nat} {text rest : Text} {s : PyStr}
    (read : scanString fuel text = some (s, rest)) : WellFormed s := by
  induction fuel generalizing text rest s with
  | zero => cases read
  | succ fuel ih =>
    rw [scanString.eq_def] at read
    split at read
    · next impossible => cases impossible
    · cases read
      exact ⟨by simp, .nil⟩
    · next more same _ =>
        cases same
        simp only [Option.bind_eq_bind, Option.bind_eq_some_iff] at read
        obtain ⟨⟨n, middle⟩, point, ⟨tail, after⟩, string, last⟩ := read
        cases last
        obtain ⟨bound, apart, -⟩ := scanPoint_spec point
        have good := ih string
        refine ⟨List.forall_mem_cons.mpr ⟨bound, good.points⟩, ?_⟩
        cases tail with
        | nil => exact .singleton _
        | cons m tail =>
          refine List.isChain_cons_cons.mpr ⟨fun pair => ?_, good.joined⟩
          -- the next point was scanned from where no escaped low surrogate stands
          obtain ⟨fuel, rfl⟩ : ∃ f, fuel = f + 1 := by
            cases fuel with
            | zero => cases string
            | succ f => exact ⟨f, rfl⟩
          rw [scanString.eq_def] at string
          split at string
          · next impossible => cases impossible
          · cases string
          · next again same _ =>
              cases same
              simp only [Option.bind_eq_bind, Option.bind_eq_some_iff] at string
              obtain ⟨⟨m', middle'⟩, point', ⟨tail', after'⟩, -, last'⟩ := string
              cases last'
              have low := (scanPoint_spec point').2.2 pair.2
              rw [apart pair.1] at low
              cases low

theorem scanUnsigned_good {negative : Bool} {text rest : Text} {value : Value F}
    (read : scanUnsigned fl negative text = some (value, rest)) : Good value := by
  simp only [scanUnsigned, Option.bind_eq_bind, Option.bind_eq_some_iff] at read
  obtain ⟨_, -, read⟩ := read
  split at read
  · cases read
    simp only [Good]
  · cases read
    simp only [Good]

theorem scanAtom_good {text rest : Text} {value : Value F}
    (read : scanAtom fl text = some (value, rest)) : Good value := by
  rw [scanAtom.eq_def] at read
  split at read
  · cases read; simp only [Good]
  · cases read; simp only [Good]
  · cases read; simp only [Good]
  · cases read; simp only [Good]
  · cases read; simp only [Good]
  · cases read; simp only [Good]
  · exact scanUnsigned_good read
  · exact scanUnsigned_good read

theorem scan_good (fuel : Nat) :
    (∀ text value rest, scanValue fl fuel text = some (value, rest) → Good value) ∧
    (∀ text items rest, scanItems fl fuel text = some (items, rest) → GoodItems items) ∧
    (∀ text members rest, scanMembers fl fuel text = some (members, rest) →
      GoodMembers members) := by
  induction fuel with
  | zero =>
    refine ⟨fun text value rest read => ?_, fun text items rest read => ?_,
      fun text members rest read => ?_⟩
    · cases read
    · cases read
    · cases read
  | succ fuel ih =>
    obtain ⟨goodValue, goodItems, goodMembers⟩ := ih
    refine ⟨fun text value rest read => ?_, fun text items rest read => ?_,
      fun text members rest read => ?_⟩
    · rw [scanValue.eq_def] at read
      split at read
      · next impossible => cases impossible
      · next same =>
          cases same
          simp only [Option.bind_eq_bind, Option.bind_eq_some_iff] at read
          obtain ⟨⟨s, after⟩, string, last⟩ := read
          cases last
          rw [Good]
          exact scanString_good string
      · next same =>
          cases same
          split at read
          · cases read
            simp only [Good, GoodItems]
          · simp only [Option.bind_eq_bind, Option.bind_eq_some_iff] at read
            obtain ⟨⟨items, after⟩, list, last⟩ := read
            cases last
            rw [Good]
            exact goodItems _ _ _ list
      · next same =>
          cases same
          split at read
          · cases read
            simp only [Good, GoodMembers, List.map_nil, List.nodup_nil, and_self]
          · simp only [Option.bind_eq_bind, Option.bind_eq_some_iff] at read
            obtain ⟨⟨members, after⟩, dict, last⟩ := read
            cases last
            exact dictOf_good (goodMembers _ _ _ dict)
      · exact scanAtom_good read
    · rw [scanItems] at read
      simp only [Option.bind_eq_bind, Option.bind_eq_some_iff] at read
      obtain ⟨⟨item, after⟩, first, read⟩ := read
      have good := goodValue _ _ _ first
      split at read
      · cases read
        simp only [GoodItems, good, and_self]
      · simp only [Option.bind_eq_some_iff] at read
        obtain ⟨⟨more, after⟩, list, last⟩ := read
        cases last
        exact ⟨good, goodItems _ _ _ list⟩
      · cases read
    · rw [scanMembers.eq_def] at read
      split at read
      · next same =>
          cases same
          simp only [Option.bind_eq_bind, Option.bind_eq_some_iff] at read
          obtain ⟨⟨key, after⟩, string, read⟩ := read
          have goodKey := scanString_good string
          split at read
          · simp only [Option.bind_eq_some_iff] at read
            obtain ⟨⟨value, after⟩, first, read⟩ := read
            have good := goodValue _ _ _ first
            split at read
            · cases read
              simp only [GoodMembers, good, goodKey, and_self]
            · simp only [Option.bind_eq_some_iff] at read
              obtain ⟨⟨more, after⟩, dict, last⟩ := read
              cases last
              exact ⟨goodKey, good, goodMembers _ _ _ dict⟩
            · cases read
          · cases read
      · cases read

theorem loads_good {text : Text} {value : Value F} (read : loads fl text = some value) :
    Good value := by
  rw [loads] at read
  split at read
  · cases read
  · simp only [Option.bind_eq_bind, Option.bind_eq_some_iff] at read
    obtain ⟨⟨v, rest⟩, scanned, last⟩ := read
    split at last
    · cases last
      exact (scan_good _).1 _ _ _ scanned
    · cases last

/-- The bytes of a code point under `ensure_ascii`. -/
def pointBytes (n : Nat) : Nat :=
  if n = 34 ∨ n = 92 ∨ n = 10 ∨ n = 13 ∨ n = 9 ∨ n = 12 ∨ n = 8 then 2
  else if 32 ≤ n ∧ n ≤ 126 then 1
  else if n < 0x10000 then 6
  else 12

def strBytes (s : PyStr) : Nat := (s.map pointBytes).sum + 2

def intBytes : Int → Nat
  | .ofNat n => (Nat.toDigits 10 n).length
  | .negSucc n => (Nat.toDigits 10 (n + 1)).length + 1

variable {F : Type} (fl : Floats F)

mutual

def jsonBytes : Value F → Nat
  | .null => 4
  | .bool true => 4
  | .bool false => 5
  | .int n => intBytes n
  | .float x => (utf8Encode (fl.toToken x)).length
  | .str s => strBytes s
  | .list items => itemsBytes items + 2
  | .dict members => membersBytes members + 2

def itemsBytes : List (Value F) → Nat
  | [] => 0
  | [item] => jsonBytes item
  | item :: next :: rest => jsonBytes item + 1 + itemsBytes (next :: rest)

def membersBytes : List (PyStr × Value F) → Nat
  | [] => 0
  | [(key, value)] => strBytes key + 1 + jsonBytes value
  | (key, value) :: next :: rest =>
    strBytes key + 1 + jsonBytes value + 1 + membersBytes (next :: rest)

end

theorem jsonBytes_int (n : Int) : jsonBytes fl (.int n) = intBytes n := by rw [jsonBytes]

theorem jsonBytes_str (s : PyStr) : jsonBytes fl (.str s) = strBytes s := by rw [jsonBytes]

theorem jsonBytes_list (items : List (Value F)) :
    jsonBytes fl (.list items) = itemsBytes fl items + 2 := by rw [jsonBytes]

theorem jsonBytes_dict (members : List (PyStr × Value F)) :
    jsonBytes fl (.dict members) = membersBytes fl members + 2 := by rw [jsonBytes]

/-! ## `dumps` writes as many -/

theorem utf8Encode_append (a b : Text) : utf8Encode (a ++ b) = utf8Encode a ++ utf8Encode b :=
  List.flatMap_append ..

theorem length_utf8Encode_cons {c : Char} (ascii : c.toNat < 128) (rest : Text) :
    (utf8Encode (c :: rest)).length = (utf8Encode rest).length + 1 := by
  have size : c.utf8Size = 1 := by
    rw [Char.utf8Size, if_pos]
    exact UInt32.le_iff_toNat_le.mpr (Nat.le_of_lt_succ ascii)
  rw [utf8Encode, List.flatMap_cons, List.length_append, String.length_utf8EncodeChar, size,
    Nat.add_comm]
  rfl

theorem length_utf8Encode_ascii {text : Text} (ascii : ∀ c ∈ text, c.toNat < 128) :
    (utf8Encode text).length = text.length := by
  induction text with
  | nil => rfl
  | cons c rest ih =>
    rw [length_utf8Encode_cons (ascii c (by simp)), List.length_cons,
      ih fun d mem => ascii d (List.mem_cons_of_mem _ mem)]

theorem hexChar_ascii (n : Nat) : (hexChar (n % 16)).toNat < 128 := by
  have all : ∀ d < 16, (hexChar d).toNat < 128 := by decide
  exact all _ (Nat.mod_lt _ (by decide))

theorem length_escapeHex (n : Nat) : (utf8Encode (escapeHex n)).length = 6 := by
  apply length_utf8Encode_ascii
  simp only [escapeHex, List.forall_mem_cons]
  exact ⟨by decide, by decide, hexChar_ascii _, hexChar_ascii _, hexChar_ascii _, hexChar_ascii _,
    by simp⟩

theorem length_escapePoint (n : Nat) : (utf8Encode (escapePoint n)).length = pointBytes n := by
  rw [pointBytes]
  split
  · next special =>
      obtain rfl | rfl | rfl | rfl | rfl | rfl | rfl := special
      all_goals rfl
  · next other =>
      simp only [not_or] at other
      obtain ⟨quote, slash, newline, carriage, tab, feed, back⟩ := other
      simp only [escapePoint, quote, slash, newline, carriage, tab, feed, back, if_false]
      split
      · next printable =>
          apply length_utf8Encode_ascii
          rintro c mem
          rw [List.mem_singleton.mp mem, toNat_ofNat (by omega)]
          omega
      · split
        · exact length_escapeHex n
        · rw [utf8Encode_append, List.length_append, length_escapeHex, length_escapeHex]

theorem length_dumpsStr (s : PyStr) : (utf8Encode (dumpsStr s)).length = strBytes s := by
  have body : (utf8Encode (s.flatMap escapePoint)).length = (s.map pointBytes).sum := by
    induction s with
    | nil => rfl
    | cons n s ih =>
      rw [List.flatMap_cons, utf8Encode_append, List.length_append, ih, length_escapePoint,
        List.map_cons, List.sum_cons]
  rw [dumpsStr, length_utf8Encode_cons (by decide), utf8Encode_append, List.length_append, body,
    strBytes]
  rfl

theorem length_dumpsInt (n : Int) : (utf8Encode (dumpsInt n)).length = intBytes n := by
  have digits (m : Nat) : (utf8Encode (Nat.toDigits 10 m)).length = (Nat.toDigits 10 m).length := by
    apply length_utf8Encode_ascii
    intro c mem
    have digit := Nat.isDigit_of_mem_toDigits (by decide) (by decide) mem
    simp only [Char.isDigit, Bool.and_eq_true, decide_eq_true_eq, ge_iff_le] at digit
    exact Nat.lt_of_le_of_lt (UInt32.le_iff_toNat_le.mp digit.2) (by decide)
  cases n with
  | ofNat n => exact digits n
  | negSucc n => rw [dumpsInt, length_utf8Encode_cons (by decide), digits, intBytes]

mutual

theorem length_dumps : (value : Value F) →
    (utf8Encode (dumps fl value)).length = jsonBytes fl value
  | .null => rfl
  | .bool true => rfl
  | .bool false => rfl
  | .int n => by rw [dumps, jsonBytes, length_dumpsInt]
  | .float x => by rw [dumps, jsonBytes]
  | .str s => by rw [dumps, jsonBytes, length_dumpsStr]
  | .list items => by
    rw [dumps, jsonBytes, length_utf8Encode_cons (by decide), utf8Encode_append,
      List.length_append, length_dumpsItems items]
    rfl
  | .dict members => by
    rw [dumps, jsonBytes, length_utf8Encode_cons (by decide), utf8Encode_append,
      List.length_append, length_dumpsMembers members]
    rfl

theorem length_dumpsItems : (items : List (Value F)) →
    (utf8Encode (dumpsItems fl items)).length = itemsBytes fl items
  | [] => by rw [dumpsItems, itemsBytes]; rfl
  | [item] => by rw [dumpsItems, itemsBytes, length_dumps item]
  | item :: next :: rest => by
    rw [dumpsItems, itemsBytes, utf8Encode_append, List.length_append, length_dumps item,
      length_utf8Encode_cons (by decide), length_dumpsItems (next :: rest)]
    omega

theorem length_dumpsMembers : (members : List (PyStr × Value F)) →
    (utf8Encode (dumpsMembers fl members)).length = membersBytes fl members
  | [] => by rw [dumpsMembers, membersBytes]; rfl
  | [(key, value)] => by
    rw [dumpsMembers, membersBytes, utf8Encode_append, List.length_append, length_dumpsStr,
      length_utf8Encode_cons (by decide), length_dumps value]
    omega
  | (key, value) :: next :: rest => by
    rw [dumpsMembers, membersBytes, utf8Encode_append, List.length_append, length_dumpsStr,
      length_utf8Encode_cons (by decide), utf8Encode_append, List.length_append,
      length_dumps value, length_utf8Encode_cons (by decide),
      length_dumpsMembers (next :: rest)]
    omega

end

/-! ## Bounds -/

theorem pointBytes_le (n : Nat) : pointBytes n ≤ 12 := by
  unfold pointBytes
  split_ifs <;> decide

theorem strBytes_le (s : PyStr) : strBytes s ≤ 12 * s.length + 2 := by
  have points : (s.map pointBytes).sum ≤ 12 * s.length := by
    induction s with
    | nil => simp
    | cons n s ih =>
      have here := pointBytes_le n
      rw [List.map_cons, List.sum_cons, List.length_cons]
      omega
  rw [strBytes]
  omega

theorem intBytes_le {n k : Nat} (positive : 0 < k) (small : n < 10 ^ k) : intBytes n ≤ k :=
  (Nat.length_toDigits_le_iff (by decide) positive).mpr small

theorem itemsBytes_le {bound : Nat} (items : List (Value F))
    (small : ∀ item ∈ items, jsonBytes fl item ≤ bound) :
    itemsBytes fl items ≤ items.length * (bound + 1) := by
  match items, small with
  | [], _ => simp [itemsBytes]
  | [item], small =>
    have here := small item (by simp)
    rw [itemsBytes, List.length_singleton]
    omega
  | item :: next :: rest, small =>
    have here := small item (by simp)
    have later := itemsBytes_le (next :: rest) fun other mem =>
      small other (List.mem_cons_of_mem _ mem)
    rw [itemsBytes, List.length_cons, Nat.succ_mul]
    omega

end OneLink.Library.PyJson
