/-
# Mnemonic.Phrase -- a seed as twenty-four words

The seed and one byte of its hash are 264 bits, which are twenty-four digits of base 2048:
one word each.  Reading the words back gives the bits, and the phrase is accepted if the low
byte is that of the seed above it; so the accepted phrases are those of the seeds
(`decode_eq_ok`), and of the 2048 last words eight fit any twenty-three (`count_fitting`).

A Python string is the list of its characters.  The hash, `str.lower` and the word list, a
data file of lower-case words, are parameters.
-/
import OneLink.Library.ByteReader
import OneLink.Library.Checked
import OneLink.Library.Positional
import OneLink.Library.PyText

namespace OneLink.Mnemonic

set_option autoImplicit false

open Library

abbrev Text := List Char

def SEED_LEN_BYTES : Nat := 32

def WORD_COUNT : Nat := 24

inductive MnemonicError where
  | seedLength (got : Nat)
  | wordCount (got : Nat)
  | unknownWord (tok : Text)
  | checksumMismatch
deriving DecidableEq, Repr

/-- What `_load_wordlist` has checked. -/
structure Wordlist where
  words : List Text
  count : words.length = 2048
  distinct : words.Nodup

/-- `hashlib.sha256`, of which the first byte is used, and `str.lower`. -/
structure Primitives where
  sha256 : Bytes → Bytes
  lower : Text → Text

/-! ## Strings -/

/-- `str.strip`. -/
def strip (text : Text) : Text := ((text.dropWhile isSpace).reverse.dropWhile isSpace).reverse

/-- `str.split` without an argument, behind the characters of an unfinished word. -/
def split (word : Text) : Text → List Text
  | [] => if word = [] then [] else [word]
  | c :: rest =>
    if isSpace c then if word = [] then split [] rest else word :: split [] rest
    else split (word ++ [c]) rest

/-- `" ".join`. -/
def join : List Text → Text
  | [] => []
  | [word] => word
  | word :: rest => word ++ ' ' :: join rest

/-! ## Encoding and decoding -/

section Code

variable (P : Primitives) (W : Wordlist)

def checksumByte (seed : Bytes) : UInt8 := (P.sha256 seed).getD 0 0

def encode (seed : Bytes) : Except MnemonicError Text := do
  require (seed.length = SEED_LEN_BYTES) (.seedLength seed.length)
  let bits := beValue seed <<< 8 ||| (checksumByte P seed).toNat
  return join ((List.range WORD_COUNT).map fun i =>
    let shift := (WORD_COUNT - 1 - i) * 11
    let idx := bits >>> shift &&& 0x7FF
    W.words.getD idx [])

/-- The loop of `decode` over the words; with distinct words the index of a word is the place
where it stands. -/
def gather : List Text → (bits : Nat) → Except MnemonicError Nat
  | [], bits => .ok bits
  | tok :: tokens, bits =>
    match W.words.idxOf? tok with
    | none => .error (.unknownWord tok)
    | some idx => gather tokens (bits <<< 11 ||| idx)

def decode (phrase : Text) : Except MnemonicError Bytes := do
  let tokens := split [] (P.lower (strip phrase))
  require (tokens.length = WORD_COUNT) (.wordCount tokens.length)
  let bits ← gather W tokens 0
  let checksum := bits &&& 0xFF
  let seed_int := bits >>> 8
  let seed := beBytes SEED_LEN_BYTES seed_int
  require (checksum = (checksumByte P seed).toNat) .checksumMismatch
  return seed

end Code

variable {P : Primitives} {W : Wordlist}

/-! ## Bits -/

theorem shift_or (high : Nat) {low w : Nat} (small : low < 2 ^ w) :
    high <<< w ||| low = high * 2 ^ w + low := by
  rw [Nat.shiftLeft_eq, Nat.mul_comm, Nat.two_pow_add_eq_or_of_lt small]

theorem shift_and (bits w : Nat) : bits &&& 2 ^ w - 1 = bits % 2 ^ w := Nat.and_two_pow_sub_one_eq_mod ..

/-- The indexes of the words of a seed. -/
def indexes (P : Primitives) (seed : Bytes) : List Nat :=
  digitsOf 2048 24 (beValue seed * 256 + (checksumByte P seed).toNat)

/-- The words of a seed. -/
def wordsOf (P : Primitives) (W : Wordlist) (seed : Bytes) : List Text :=
  (indexes P seed).map fun idx => W.words.getD idx []

theorem encode_eq {seed : Bytes} (full : seed.length = 32) :
    encode P W seed = .ok (join (wordsOf P W seed)) := by
  have byte := (checksumByte P seed).toNat_lt
  rw [encode, require_of (show seed.length = SEED_LEN_BYTES from full), ok_bind, wordsOf, indexes,
    digitsOf, List.map_map]
  have bits := @shift_or (beValue seed) _ 8 byte
  simp only [bits]
  refine congrArg (fun words => Except.ok (join words)) (List.map_congr_left fun i _ => ?_)
  have mask := shift_and ((beValue seed * 2 ^ 8 + (checksumByte P seed).toNat) >>>
    ((WORD_COUNT - 1 - i) * 11)) 11
  have power : (2048 : Nat) ^ (24 - 1 - i) = 2 ^ ((WORD_COUNT - 1 - i) * 11) := by
    rw [Nat.mul_comm, Nat.pow_mul]
    rfl
  simp only [Function.comp_apply, power]
  rw [← Nat.shiftRight_eq_div_pow]
  exact congrArg (W.words.getD · []) mask

theorem gather_from {idxs : List Nat} (small : ∀ idx ∈ idxs, idx < 2048) (bits : Nat) :
    gather W (idxs.map fun idx => W.words.getD idx []) bits =
      .ok (idxs.foldl (fun v d => v * 2048 + d) bits) := by
  induction idxs generalizing bits with
  | nil => rfl
  | cons idx idxs ih =>
    have below := small idx List.mem_cons_self
    have inside : idx < W.words.length := by rwa [W.count]
    have found : W.words.idxOf? (W.words.getD idx []) = some idx := by
      rw [List.getD_eq_getElem?_getD, List.getElem?_eq_getElem inside, Option.getD_some,
        List.idxOf?_eq_some_iff]
      refine ⟨inside, rfl, fun j before same => ?_⟩
      exact absurd ((List.getElem_inj W.distinct).1 same) (Nat.ne_of_lt before)
    rw [List.map_cons, gather, found]
    simp only [List.foldl_cons]
    rw [@shift_or bits idx 11 below]
    exact ih (fun other member => small other (List.mem_cons_of_mem _ member)) _

/-- Read back, the indexes of the words are the digits. -/
theorem gather_words {idxs : List Nat} (small : ∀ idx ∈ idxs, idx < 2048) :
    gather W (idxs.map fun idx => W.words.getD idx []) 0 = .ok (digitsValue 2048 idxs) :=
  gather_from small 0

theorem gather_eq_ok {tokens : List Text} {bits out : Nat} (gathered : gather W tokens bits = .ok out) :
    ∃ idxs : List Nat, tokens = idxs.map (fun idx => W.words.getD idx []) ∧ ∀ idx ∈ idxs, idx < 2048 := by
  induction tokens generalizing bits with
  | nil => exact ⟨[], rfl, fun idx member => absurd member List.not_mem_nil⟩
  | cons tok tokens ih =>
    rw [gather] at gathered
    split at gathered
    · cases gathered
    rename_i idx found
    obtain ⟨idxs, rfl, small⟩ := ih gathered
    obtain ⟨inside, rfl, -⟩ := List.idxOf?_eq_some_iff.1 found
    refine ⟨idx :: idxs, ?_, fun other member => ?_⟩
    · rw [List.map_cons, List.getD_eq_getElem?_getD, List.getElem?_eq_getElem inside]
      rfl
    · rcases List.mem_cons.1 member with rfl | later
      · rwa [← W.count]
      · exact small other later

theorem indexes_lt (seed : Bytes) : ∀ idx ∈ indexes P seed, idx < 2048 := digitsOf_lt (by decide) _ _

theorem packed_lt {seed : Bytes} (full : seed.length = 32) :
    beValue seed * 256 + (checksumByte P seed).toNat < 2048 ^ 24 := by
  have value := beValue_lt seed
  have byte := (checksumByte P seed).toNat_lt
  rw [full] at value
  have power : (2048 : Nat) ^ 24 = 256 ^ 32 * 256 := by norm_num
  omega

/-- What `decode` makes of twenty-four words of the list. -/
theorem decode_tokens {phrase : Text} {idxs : List Nat}
    (tokens : split [] (P.lower (strip phrase)) = idxs.map fun idx => W.words.getD idx [])
    (counted : idxs.length = 24) (small : ∀ idx ∈ idxs, idx < 2048) :
    decode P W phrase = if digitsValue 2048 idxs % 256 =
        (checksumByte P (beBytes 32 (digitsValue 2048 idxs / 256))).toNat
      then .ok (beBytes 32 (digitsValue 2048 idxs / 256)) else .error .checksumMismatch := by
  have low : digitsValue 2048 idxs &&& 0xFF = digitsValue 2048 idxs % 256 := shift_and _ 8
  have high : digitsValue 2048 idxs >>> 8 = digitsValue 2048 idxs / 256 :=
    Nat.shiftRight_eq_div_pow _ 8
  rw [decode]
  simp only [tokens]
  rw [require_of (by rw [List.length_map]; exact counted), ok_bind, gather_words small, ok_bind, low,
    high, SEED_LEN_BYTES]
  split
  · rename_i same
    rw [require_of same, ok_bind]
    rfl
  · rename_i differs
    rw [require_of_not differs]
    rfl

/-- **The accepted phrases are those of the seeds.** -/
theorem decode_eq_ok {phrase : Text} {seed : Bytes} : decode P W phrase = .ok seed ↔
    seed.length = 32 ∧ split [] (P.lower (strip phrase)) = wordsOf P W seed := by
  constructor
  · intro decoded
    have accepted := decoded
    simp only [decode, bind_eq_ok, require_eq_ok, exists_const] at accepted
    obtain ⟨counted, bits, gathered, -⟩ := accepted
    obtain ⟨idxs, tokens, small⟩ := gather_eq_ok gathered
    rw [tokens, List.length_map] at counted
    rw [decode_tokens tokens counted small] at decoded
    split at decoded
    · rename_i checked
      have same := Except.ok.inj decoded
      subst same
      have below := digitsValue_lt small
      rw [counted] at below
      have high : digitsValue 2048 idxs / 256 < 256 ^ 32 := by
        rw [WORD_COUNT] at below
        omega
      refine ⟨length_beBytes _ _, ?_⟩
      rw [tokens, wordsOf, indexes, ← checked, beValue_beBytes high, Nat.div_add_mod',
        ← show idxs.length = 24 from counted, digitsOf_digitsValue small]
    · cases decoded
  · rintro ⟨full, tokens⟩
    have value : digitsValue 2048 (indexes P seed) =
        beValue seed * 256 + (checksumByte P seed).toNat := digitsValue_digitsOf (packed_lt full)
    have byte := (checksumByte P seed).toNat_lt
    have back := beBytes_beValue seed
    rw [full] at back
    rw [decode_tokens tokens (length_digitsOf ..) (indexes_lt seed), value,
      show (beValue seed * 256 + (checksumByte P seed).toNat) / 256 = beValue seed by omega,
      show (beValue seed * 256 + (checksumByte P seed).toNat) % 256 = (checksumByte P seed).toNat by
        omega, back, if_pos rfl]

/-! ## Phrases -/

/-- The words of the list are lower-case letters. -/
def Wordlist.Plain (W : Wordlist) : Prop :=
  ∀ word ∈ W.words, word ≠ [] ∧ ∀ c ∈ word, 'a' ≤ c ∧ c ≤ 'z'

/-- `str.lower` leaves lower-case letters and spaces as they are. -/
def Primitives.Plain (P : Primitives) : Prop :=
  ∀ text, (∀ c ∈ text, c = ' ' ∨ 'a' ≤ c ∧ c ≤ 'z') → P.lower text = text

theorem letter_not_space {c : Char} (letter : 'a' ≤ c ∧ c ≤ 'z') : isSpace c = false := by
  have low : 97 ≤ c.toNat := letter.1
  have high : c.toNat ≤ 122 := letter.2
  simp only [isSpace, Bool.or_eq_false_iff, Bool.and_eq_false_iff, decide_eq_false_iff_not,
    beq_eq_false_iff_ne]
  omega

theorem split_letters {word : Text} (letters : ∀ c ∈ word, 'a' ≤ c ∧ c ≤ 'z') (begun rest : Text) :
    split begun (word ++ rest) = split (begun ++ word) rest := by
  induction word generalizing begun with
  | nil => rw [List.append_nil, List.nil_append]
  | cons c word ih =>
    rw [List.cons_append, split, letter_not_space (letters c List.mem_cons_self),
      if_neg Bool.false_ne_true, ih fun d member => letters d (List.mem_cons_of_mem _ member),
      List.append_assoc]
    rfl

/-- What joining words gives: it splits into them again, and is letters and spaces between two
letters. -/
theorem join_spec {words : List Text} (some_word : words ≠ [])
    (plain : ∀ word ∈ words, word ≠ [] ∧ ∀ c ∈ word, 'a' ≤ c ∧ c ≤ 'z') :
    split [] (join words) = words ∧
      (∀ c ∈ join words, c = ' ' ∨ 'a' ≤ c ∧ c ≤ 'z') ∧
      (∃ c rest, join words = c :: rest ∧ isSpace c = false) ∧
      ∃ front c, join words = front ++ [c] ∧ isSpace c = false := by
  induction words with
  | nil => exact absurd rfl some_word
  | cons word words ih =>
    obtain ⟨nonempty, letters⟩ := plain word List.mem_cons_self
    obtain ⟨c, tail, rfl⟩ := List.exists_cons_of_ne_nil nonempty
    have first := letter_not_space (letters c List.mem_cons_self)
    cases words with
    | nil =>
      have alone : split [] (c :: tail) = [c :: tail] := by
        have whole := split_letters letters [] []
        rw [List.append_nil, List.nil_append, split, if_neg nonempty] at whole
        exact whole
      refine ⟨alone, fun d member => .inr (letters d member), ⟨c, tail, rfl, first⟩, ?_⟩
      exact ⟨_, _, (List.dropLast_concat_getLast nonempty).symm,
        letter_not_space (letters _ (List.getLast_mem _))⟩
    | cons next words =>
      obtain ⟨splits, chars, -, front, d, ends, last⟩ :=
        ih (List.cons_ne_nil _ _) fun other member => plain other (List.mem_cons_of_mem _ member)
      have joined : join ((c :: tail) :: next :: words) =
          (c :: tail) ++ ' ' :: join (next :: words) := rfl
      refine ⟨?_, fun e member => ?_, ⟨c, _, rfl, first⟩, c :: tail ++ ' ' :: front, d, ?_, last⟩
      · rw [joined, split_letters letters, List.nil_append, split, if_pos (by decide),
          if_neg nonempty, splits]
      · rw [joined] at member
        rcases List.mem_append.1 member with here | there
        · exact .inr (letters e here)
        · exact (List.mem_cons.1 there).elim .inl (chars e)
      · rw [joined, ends, List.append_assoc, List.cons_append]
        rfl

theorem strip_join {text front rest : Text} {c d : Char} (starts : text = c :: rest)
    (ends : text = front ++ [d]) (first : isSpace c = false) (last : isSpace d = false) :
    strip text = text := by
  have left : text.dropWhile isSpace = text := by
    rw [starts, List.dropWhile_cons_of_neg (by rw [first]; exact Bool.false_ne_true)]
  rw [strip, left, ends, List.reverse_append, List.reverse_singleton, List.singleton_append,
    List.dropWhile_cons_of_neg (by rw [last]; exact Bool.false_ne_true), List.reverse_cons,
    List.reverse_reverse]

/-- The words of a joined phrase. -/
theorem tokens_join (plainP : P.Plain) (plainW : W.Plain) {words : List Text} (some_word : words ≠ [])
    (listed : ∀ word ∈ words, word ∈ W.words) :
    split [] (P.lower (strip (join words))) = words := by
  obtain ⟨splits, chars, ⟨c, rest, starts, first⟩, front, d, ends, last⟩ :=
    join_spec some_word fun word member => plainW word (listed word member)
  rw [strip_join starts ends first last, plainP _ chars, splits]

theorem wordsOf_listed (seed : Bytes) : ∀ word ∈ wordsOf P W seed, word ∈ W.words := by
  intro word member
  obtain ⟨idx, here, rfl⟩ := List.mem_map.1 member
  have inside : idx < W.words.length := by
    rw [W.count]
    exact indexes_lt seed idx here
  rw [List.getD_eq_getElem?_getD, List.getElem?_eq_getElem inside]
  exact List.getElem_mem inside

theorem wordsOf_ne_nil (seed : Bytes) : wordsOf P W seed ≠ [] := by
  refine List.ne_nil_of_length_pos ?_
  rw [wordsOf, List.length_map, indexes, length_digitsOf]
  decide

/-- Listed words are the words of their places. -/
theorem exists_indexes {words : List Text} (listed : ∀ word ∈ words, word ∈ W.words) :
    ∃ idxs : List Nat, words = idxs.map (fun idx => W.words.getD idx []) ∧
      ∀ idx ∈ idxs, idx < 2048 := by
  induction words with
  | nil => exact ⟨[], rfl, fun idx member => absurd member List.not_mem_nil⟩
  | cons word words ih =>
    obtain ⟨idxs, rfl, small⟩ := ih fun other member => listed other (List.mem_cons_of_mem _ member)
    obtain ⟨i, inside, rfl⟩ := List.getElem_of_mem (listed word List.mem_cons_self)
    refine ⟨i :: idxs, ?_, fun other member => ?_⟩
    · rw [List.map_cons, List.getD_eq_getElem?_getD, List.getElem?_eq_getElem inside]
      rfl
    · rcases List.mem_cons.1 member with rfl | later
      · rwa [← W.count]
      · exact small other later

/-- One number in each block of 256 has the low byte that its block asks for. -/
theorem count_residues {f : Nat → Nat} (byte : ∀ e, f e < 256) (n : Nat) :
    (List.range (n * 256)).countP (fun i => i % 256 = f (i / 256)) = n := by
  induction n with
  | zero => rfl
  | succ n ih =>
    have block : (List.range 256).countP ((fun i => decide (i % 256 = f (i / 256))) ∘ (n * 256 + ·)) =
        (List.range 256).count (f n) := by
      rw [List.count_eq_countP]
      refine List.countP_congr fun i member => ?_
      have inside := List.mem_range.1 member
      simp only [Function.comp_apply, decide_eq_true_eq, beq_iff_eq,
        show (n * 256 + i) % 256 = i by omega, show (n * 256 + i) / 256 = n by omega]
    rw [Nat.add_mul, Nat.one_mul, List.range_add, List.countP_append, List.countP_map, ih, block,
      List.count_eq_one_of_mem List.nodup_range (List.mem_range.2 (byte n))]

/-- Of the last words, eight fit. -/
theorem count_fitting (plainP : P.Plain) (plainW : W.Plain) {front : List Text}
    (counted : front.length = 23) (listed : ∀ word ∈ front, word ∈ W.words) :
    (W.words.filter fun last => (decode P W (join (front ++ [last]))).isOk).length = 8 := by
  obtain ⟨idxs, rfl, small⟩ := exists_indexes listed
  rw [List.length_map] at counted
  have places : W.words = (List.range 2048).map fun i => W.words.getD i [] := by
    refine List.ext_getElem (by simp [W.count]) fun i left right => ?_
    rw [List.getElem_map, List.getElem_range, List.getD_eq_getElem?_getD,
      List.getElem?_eq_getElem left, Option.getD_some]
  have fits : ∀ i < 2048, (decode P W (join (idxs.map (fun idx => W.words.getD idx []) ++
      [W.words.getD i []]))).isOk = decide (i % 256 =
        (checksumByte P (beBytes 32 (digitsValue 2048 idxs * 8 + i / 256))).toNat) := by
    intro i below
    have all : ∀ idx ∈ idxs ++ [i], idx < 2048 := fun idx member =>
      (List.mem_append.1 member).elim (small idx) fun last => List.mem_singleton.1 last ▸ below
    have tokens : split [] (P.lower (strip (join (idxs.map (fun idx => W.words.getD idx []) ++
        [W.words.getD i []])))) = (idxs ++ [i]).map fun idx => W.words.getD idx [] := by
      rw [List.map_append]
      refine tokens_join plainP plainW (by simp) fun word member => ?_
      rcases List.mem_append.1 member with early | last
      · exact listed word early
      · rw [List.mem_singleton.1 last, List.getD_eq_getElem?_getD,
          List.getElem?_eq_getElem (by rwa [W.count])]
        exact List.getElem_mem _
    rw [decode_tokens tokens (by rw [List.length_append, counted]; rfl) all, digitsValue_concat,
      show (digitsValue 2048 idxs * 2048 + i) % 256 = i % 256 by omega,
      show (digitsValue 2048 idxs * 2048 + i) / 256 = digitsValue 2048 idxs * 8 + i / 256 by omega]
    split
    · rename_i same
      exact (decide_eq_true same).symm
    · rename_i differs
      exact (decide_eq_false differs).symm
  rw [← List.countP_eq_length_filter, places, List.countP_map]
  refine (List.countP_congr fun i member => ?_).trans (count_residues
    (f := fun e => (checksumByte P (beBytes 32 (digitsValue 2048 idxs * 8 + e))).toNat)
    (fun e => (checksumByte P _).toNat_lt) 8)
  rw [← places, Function.comp_apply, fits i (List.mem_range.1 member)]

/-- **The recovery phrase is a bijection.** -/
theorem phrase_bijection (plainP : P.Plain) (plainW : W.Plain) :
    (∀ seed, seed.length = SEED_LEN_BYTES → ∃ phrase, encode P W seed = .ok phrase ∧
      decode P W phrase = .ok seed) ∧
    (∀ phrase seed, decode P W phrase = .ok seed ↔ ∃ text, encode P W seed = .ok text ∧
      split [] (P.lower (strip phrase)) = split [] text) ∧
    ∀ front : List Text, front.length = 23 → (∀ word ∈ front, word ∈ W.words) →
      (W.words.filter fun last => (decode P W (join (front ++ [last]))).isOk).length = 8 := by
  have splits : ∀ seed, split [] (join (wordsOf P W seed)) = wordsOf P W seed := fun seed =>
    (join_spec (wordsOf_ne_nil seed) fun word member => plainW word (wordsOf_listed seed word member)).1
  refine ⟨fun seed full => ⟨_, encode_eq full, ?_⟩, fun phrase seed => ?_, fun front counted listed =>
    count_fitting plainP plainW counted listed⟩
  · exact decode_eq_ok.2
      ⟨full, tokens_join plainP plainW (wordsOf_ne_nil seed) (wordsOf_listed seed)⟩
  · rw [decode_eq_ok]
    constructor
    · rintro ⟨full, tokens⟩
      exact ⟨_, encode_eq full, tokens.trans (splits seed).symm⟩
    · rintro ⟨text, encoded, tokens⟩
      have full : seed.length = 32 := by
        simp only [encode, bind_eq_ok, require_eq_ok, exists_const] at encoded
        exact encoded.1
      cases (encode_eq full).symm.trans encoded
      exact ⟨full, tokens.trans (splits seed)⟩

/-! ## Toy instance -/

def letter (n : Nat) : Char := Char.ofNat (97 + n)

/-- The first 2048 words of three letters. -/
def toyWord (i : Nat) : Text := [letter (i / 676), letter (i / 26 % 26), letter (i % 26)]

def toyPlace (word : Text) : Nat := digitsValue 26 (word.map fun c => c.toNat - 97)

theorem letter_spec : ∀ n < 26, (letter n).toNat - 97 = n ∧ 'a' ≤ letter n ∧ letter n ≤ 'z' := by
  decide

theorem toyWord_spec : ∀ i < 2048,
    toyPlace (toyWord i) = i ∧ ∀ c ∈ toyWord i, 'a' ≤ c ∧ c ≤ 'z' := by
  intro i small
  obtain ⟨first, inAlphabet⟩ := letter_spec (i / 676) (by omega)
  obtain ⟨second, inAlphabet'⟩ := letter_spec (i / 26 % 26) (by omega)
  obtain ⟨third, inAlphabet''⟩ := letter_spec (i % 26) (by omega)
  refine ⟨?_, List.forall_mem_cons.2 ⟨inAlphabet, List.forall_mem_cons.2 ⟨inAlphabet',
    List.forall_mem_singleton.2 inAlphabet''⟩⟩⟩
  simp only [toyPlace, toyWord, List.map_cons, List.map_nil, first, second, third]
  simp only [digitsValue, List.foldl_cons, List.foldl_nil]
  omega

theorem nodup_toyWord {places : List Nat} (distinct : places.Nodup) (low : ∀ i ∈ places, i < 2048) :
    (places.map toyWord).Nodup := by
  have back : places.map (toyPlace ∘ toyWord) = places.map id := by
    refine List.map_congr_left fun i member => ?_
    rw [Function.comp_apply, (toyWord_spec i (low i member)).1, id]
  refine List.Nodup.of_map toyPlace ?_
  rwa [List.map_map, back, List.map_id]

def toyList (places : List Nat) (full : places.length = 2048) (distinct : places.Nodup)
    (low : ∀ i ∈ places, i < 2048) : Wordlist where
  words := places.map toyWord
  count := by rw [List.length_map, full]
  distinct := nodup_toyWord distinct low

theorem plain_toyList (places : List Nat) (full : places.length = 2048) (distinct : places.Nodup)
    (low : ∀ i ∈ places, i < 2048) : (toyList places full distinct low).Plain := by
  intro word member
  obtain ⟨i, here, rfl⟩ := List.mem_map.1 member
  refine ⟨?_, (toyWord_spec i (low i here)).2⟩
  rw [toyWord]
  exact List.cons_ne_nil _ _

def toyWords : Wordlist :=
  toyList (List.range 2048) List.length_range List.nodup_range fun _ => List.mem_range.1

theorem toyWords_plain : toyWords.Plain := plain_toyList _ _ _ _

/-- The sum of the bytes in place of the hash. -/
def toyPrimitives : Primitives where
  sha256 bytes := [bytes.sum]
  lower text := text

theorem phrase_bijection_toy : ∃ phrase, encode toyPrimitives toyWords (List.replicate 32 7) =
    .ok phrase ∧ decode toyPrimitives toyWords phrase = .ok (List.replicate 32 7) :=
  (phrase_bijection (fun _ _ => rfl) toyWords_plain).1 _ rfl

end OneLink.Mnemonic
