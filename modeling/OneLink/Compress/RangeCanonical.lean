/-
# Compress.RangeCanonical -- which byte strings decode exactly

A decoder makes decisions on any bytes.  The encoder that takes the same decisions stands,
after each of them, at an interval whose lower end and the decoder's `code` add up to the
number that was read (`Mirrors`), as long as `code` began below the range.  So if the
decoder ends exactly, the number read is the lower end, which is what the encoder writes.

There are two ways out of the range: four bytes `0xFF` are a first code that is not below it,
and a raw bit leaves the last number of an odd range to neither half.  From then on the
decoder finds ones until `renorm` shifts the excess out of the 32 bits.  No encoder leads
there, so what decodes exactly is the encoder's if and only if neither happened
(`exact_canonical_iff`).
-/
import OneLink.Compress.RangeRoundTrip

namespace OneLink.Compress

open Library

set_option autoImplicit false

/-! ## What was read -/

/-- The number that the first `n` bytes are the digits of; past the end a byte is zero. -/
def readValue (bytes : Bytes) : Nat → Nat
  | 0 => 0
  | n + 1 => 256 * readValue bytes n + (bytes.getD n 0).toNat

theorem readValue_eq (bytes : Bytes) {n : Nat} (inside : n ≤ bytes.length) :
    readValue bytes n = beValue (bytes.take n) := by
  induction n with
  | zero => rfl
  | succ n ih =>
    have here : n < bytes.length := inside
    rw [readValue, ih (by omega), List.take_succ_eq_append_getElem here, Encoder.beValue_settled,
      List.getD_eq_getElem _ _ here, Nat.mul_comm]

theorem readValue_lt (bytes : Bytes) (n : Nat) : readValue bytes n < 256 ^ n := by
  induction n with
  | zero => exact Nat.one_pos
  | succ n ih =>
    have byte := (bytes.getD n 0).toNat_lt
    rw [readValue, Nat.pow_succ]
    omega

/-- Encoder and decoder took the same decisions. -/
structure Mirrors (bytes : Bytes) (e : Encoder) (d : Decoder) : Prop where
  range : d.range = e.range
  below : d.code < d.range
  code : e.interval.low + d.code = readValue bytes d.pos
  pos : d.pos = e.interval.places + 4
  input : d.input = bytes

section Mirroring

variable {bytes : Bytes} {e : Encoder} {d : Decoder}

theorem Mirrors.widened (mirrors : Mirrors bytes e d) (sound : e.Sound) (below : e.range < TOP) :
    Mirrors bytes e.widened d.widened := by
  obtain ⟨range, inside, code, pos, input⟩ := mirrors
  have top : TOP = 2 ^ 24 := rfl
  have byte := (bytes.getD d.pos 0).toNat_lt
  have wider : d.widened.range = d.range * 256 := Nat.shiftLeft_eq _ _
  have moved : d.widened.code = 256 * d.code + (bytes.getD d.pos 0).toNat := by
    rw [← input]
    show d.code <<< 8 % 2 ^ 32 + _ = _
    rw [Nat.shiftLeft_eq, Nat.mod_eq_of_lt (by omega), Nat.mul_comm]
  refine ⟨?_, ?_, ?_, ?_, input⟩
  · rw [wider, Encoder.widened_range, range]
  · omega
  · rw [sound.widened_interval]
    show 256 * e.interval.low + d.widened.code = readValue bytes (d.pos + 1)
    rw [moved, readValue, ← code]
    omega
  · rw [sound.widened_interval]
    show d.pos + 1 = e.interval.places + 1 + 4
    omega

theorem Mirrors.renorm (mirrors : Mirrors bytes e d) (sound : e.Sound) :
    Mirrors bytes e.renorm d.renorm := by
  induction left : TOP - e.range using Nat.strong_induction_on generalizing e d with
  | _ left ih =>
    rcases Nat.lt_or_ge e.range TOP with below | large
    · have range := e.widened_range
      have positive := sound.positive
      rw [Encoder.renorm_of_small positive below,
        Decoder.renorm_of_small (by rw [mirrors.range]; exact positive)
          (by rw [mirrors.range]; exact below)]
      exact ih (TOP - e.widened.range) (by omega) (mirrors.widened sound below)
        (sound.widened below) rfl
    · rw [Encoder.renorm_of_large large,
        Decoder.renorm_of_large (by rw [mirrors.range]; exact large)]
      exact mirrors

theorem Mirrors.part (mirrors : Mirrors bytes e d) {offset width : Nat} (above : offset ≤ d.code)
    (below : d.code < offset + width) : Mirrors bytes (e.part offset width) (d.part offset width) := by
  obtain ⟨_, _, code, pos, input⟩ := mirrors
  refine ⟨rfl, ?_, ?_, ?_, input⟩
  · show d.code - offset < width
    omega
  · rw [Encoder.part_interval]
    show e.interval.low + offset + (d.code - offset) = readValue bytes d.pos
    omega
  · rw [Encoder.part_interval]
    exact pos

end Mirroring

/-- From `e` and `d` to `e'` and `d'` the same decisions were taken, and `below` says that the
code was below the range at each of them. -/
structure Same (e e' : Encoder) (d d' : Decoder) (below : Prop) : Prop where
  valid : e'.Valid
  mirrors : below → ∀ bytes, Mirrors bytes e d → Mirrors bytes e' d'

theorem Same.refl {e : Encoder} (valid : e.Valid) (d : Decoder) {below : Prop} :
    Same e e d d below :=
  ⟨valid, fun _ _ mirrors => mirrors⟩

theorem Same.trans {e e' e'' : Encoder} {d d' d'' : Decoder} {below below' : Prop}
    (first : Same e e' d d' below) (second : Same e' e'' d' d'' below') :
    Same e e'' d d'' (below ∧ below') :=
  ⟨second.valid, fun both bytes mirrors =>
    second.mirrors both.2 bytes (first.mirrors both.1 bytes mirrors)⟩

theorem Same.mono {e e' : Encoder} {d d' : Decoder} {below below' : Prop}
    (same : Same e e' d d' below) (stronger : below' → below) : Same e e' d d' below' :=
  ⟨same.valid, fun holds => same.mirrors (stronger holds)⟩

/-- Both go to a part of the range where the code lies. -/
theorem part_same {e : Encoder} (valid : e.Valid) {d : Decoder} {offset width : Nat}
    {below : Prop} (positive : 0 < width) (inside : offset + width ≤ e.range)
    (lies : below → d.range = e.range → d.code < d.range →
      offset ≤ d.code ∧ d.code < offset + width) :
    Same e (e.part offset width).renorm d (d.part offset width).renorm below := by
  refine ⟨(part_step valid positive inside).valid, fun holds bytes mirrors => ?_⟩
  obtain ⟨above, below⟩ := lies holds mirrors.range mirrors.below
  exact (mirrors.part above below).renorm (valid.toSound.part positive inside)

/-! ## Decisions taken again -/

/-- The encoder takes the bit that the decoder found. -/
theorem bit_same {e : Encoder} (valid : e.Valid) {prob : Nat} (inner : Inner prob) (d : Decoder) :
    (d.bit prob).2.1 = (e.bit prob (d.bit prob).1).2 ∧
      Same e (e.bit prob (d.bit prob).1).1 d (d.bit prob).2.2 True := by
  obtain ⟨positive, below⟩ := bound_inside valid.large inner
  rcases Nat.lt_or_ge d.code (d.range >>> BITS * prob) with small | large
  · have read : d.bit prob =
        (false, raised prob, (d.part 0 (d.range >>> BITS * prob)).renorm) := if_pos small
    rw [read]
    refine ⟨rfl, ?_⟩
    have same : Same e (e.part 0 (e.range >>> BITS * prob)).renorm d
        (d.part 0 (e.range >>> BITS * prob)).renorm True :=
      part_same valid positive (by omega) fun _ range _ => by rw [← range]; omega
    refine ⟨same.valid, fun holds bytes mirrors => ?_⟩
    rw [mirrors.range]
    exact same.mirrors holds bytes mirrors
  · have read : d.bit prob = (true, lowered prob,
        (d.part (d.range >>> BITS * prob) (d.range - d.range >>> BITS * prob)).renorm) :=
      if_neg (by omega)
    rw [read]
    refine ⟨rfl, ?_⟩
    have same : Same e
        (e.part (e.range >>> BITS * prob) (e.range - e.range >>> BITS * prob)).renorm d
        (d.part (e.range >>> BITS * prob) (e.range - e.range >>> BITS * prob)).renorm True :=
      part_same valid (by omega) (by omega) fun _ range below => by rw [← range]; omega
    refine ⟨same.valid, fun holds bytes mirrors => ?_⟩
    rw [mirrors.range]
    exact same.mirrors holds bytes mirrors

/-- A leading bit and the ones below it. -/
theorem leading_bit {value i rest : Nat} {one : Bool} (below : rest < 2 ^ i)
    (low : value % 2 ^ (i + 1) = one.toNat * 2 ^ i + rest) :
    value.testBit i = one ∧ value % 2 ^ i = rest := by
  have split := low_bits_succ value i
  have bound : value % 2 ^ i < 2 ^ i := Nat.mod_lt _ (Nat.two_pow_pos i)
  rw [low] at split
  cases one with
  | false =>
    cases bit : value.testBit i with
    | false =>
      rw [bit] at split
      exact ⟨rfl, by simpa using split.symm⟩
    | true =>
      rw [bit] at split
      simp only [Bool.toNat_false, Bool.toNat_true] at split
      omega
  | true =>
    cases bit : value.testBit i with
    | false =>
      rw [bit] at split
      simp only [Bool.toNat_false, Bool.toNat_true] at split
      omega
    | true =>
      rw [bit] at split
      exact ⟨rfl, by simpa using split.symm⟩

/-- The encoder goes to the leaf that the decoder found. -/
theorem treeLoop_same (i : Nat) {e : Encoder} (valid : e.Valid) {tree : Nat → Nat}
    (inner : ∀ node, Inner (tree node)) (node : Nat) (d : Decoder) :
    ∃ rest < 2 ^ i, ∃ e' tree' d',
      d.treeLoop tree node i = (node * 2 ^ i + rest, tree', d') ∧
      (∀ value, value % 2 ^ i = rest → e.treeLoop tree value node i = (e', tree')) ∧
      Same e e' d d' True ∧ ∀ other, Inner (tree' other) := by
  induction i generalizing e tree node d with
  | zero =>
    exact ⟨0, Nat.one_pos, e, tree, d, by simp [Decoder.treeLoop], fun _ _ => rfl,
      Same.refl valid d, inner⟩
  | succ i ih =>
    obtain ⟨prob, first⟩ := bit_same valid (inner node) d
    generalize read : d.bit (tree node) = found at prob first
    obtain ⟨one, prob', d'⟩ := found
    simp only at prob first
    subst prob
    have inner' (other : Nat) :
        Inner (Function.update tree node (e.bit (tree node) one).2 other) := by
      by_cases here : other = node
      · rw [here, Function.update_self]
        exact (inner node).bit e one
      · rw [Function.update_of_ne here]
        exact inner other
    obtain ⟨rest, below, e', tree', d'', decode, encode, second, inner''⟩ :=
      ih first.valid inner' (node <<< 1 + one.toNat) d'
    have bit := one.toNat_lt
    have power : one.toNat * 2 ^ i ≤ 1 * 2 ^ i := Nat.mul_le_mul_right _ (by omega)
    refine ⟨one.toNat * 2 ^ i + rest, ?_, e', tree', d'', ?_, ?_,
      (first.trans second).mono fun _ => ⟨trivial, trivial⟩, inner''⟩
    · rw [Nat.pow_succ]
      omega
    · have leaf : (node <<< 1 + one.toNat) * 2 ^ i + rest =
          node * 2 ^ (i + 1) + (one.toNat * 2 ^ i + rest) := by
        rw [Nat.shiftLeft_eq]
        ring
      rw [Decoder.treeLoop, read, ← leaf]
      exact decode
    · intro value low
      obtain ⟨here, there⟩ := leading_bit below low
      rw [Encoder.treeLoop, here]
      exact encode value there

theorem tree_same {depth : Nat} (small : depth ≤ 8) {e : Encoder} (valid : e.Valid)
    {tree : Nat → Nat} (inner : ∀ node, Inner (tree node)) (d : Decoder) :
    ∃ value < 2 ^ depth, ∃ e' tree' d',
      d.tree tree depth = (value, tree', d') ∧ e.tree tree depth value = (e', tree') ∧
      Same e e' d d' True ∧ ∀ other, Inner (tree' other) := by
  obtain ⟨value, below, e', tree', d', decode, encode, same, inner'⟩ :=
    treeLoop_same depth valid inner 1 d
  have size : 2 ^ depth ≤ 2 ^ 8 := Nat.pow_le_pow_right (by decide) small
  refine ⟨value, below, e', tree', d', ?_, encode value (Nat.mod_eq_of_lt below), same, inner'⟩
  rw [Decoder.tree, decode]
  simp only [Nat.one_mul, Nat.shiftLeft_eq, Nat.add_sub_cancel_left]
  rw [if_pos (by omega)]

/-- The encoder takes the raw bits that the decoder found. -/
theorem directLoop_same (i : Nat) {e : Encoder} (valid : e.Valid) {read : Nat}
    (room : (read + 1) * 2 ^ i ≤ 2 ^ 32) (d : Decoder) :
    ∃ rest < 2 ^ i, ∃ e' d',
      d.directLoop read i = (read * 2 ^ i + rest, d') ∧
      (∀ value, value % 2 ^ i = rest → e.direct value i = e') ∧
      Same e e' d d' (d.RawBelow i) := by
  induction i generalizing e read d with
  | zero =>
    exact ⟨0, Nat.one_pos, e, d, by simp [Decoder.directLoop], fun _ _ => rfl, Same.refl valid d⟩
  | succ i ih =>
    have top : TOP = 2 ^ 24 := rfl
    have large := valid.large
    have halves : e.range >>> 1 = e.range / 2 := Nat.shiftRight_eq_div_pow _ _
    have first : Same e
        (e.part (if d.rawBit then e.range >>> 1 else 0) (e.range >>> 1)).renorm d d.rawNext
        (d.code < 2 * (d.range >>> 1)) := by
      have same : Same e (e.part (if d.rawBit then e.range >>> 1 else 0) (e.range >>> 1)).renorm d
          (d.part (if d.rawBit then e.range >>> 1 else 0) (e.range >>> 1)).renorm
          (d.code < 2 * (d.range >>> 1)) := by
        refine part_same valid (by omega) (by split <;> omega) fun short range _ => ?_
        rw [← range]
        unfold Decoder.rawBit
        by_cases reached : d.code ≥ d.range >>> 1
        · rw [decide_eq_true reached, if_pos rfl]
          omega
        · rw [decide_eq_false reached, if_neg Bool.false_ne_true]
          omega
      refine ⟨same.valid, fun short bytes mirrors => ?_⟩
      have next : d.rawNext =
          (d.part (if d.rawBit then e.range >>> 1 else 0) (e.range >>> 1)).renorm := by
        rw [← mirrors.range]
        unfold Decoder.rawNext Decoder.part
        cases d.rawBit <;> rfl
      rw [next]
      exact same.mirrors short bytes mirrors
    have bit := d.rawBit.toNat_lt
    have shifted : read <<< 1 % 2 ^ 32 = read * 2 := by
      have power : 1 ≤ 2 ^ i := Nat.one_le_two_pow
      have bound : (read + 1) * 2 * 1 ≤ (read + 1) * 2 * 2 ^ i := Nat.mul_le_mul_left _ power
      have all : (read + 1) * 2 ^ (i + 1) = (read + 1) * 2 * 2 ^ i := by ring
      rw [Nat.shiftLeft_eq]
      exact Nat.mod_eq_of_lt (by omega)
    have room' : (read * 2 + d.rawBit.toNat + 1) * 2 ^ i ≤ 2 ^ 32 :=
      calc (read * 2 + d.rawBit.toNat + 1) * 2 ^ i ≤ (read + 1) * 2 * 2 ^ i :=
            Nat.mul_le_mul_right _ (by omega)
        _ = (read + 1) * 2 ^ (i + 1) := by ring
        _ ≤ 2 ^ 32 := room
    obtain ⟨rest, below, e', d', decode, encode, second⟩ := ih first.valid room' d.rawNext
    have power : d.rawBit.toNat * 2 ^ i ≤ 1 * 2 ^ i := Nat.mul_le_mul_right _ (by omega)
    refine ⟨d.rawBit.toNat * 2 ^ i + rest, ?_, e', d', ?_, ?_, first.trans second⟩
    · rw [Nat.pow_succ]
      omega
    · have all : read * 2 ^ (i + 1) + (d.rawBit.toNat * 2 ^ i + rest) =
          (read * 2 + d.rawBit.toNat) * 2 ^ i + rest := by ring
      rw [Decoder.directLoop_succ, shifted, all]
      exact decode
    · intro value low
      obtain ⟨here, there⟩ := leading_bit below low
      rw [← encode value there, Encoder.direct, here]
      cases d.rawBit <;> rfl

/-! ## Scripts -/

section Scripts

variable {κ τ : Type} [DecidableEq κ] [DecidableEq τ]

/-- Trees of at most 8 levels, at most 32 raw bits. -/
def Op.Bounded : Op κ τ → Prop
  | bit _ => True
  | tree _ depth => depth ≤ 8
  | direct count => count ≤ 32

theorem op_same {op : Op κ τ} (bounded : op.Bounded) {e : Encoder} (valid : e.Valid)
    {probs : Probs κ τ} (inner : probs.Inner) (d : Decoder) :
    ∃ value e' d' probs', op.Fits value ∧ op.decode d probs = (value, d', probs') ∧
      op.encode value e probs = (e', probs') ∧ Same e e' d d' (op.RawBelow d) ∧ probs'.Inner := by
  cases op with
  | bit name =>
    obtain ⟨prob, same⟩ := bit_same valid (inner.bits name) d
    have back : decide ((d.bit (probs.bits name)).1.toNat = 1) = (d.bit (probs.bits name)).1 := by
      cases (d.bit (probs.bits name)).1 <;> rfl
    refine ⟨(d.bit (probs.bits name)).1.toNat, _, (d.bit (probs.bits name)).2.2,
      { probs with bits := Function.update probs.bits name (d.bit (probs.bits name)).2.1 },
      Bool.toNat_lt _, rfl, ?_, same.mono fun _ => trivial, ?_⟩
    · rw [Op.encode, back, prob]
    · refine ⟨fun other => ?_, inner.trees⟩
      show Inner (Function.update probs.bits name _ other)
      by_cases here : other = name
      · rw [here, Function.update_self, prob]
        exact (inner.bits name).bit e _
      · rw [Function.update_of_ne here]
        exact inner.bits other
  | tree name depth =>
    obtain ⟨value, below, e', tree', d', decode, encode, same, inner'⟩ :=
      tree_same bounded valid (inner.trees name) d
    refine ⟨value, e', d', { probs with trees := Function.update probs.trees name tree' },
      ⟨bounded, below⟩, ?_, ?_, same.mono fun _ => trivial, inner.bits, fun other => ?_⟩
    · rw [Op.decode, decode]
    · rw [Op.encode, encode]
    · show ∀ node, Inner (Function.update probs.trees name tree' other node)
      by_cases here : other = name
      · rw [here, Function.update_self]
        exact inner'
      · rw [Function.update_of_ne here]
        exact inner.trees other
  | direct count =>
    have size : 2 ^ count ≤ 2 ^ 32 := Nat.pow_le_pow_right (by decide) bounded
    have room : (0 + 1) * 2 ^ count ≤ 2 ^ 32 := by omega
    obtain ⟨value, below, e', d', decode, encode, same⟩ := directLoop_same count valid room d
    refine ⟨value, e', d', probs, ⟨bounded, below⟩, ?_, ?_, same, inner⟩
    · rw [Op.decode, Decoder.direct, decode, Nat.zero_mul, Nat.zero_add]
    · rw [Op.encode, encode value (Nat.mod_eq_of_lt below)]

/-- The encoder can run any script on the values that the decoder found. -/
theorem script_same (ops : List (Op κ τ)) (bounded : ∀ op ∈ ops, op.Bounded) {e : Encoder}
    (valid : e.Valid) {probs : Probs κ τ} (inner : probs.Inner) (d : Decoder) :
    ∃ values e' d' probs', values.length = ops.length ∧ ScriptFits (ops.zip values) ∧
      decodeScript ops d probs = (values, d', probs') ∧
      encodeScript (ops.zip values) e probs = (e', probs') ∧
      Same e e' d d' (scriptBelow ops d probs) := by
  induction ops generalizing e probs d with
  | nil =>
    exact ⟨[], e, d, probs, rfl, fun coded member => absurd member List.not_mem_nil, rfl, rfl,
      Same.refl valid d⟩
  | cons op rest ih =>
    obtain ⟨value, e', d', probs', fits, decode, encode, first, inner'⟩ :=
      op_same (bounded op List.mem_cons_self) valid inner d
    obtain ⟨values, e'', d'', probs'', length, restFits, decodes, encodes, second⟩ :=
      ih (fun op member => bounded op (List.mem_cons_of_mem _ member)) first.valid inner' d'
    refine ⟨value :: values, e'', d'', probs'', congrArg (· + 1) length, ?_, ?_, ?_, ?_⟩
    · intro coded member
      rcases List.mem_cons.mp member with rfl | later
      · exact fits
      · exact restFits coded later
    · rw [decodeScript, decode]
      simp only [decodes]
    · rw [List.zip_cons_cons, encodeScript, encode]
      exact encodes
    · refine (first.trans second).mono fun below => ?_
      rw [scriptBelow, decode] at below
      exact below

end Scripts

/-! ## Exact decoding -/

section Exact

variable {κ τ : Type} [DecidableEq κ] [DecidableEq τ]

theorem iterate_shiftIn_readValue (bytes : Bytes) (range n : Nat) (early : n ≤ 4) :
    Decoder.shiftIn^[n] ⟨0, range, bytes, 0⟩ = ⟨readValue bytes n, range, bytes, n⟩ := by
  induction n with
  | zero => rfl
  | succ n ih =>
    have size : 256 ^ (n + 1) ≤ 256 ^ 4 := Nat.pow_le_pow_right (by decide) early
    have below := readValue_lt bytes n
    rw [Nat.pow_succ] at size
    rw [Function.iterate_succ_apply', ih (by omega)]
    show (⟨readValue bytes n <<< 8 % 2 ^ 32 + (bytes.getD n 0).toNat, range, bytes, n + 1⟩ :
      Decoder) = _
    rw [readValue, Nat.shiftLeft_eq, Nat.mod_eq_of_lt (by omega), Nat.mul_comm]

theorem new_eq (bytes : Bytes) :
    Decoder.new bytes = ⟨readValue bytes 4, 2 ^ 32 - 1, bytes, 4⟩ :=
  iterate_shiftIn_readValue bytes (2 ^ 32 - 1) 4 (Nat.le_refl 4)

/-- The code is below the range at every decision: the first four bytes are not all `0xFF`, and
no raw bit finds the code beyond both halves of an odd range. -/
def CodeBelow (ops : List (Op κ τ)) (bytes : Bytes) : Prop :=
  readValue bytes 4 < 2 ^ 32 - 1 ∧ scriptBelow ops (.new bytes) (Probs.initial : Probs κ τ)

/-- What decodes exactly with the code below the range is what the encoder writes. -/
theorem finish_of_below {ops : List (Op κ τ)} (bounded : ∀ op ∈ ops, op.Bounded) {bytes : Bytes}
    (finished : (decoded ops bytes).2.1.finishedExactly = true) (below : CodeBelow ops bytes) :
    bytes = (coded (ops.zip (decoded ops bytes).1)).1.finish := by
  obtain ⟨first, rest⟩ := below
  obtain ⟨values, e, d, probs, _, _, decodes, encodes, same⟩ :=
    script_same ops bounded Encoder.valid_new inner_initial (.new bytes)
  have shown : decoded ops bytes = (values, d, probs) := decodes
  have shown' : coded (ops.zip values) = (e, probs) := encodes
  rw [shown] at finished ⊢
  rw [shown']
  obtain ⟨atEnd, empty⟩ := of_decide_eq_true finished
  have start : Mirrors bytes .new (.new bytes) := by
    rw [new_eq]
    exact ⟨rfl, first, Nat.zero_add _, rfl, rfl⟩
  obtain ⟨_, _, code, pos, input⟩ := same.mirrors rest bytes start
  rw [empty, Nat.add_zero, atEnd, input, readValue_eq bytes (Nat.le_refl _), List.take_length] at code
  have length : bytes.length = e.interval.places + 4 := by rw [← pos, atEnd, input]
  have small : e.interval.low < 2 ^ 32 * 256 ^ e.interval.places := by
    have bound := beValue_lt bytes
    rw [← code, length, Nat.pow_add, Nat.mul_comm] at bound
    exact bound
  obtain ⟨_, value, size⟩ := Encoder.finish_spec same.valid.toSound.carryFits small
  exact beValue_inj (length.trans size.symm) (code.symm.trans value.symm)

/-- On the encoder's bytes the code is below the range. -/
theorem below_of_finish {script : List (Op κ τ × Nat)} (fits : ScriptFits script) :
    CodeBelow (script.map Prod.fst) (coded script).1.finish := by
  obtain ⟨_, value, length, low, _, below, _⟩ := coded_spec script fits
  refine ⟨?_, below⟩
  have front := beValue_append ((coded script).1.finish.take 4) ((coded script).1.finish.drop 4)
  rw [List.take_append_drop, value, List.length_drop, length, Nat.add_sub_cancel] at front
  rw [readValue_eq _ (by omega)]
  exact Nat.lt_of_mul_lt_mul_right (Nat.lt_of_le_of_lt (by omega) low)

/-- **Which byte strings decode exactly.**  If a script decodes from a byte string exactly, the
string is what the encoder writes for the values if and only if the code was below the range at
every decision. -/
theorem exact_canonical_iff (ops : List (Op κ τ)) (bounded : ∀ op ∈ ops, op.Bounded) (bytes : Bytes)
    (finished : (decoded ops bytes).2.1.finishedExactly = true) :
    bytes = (coded (ops.zip (decoded ops bytes).1)).1.finish ↔ CodeBelow ops bytes := by
  constructor
  · intro same
    obtain ⟨values, e, d, probs, length, fits, decodes, _, _⟩ :=
      script_same ops bounded Encoder.valid_new inner_initial (.new bytes)
    have shown : decoded ops bytes = (values, d, probs) := decodes
    rw [shown] at same
    have below := below_of_finish fits
    rw [← same, List.map_fst_zip (by omega)] at below
    exact below
  · exact finish_of_below bounded finished

end Exact

/-! ## Eight raw bits -/

def eightBits : List (Op Unit Unit) := [.direct 8]

theorem eightBits_bounded : ∀ op ∈ eightBits, op.Bounded := by
  intro op member
  rw [List.mem_singleton.mp member]
  exact (by decide : 8 ≤ 32)

/-- The string of the encoder, and one whose last raw bit finds the code beyond its range. -/
theorem eightBits_decoded :
    (decoded eightBits [0xFE, 0xFF, 0xFF, 0xF8, 0]).1 = [255] ∧
    (decoded eightBits [0xFE, 0xFF, 0xFF, 0xF8, 0]).2.1.finishedExactly = true ∧
    (decoded eightBits [0xFF, 0xFF, 0xFF, 0xF8, 0]).1 = [255] ∧
    (decoded eightBits [0xFF, 0xFF, 0xFF, 0xF8, 0]).2.1.finishedExactly = true := by
  have own : readValue [0xFE, 0xFF, 0xFF, 0xF8, 0] 4 = 4278190072 := by decide
  have foreign : readValue [0xFF, 0xFF, 0xFF, 0xF8, 0] 4 = 4294967288 := by decide
  rw [decoded, decoded, new_eq, new_eq, own, foreign]
  simp [eightBits, decodeScript, Op.decode, Decoder.direct, Decoder.directLoop, Decoder.renorm,
    TOP, Decoder.shiftIn, Decoder.finishedExactly]

theorem eightBits_below : CodeBelow eightBits [0xFE, 0xFF, 0xFF, 0xF8, 0] := by
  have own : readValue [0xFE, 0xFF, 0xFF, 0xF8, 0] 4 = 4278190072 := by decide
  unfold CodeBelow
  rw [new_eq, own]
  simp [eightBits, scriptBelow, Op.RawBelow, Decoder.RawBelow, Decoder.rawNext, Decoder.rawBit,
    Decoder.renorm, TOP]

theorem eightBits_not_below : ¬ CodeBelow eightBits [0xFF, 0xFF, 0xFF, 0xF8, 0] := by
  have foreign : readValue [0xFF, 0xFF, 0xFF, 0xF8, 0] 4 = 4294967288 := by decide
  unfold CodeBelow
  rw [new_eq, foreign]
  simp [eightBits, scriptBelow, Op.RawBelow, Decoder.RawBelow, Decoder.rawNext, Decoder.rawBit,
    Decoder.renorm, TOP]

theorem exact_canonical_iff_eightBits :
    [0xFE, 0xFF, 0xFF, 0xF8, 0] = (coded (eightBits.zip [255])).1.finish := by
  obtain ⟨values, finished, _⟩ := eightBits_decoded
  have same := (exact_canonical_iff eightBits eightBits_bounded [0xFE, 0xFF, 0xFF, 0xF8, 0]
    finished).mpr eightBits_below
  rwa [values] at same

/-- Two strings decode exactly to the same value; the encoder writes one of them. -/
theorem foreign_string_exact :
    (decoded eightBits [0xFE, 0xFF, 0xFF, 0xF8, 0]).1 = [255] ∧
    (decoded eightBits [0xFE, 0xFF, 0xFF, 0xF8, 0]).2.1.finishedExactly = true ∧
    (decoded eightBits [0xFF, 0xFF, 0xFF, 0xF8, 0]).1 = [255] ∧
    (decoded eightBits [0xFF, 0xFF, 0xFF, 0xF8, 0]).2.1.finishedExactly = true ∧
    ([0xFF, 0xFF, 0xFF, 0xF8, 0] : Bytes) ≠ (coded (eightBits.zip [255])).1.finish := by
  obtain ⟨own, ownExact, foreign, foreignExact⟩ := eightBits_decoded
  refine ⟨own, ownExact, foreign, foreignExact, fun same => ?_⟩
  have below := @below_of_finish Unit Unit _ _ (eightBits.zip [255]) (by decide)
  rw [← same] at below
  exact eightBits_not_below below

end OneLink.Compress
