/-
# Fountain.Encoder -- neighbour sets and encoded symbols

A source is cut into `k` symbols of one length, the last padded with zeros, and an
encoded symbol is the exclusive or of the source symbols at its neighbours.  The
generator of random numbers and the distribution of degrees enter as a `Sampler`:
one set of neighbours for each symbol id.  Floyd's algorithm makes one from any
draws (`sampled`), and can draw every set of its size (`sampleNeighbors_iff`).
-/
import Mathlib
import OneLink.Library.Checked
import OneLink.Library.XorBytes

namespace OneLink.Fountain

set_option autoImplicit false

open Library

inductive FountainError where
  | invalidSymbolLen (text : String)
  | emptySource
  | sourceTooLarge (got max : Nat)
  | invalidSourceSymbolCount (got max : Nat)
  | symbolLenMismatch (expected got : Nat)
  | incompleteDecode (resolved k : Nat)
  | symbolIdOverflow (got max : Nat)
  | decoderMemoryLimit (got max : Nat)
deriving DecidableEq, Repr

/-- `MAX_SOURCE_SYMBOLS_PER_CHUNK`. -/
def maxSourceSymbolsPerChunk : Nat := 1024

/-- `MAX_SOURCE_BYTES`. -/
def maxSourceBytes : Nat := 1024 * 1024

/-- `PACKET_HEADER_LEN`. -/
def packetHeaderLen : Nat := 44

/-- `MAX_SYMBOL_LEN`. -/
def maxSymbolLen : Nat := maxSourceBytes - packetHeaderLen

/-! ## Neighbours -/

/-- A fixed set of source indexes for each symbol id. -/
structure Sampler (k : Nat) where
  neighbors : Nat → List Nat
  nonempty : ∀ id, neighbors id ≠ []
  distinct : ∀ id, (neighbors id).Nodup
  inside : ∀ id, ∀ n ∈ neighbors id, n < k

/-- The rounds of `sample_neighbors` still to run, at `j`; `draw j` is the number drawn below `j + 1`. -/
def sampleRounds (draw : Nat → Nat) : Nat → Nat → List Nat → List Nat
  | 0, _, chosen => chosen
  | rounds + 1, j, chosen =>
    let r := draw j
    sampleRounds draw rounds (j + 1)
      (if r ∈ chosen then chosen.orderedInsert (· ≤ ·) j else chosen.orderedInsert (· ≤ ·) r)

/-- `sample_neighbors`. -/
def sampleNeighbors (k d : Nat) (draw : Nat → Nat) : List Nat :=
  let d := min d k
  sampleRounds draw d (k - d) []

theorem sampleRounds_spec {draw : Nat → Nat} (below : ∀ j, draw j < j + 1) (rounds j : Nat)
    {chosen : List Nat} (sorted : chosen.Pairwise (· < ·)) (small : ∀ n ∈ chosen, n < j) :
    (sampleRounds draw rounds j chosen).Pairwise (· < ·) ∧
      (sampleRounds draw rounds j chosen).length = chosen.length + rounds ∧
      ∀ n ∈ sampleRounds draw rounds j chosen, n < j + rounds := by
  induction rounds generalizing j chosen with
  | zero => exact ⟨sorted, rfl, small⟩
  | succ rounds ih =>
    obtain ⟨r, low, fresh, round⟩ : ∃ r < j + 1, r ∉ chosen ∧
        sampleRounds draw (rounds + 1) j chosen =
          sampleRounds draw rounds (j + 1) (chosen.orderedInsert (· ≤ ·) r) := by
      rw [sampleRounds]
      split
      · exact ⟨j, Nat.lt_succ_self j, fun member => Nat.lt_irrefl j (small j member), rfl⟩
      · next fresh => exact ⟨draw j, below j, fresh, rfl⟩
    have perm := List.perm_orderedInsert (· ≤ ·) r chosen
    have nodup := perm.nodup_iff.2 (List.nodup_cons.2 ⟨fresh, sorted.imp Nat.ne_of_lt⟩)
    have inserted := (((sorted.imp Nat.le_of_lt).orderedInsert r chosen).and nodup).imp
      fun both => lt_of_le_of_ne both.1 both.2
    obtain ⟨sorted', length, small'⟩ := ih (j + 1) inserted fun n member => by
      rcases List.mem_cons.1 (perm.mem_iff.1 member) with rfl | old
      · exact low
      · exact Nat.lt_succ_of_lt (small n old)
    rw [round, length, perm.length_eq, List.length_cons]
    exact ⟨sorted', by omega, fun n member => (small' n member).trans_eq (by omega)⟩

theorem sampleNeighbors_spec (k d : Nat) {draw : Nat → Nat} (below : ∀ j, draw j < j + 1) :
    (sampleNeighbors k d draw).Pairwise (· < ·) ∧ (sampleNeighbors k d draw).length = min d k ∧
      ∀ n ∈ sampleNeighbors k d draw, n < k := by
  simpa [sampleNeighbors, Nat.min_le_right d k] using
    sampleRounds_spec below (min d k) (k - min d k) .nil (by simp)

/-- Draws that increase are the indices drawn. -/
theorem sampleRounds_increasing {draw : Nat → Nat} (rest : List Nat) (j : Nat) {chosen : List Nat}
    (sorted : (chosen ++ rest).Pairwise (· < ·))
    (drawn : ∀ i (h : i < rest.length), draw (j + i) = rest[i]) :
    sampleRounds draw rest.length j chosen = chosen ++ rest := by
  induction rest generalizing j chosen with
  | nil => rw [List.append_nil]; rfl
  | cons r rest ih =>
    have first : draw j = r := drawn 0 (by simp)
    have behind : ∀ n ∈ chosen, ¬ r ≤ n := fun n member =>
      Nat.not_le.2 ((List.pairwise_append.1 sorted).2.2 n member r List.mem_cons_self)
    rw [List.length_cons, sampleRounds, first, if_neg fun member => behind r member le_rfl,
      List.orderedInsert_eq_take_drop, List.takeWhile_eq_self_iff.2 (by simpa using behind),
      List.dropWhile_eq_nil_iff.2 (by simpa using behind), ih (j + 1) (by simpa using sorted),
      List.append_assoc]
    · rfl
    · intro i inside
      rw [Nat.add_right_comm]
      exact drawn (i + 1) (Nat.succ_lt_succ inside)

theorem increasing_room {chosen : List Nat} {k : Nat} (sorted : chosen.Pairwise (· < ·))
    (small : ∀ n ∈ chosen, n < k) (i : Nat) (inside : i < chosen.length) :
    chosen[i] + (chosen.length - i) ≤ k := by
  induction chosen generalizing i with
  | nil => cases inside
  | cons a rest ih =>
    rw [List.pairwise_cons] at sorted
    rw [List.forall_mem_cons] at small
    cases i with
    | zero =>
      cases rest with
      | nil => exact small.1
      | cons b rest =>
        have := ih sorted.2 small.2 0 (by simp)
        have := sorted.1 b List.mem_cons_self
        simp at *
        omega
    | succ i => simpa using ih sorted.2 small.2 i (by simpa using inside)

/-- **Floyd's algorithm draws the sets of `min d k` indices and no others.** -/
theorem sampleNeighbors_iff (k d : Nat) (chosen : List Nat) :
    (∃ draw : Nat → Nat, (∀ j, draw j < j + 1) ∧ sampleNeighbors k d draw = chosen) ↔
      chosen.Pairwise (· < ·) ∧ chosen.length = min d k ∧ ∀ n ∈ chosen, n < k := by
  constructor
  · rintro ⟨draw, below, rfl⟩
    exact sampleNeighbors_spec k d below
  · rintro ⟨sorted, length, small⟩
    refine ⟨fun j => min j (chosen.getD (j - (k - min d k)) 0), fun j =>
      Nat.lt_succ_of_le (Nat.min_le_left _ _), ?_⟩
    rw [sampleNeighbors, ← length]
    refine sampleRounds_increasing chosen _ sorted fun i inside => ?_
    have := increasing_room sorted small i inside
    simp [inside]
    omega

/-- The sampler of the source, over any degrees and any draws in range. -/
def sampled {k : Nat} (positive : 1 ≤ k) (degree : Nat → Nat) (degrees : ∀ id, 1 ≤ degree id)
    (draw : Nat → Nat → Nat) (below : ∀ id j, draw id j < j + 1) : Sampler k where
  neighbors id := sampleNeighbors k (degree id) (draw id)
  nonempty id none := by
    have length := (sampleNeighbors_spec k (degree id) (below id)).2.1
    have := degrees id
    rw [none, List.length_nil] at length
    omega
  distinct id := (sampleNeighbors_spec k (degree id) (below id)).1.imp Nat.ne_of_lt
  inside id := (sampleNeighbors_spec k (degree id) (below id)).2.2

/-! ## The encoder -/

/-- `xor_into`: `none` where it answers `false`. -/
def xorInto (dest src : List UInt8) : Option (List UInt8) :=
  if dest.length ≠ src.length then none else some (xorBytes dest src)

theorem xorInto_of_length {dest src : List UInt8} (length : dest.length = src.length) :
    xorInto dest src = some (xorBytes dest src) := by
  rw [xorInto, if_neg fun other => other length]

structure LtEncoder where
  source : List UInt8
  k : Nat
  symbolLen : Nat
  lastPadded : Option (List UInt8)
deriving DecidableEq, Repr

/-- `usize::div_ceil`. -/
def divCeil (a b : Nat) : Nat := a / b + if a % b = 0 then 0 else 1

/-- `u32::MAX`. -/
def u32Max : Nat := 2 ^ 32 - 1

/-- `LtEncoder::from_cow`, behind `new` and `from_owned`. -/
def LtEncoder.new (source : List UInt8) (symbolLen : Nat) : Except FountainError LtEncoder := do
  require (symbolLen ≠ 0) (.invalidSymbolLen "must be > 0")
  require (symbolLen ≤ maxSymbolLen) (.invalidSymbolLen "must be in 1..=MAX_SYMBOL_LEN")
  require (source ≠ []) .emptySource
  require (source.length ≤ maxSourceBytes) (.sourceTooLarge source.length maxSourceBytes)
  let k := divCeil source.length symbolLen
  require (k ≤ u32Max) (.invalidSourceSymbolCount u32Max maxSourceSymbolsPerChunk)
  require (k ≤ maxSourceSymbolsPerChunk) (.invalidSourceSymbolCount k maxSourceSymbolsPerChunk)
  let tail := source.drop ((k - 1) * symbolLen)
  let lastPadded := if source.length % symbolLen = 0 then none
    else some (tail ++ List.replicate (symbolLen - tail.length) 0)
  return ⟨source, k, symbolLen, lastPadded⟩

/-- `LtEncoder::source_symbol`. -/
def LtEncoder.sourceSymbol (encoder : LtEncoder) (i : Nat) : List UInt8 :=
  let slice := (encoder.source.drop (i * encoder.symbolLen)).take encoder.symbolLen
  if i = encoder.k - 1 then encoder.lastPadded.getD slice else slice

/-- `LtEncoder::encode_symbol`. -/
def LtEncoder.encodeSymbol (encoder : LtEncoder) (sampler : Sampler encoder.k) (symbolId : Nat) :
    List UInt8 :=
  match sampler.neighbors symbolId with
  | [] => []
  | first :: rest =>
    rest.foldl (fun out n => (xorInto out (encoder.sourceSymbol n)).getD out)
      (encoder.sourceSymbol first)

/-! ## What the encoder holds -/

theorem divCeil_spec {a b : Nat} (positive : b ≠ 0) (nonzero : a ≠ 0) :
    0 < divCeil a b ∧ (divCeil a b - 1) * b < a ∧ a ≤ divCeil a b * b := by
  have parts := Nat.div_add_mod' a b
  have rest := Nat.mod_lt a (Nat.pos_of_ne_zero positive)
  rw [divCeil]
  generalize a / b = quotient at parts
  split
  · rename_i whole
    cases quotient with
    | zero => omega
    | succ quotient =>
      rw [Nat.succ_mul] at parts
      rw [Nat.add_zero, Nat.add_sub_cancel, Nat.succ_mul]
      omega
  · rw [Nat.add_sub_cancel, Nat.succ_mul]
    omega

variable {source : List UInt8} {symbolLen : Nat} {encoder : LtEncoder}

/-- What a built encoder knows of its source. -/
structure Cut (source : List UInt8) (symbolLen : Nat) (encoder : LtEncoder) : Prop where
  source_eq : encoder.source = source
  symbolLen_eq : encoder.symbolLen = symbolLen
  positive : 0 < symbolLen
  symbolFits : symbolLen ≤ maxSymbolLen
  sourceFits : source.length ≤ maxSourceBytes
  countPositive : 0 < encoder.k
  countFits : encoder.k ≤ maxSourceSymbolsPerChunk
  before : (encoder.k - 1) * symbolLen < source.length
  covers : source.length ≤ encoder.k * symbolLen
  padded : encoder.lastPadded = none ∧ source.length = encoder.k * symbolLen ∨
    encoder.lastPadded = some (source.drop ((encoder.k - 1) * symbolLen) ++
      List.replicate (encoder.k * symbolLen - source.length) 0)

theorem new_cut (made : LtEncoder.new source symbolLen = .ok encoder) :
    Cut source symbolLen encoder := by
  simp only [LtEncoder.new, bind_eq_ok, require_eq_ok, exists_const, pure_eq_ok_iff] at made
  obtain ⟨positive, symbolFits, nonempty, sourceFits, -, countFits, rfl⟩ := made
  obtain ⟨first, before, covers⟩ := divCeil_spec positive fun none =>
    nonempty (List.length_eq_zero_iff.1 none)
  refine ⟨rfl, rfl, Nat.pos_of_ne_zero positive, symbolFits, sourceFits, first, countFits, before,
    covers, ?_⟩
  by_cases whole : source.length % symbolLen = 0
  · left
    refine ⟨if_pos whole, ?_⟩
    show source.length = divCeil source.length symbolLen * symbolLen
    rw [divCeil, if_pos whole, Nat.add_zero, Nat.div_mul_cancel (Nat.dvd_of_mod_eq_zero whole)]
  · right
    refine (if_neg whole).trans (congrArg Option.some (congrArg _ (congrArg (List.replicate · 0) ?_)))
    have last : (divCeil source.length symbolLen - 1) * symbolLen + symbolLen =
        divCeil source.length symbolLen * symbolLen := by
      rw [← Nat.succ_mul, Nat.succ_eq_add_one, Nat.sub_add_cancel first]
    rw [List.length_drop]
    show symbolLen - (source.length - _) = divCeil source.length symbolLen * symbolLen - source.length
    omega

/-- A symbol before the last is a whole slice of the source. -/
theorem Cut.early_symbol (cut : Cut source symbolLen encoder) {i : Nat} (early : i < encoder.k - 1) :
    encoder.sourceSymbol i = (source.drop (i * symbolLen)).take symbolLen ∧
      (encoder.sourceSymbol i).length = symbolLen := by
  have slice : encoder.sourceSymbol i = (source.drop (i * symbolLen)).take symbolLen := by
    rw [LtEncoder.sourceSymbol, if_neg (by omega), cut.source_eq, cut.symbolLen_eq]
  have room : (i + 1) * symbolLen ≤ (encoder.k - 1) * symbolLen := Nat.mul_le_mul_right _ early
  have before := cut.before
  rw [Nat.succ_mul] at room
  refine ⟨slice, ?_⟩
  rw [slice, List.length_take, List.length_drop]
  omega

/-- The last symbol is the rest of the source and zeros. -/
theorem Cut.last_symbol (cut : Cut source symbolLen encoder) :
    encoder.sourceSymbol (encoder.k - 1) = source.drop ((encoder.k - 1) * symbolLen) ++
      List.replicate (encoder.k * symbolLen - source.length) 0 := by
  rw [LtEncoder.sourceSymbol, if_pos rfl, cut.source_eq, cut.symbolLen_eq]
  rcases cut.padded with ⟨none, whole⟩ | padded
  · have last : (encoder.k - 1) * symbolLen + symbolLen = encoder.k * symbolLen := by
      rw [← Nat.succ_mul, Nat.succ_eq_add_one, Nat.sub_add_cancel cut.countPositive]
    rw [none, Option.getD_none, List.take_of_length_le (by rw [List.length_drop]; omega), whole,
      Nat.sub_self, List.replicate_zero, List.append_nil]
  · rw [padded, Option.getD_some]

theorem Cut.length_sourceSymbol (cut : Cut source symbolLen encoder) {i : Nat}
    (inside : i < encoder.k) : (encoder.sourceSymbol i).length = symbolLen := by
  by_cases early : i < encoder.k - 1
  · exact (cut.early_symbol early).2
  · have isLast : i = encoder.k - 1 := by omega
    have last : (encoder.k - 1) * symbolLen + symbolLen = encoder.k * symbolLen := by
      rw [← Nat.succ_mul, Nat.succ_eq_add_one, Nat.sub_add_cancel cut.countPositive]
    have before := cut.before
    have covers := cut.covers
    rw [isLast, cut.last_symbol, List.length_append, List.length_drop, List.length_replicate]
    omega

theorem Cut.encodeSymbol_eq (cut : Cut source symbolLen encoder) (sampler : Sampler encoder.k)
    (symbolId : Nat) : encoder.encodeSymbol sampler symbolId =
      xorSum symbolLen encoder.sourceSymbol (sampler.neighbors symbolId) := by
  have inside := sampler.inside symbolId
  rw [LtEncoder.encodeSymbol]
  cases neighbors : sampler.neighbors symbolId with
  | nil => exact absurd neighbors (sampler.nonempty symbolId)
  | cons first rest =>
    rw [neighbors] at inside
    have lengths : ∀ n ∈ first :: rest, (encoder.sourceSymbol n).length = symbolLen := fun n member =>
      cut.length_sourceSymbol (inside n member)
    have head := lengths first List.mem_cons_self
    have tail : ∀ n ∈ rest, (encoder.sourceSymbol n).length = symbolLen := fun n later =>
      lengths n (List.mem_cons_of_mem first later)
    have steps : ∀ start : List UInt8, start.length = symbolLen →
        ∀ ns : List Nat, (∀ n ∈ ns, (encoder.sourceSymbol n).length = symbolLen) →
          ns.foldl (fun out n => (xorInto out (encoder.sourceSymbol n)).getD out) start =
            ns.foldl (fun out n => xorBytes out (encoder.sourceSymbol n)) start := by
      intro start length ns
      induction ns generalizing start with
      | nil => intro _; rfl
      | cons n ns ih =>
        intro fits
        have here := fits n List.mem_cons_self
        rw [List.foldl_cons, List.foldl_cons, xorInto_of_length (length.trans here.symm),
          Option.getD_some]
        exact ih _ ((length_xorBytes (length.trans here.symm)).trans here) fun m later =>
          fits m (List.mem_cons_of_mem n later)
    simp only []
    rw [steps _ head rest tail, foldl_xorBytes head tail, xorSum_cons]

/-- The symbols one after the other are the source and its padding. -/
theorem Cut.symbols_source (cut : Cut source symbolLen encoder) :
    ((List.range encoder.k).flatMap encoder.sourceSymbol).take source.length = source := by
  have early : ∀ n ≤ encoder.k - 1,
      (List.range n).flatMap encoder.sourceSymbol = source.take (n * symbolLen) := by
    intro n
    induction n with
    | zero => intro _; rw [Nat.zero_mul]; rfl
    | succ n ih =>
      intro within
      rw [List.range_succ, List.flatMap_append, ih (Nat.le_of_succ_le within),
        List.flatMap_singleton, (cut.early_symbol within).1, Nat.succ_mul, List.take_add]
  have count : encoder.k = encoder.k - 1 + 1 := (Nat.sub_add_cancel cut.countPositive).symm
  rw [count, List.range_succ, List.flatMap_append, early _ (Nat.le_refl _), List.flatMap_singleton,
    cut.last_symbol, ← List.append_assoc, List.take_append_drop, List.take_left' rfl]

end OneLink.Fountain
