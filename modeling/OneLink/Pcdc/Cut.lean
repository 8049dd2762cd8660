/-
# Pcdc.Cut — a cut is the first hit of the chunk's own hash

`cut` looks at the hash of the chunk for 63 positions and at the candidates of the whole
buffer from there on.  A 64-bit hash has forgotten a byte after 64 more, so the two agree
(`foldl_roll_forgets`) and the cut is what the serial scanner finds (`cut_eq`): it depends
on the bytes of the chunk only, on `max_size` of them at most, and a prefix moves it to the
prefix's end or not at all.
-/
import OneLink.Pcdc.Scanner
import OneLink.Library.PrefixCut

namespace OneLink.Pcdc

open Library

set_option autoImplicit false

variable (F : FastCdc)

/-! ## The rolling hash -/

/-- The gear values of the bytes, each shifted by the bytes after it. -/
def gearSum : Bytes → Nat
  | [] => 0
  | b :: rest => (F.gear b).toNat * 2 ^ rest.length + gearSum rest

theorem toNat_foldl_roll (bytes : Bytes) (h : UInt64) :
    (bytes.foldl (roll F) h).toNat ≡ h.toNat * 2 ^ bytes.length + gearSum F bytes [MOD 2 ^ 64] := by
  induction bytes generalizing h with
  | nil => simp [gearSum, Nat.ModEq]
  | cons b rest ih =>
    have rolled : (roll F h b).toNat ≡ h.toNat * 2 + (F.gear b).toNat [MOD 2 ^ 64] := by
      simp [roll, Nat.ModEq, UInt64.toNat_add, UInt64.toNat_shiftLeft, Nat.shiftLeft_eq]
    calc (rest.foldl (roll F) (roll F h b)).toNat
        ≡ (roll F h b).toNat * 2 ^ rest.length + gearSum F rest [MOD 2 ^ 64] := ih _
      _ ≡ (h.toNat * 2 + (F.gear b).toNat) * 2 ^ rest.length + gearSum F rest [MOD 2 ^ 64] :=
          (rolled.mul_right _).add_right _
      _ = h.toNat * 2 ^ (b :: rest).length + gearSum F (b :: rest) := by
          rw [gearSum, List.length_cons, Nat.pow_succ]
          ring

/-- After 64 bytes a hash has forgotten where it started. -/
theorem foldl_roll_forgets {bytes : Bytes} (long : 64 ≤ bytes.length) (h h' : UInt64) :
    bytes.foldl (roll F) h = bytes.foldl (roll F) h' := by
  have shifted (k : UInt64) : (bytes.foldl (roll F) k).toNat ≡ gearSum F bytes [MOD 2 ^ 64] := by
    have gone : k.toNat * 2 ^ bytes.length ≡ 0 [MOD 2 ^ 64] :=
      Nat.modEq_zero_iff_dvd.mpr ((Nat.pow_dvd_pow 2 long).mul_left _)
    simpa using (toNat_foldl_roll F bytes k).trans (gone.add_right _)
  have same := (shifted h).trans (shifted h').symm
  rw [Nat.ModEq, Nat.mod_eq_of_lt (UInt64.toNat_lt _), Nat.mod_eq_of_lt (UInt64.toNat_lt _)] at same
  exact UInt64.toNat_inj.mp same

/-! ## Slices -/

theorem length_slice (buffer : Bytes) (start stop : Nat) :
    (slice buffer start stop).length = min stop buffer.length - start := by
  rw [slice, List.length_drop, List.length_take]

theorem slice_append (buffer : Bytes) {start mid stop : Nat} (early : start ≤ mid)
    (late : mid ≤ stop) : slice buffer start mid ++ slice buffer mid stop = slice buffer start stop := by
  unfold slice
  rw [List.drop_take, List.drop_take, List.drop_take,
    show stop - start = (mid - start) + (stop - mid) by omega, List.take_add, List.drop_drop,
    show start + (mid - start) = mid by omega]

theorem slice_drop (buffer : Bytes) (base start stop : Nat) :
    slice (buffer.drop base) start stop = slice buffer (base + start) (base + stop) := by
  unfold slice
  rw [List.drop_take, List.drop_take, List.drop_drop, Nat.add_sub_add_left]

theorem slice_take (buffer : Bytes) {start stop w : Nat} (within : stop ≤ w) :
    slice (buffer.take w) start stop = slice buffer start stop := by
  rw [slice, slice, List.take_take, Nat.min_eq_left within]

theorem slice_succ {buffer : Bytes} {start pos : Nat} (from_ : start ≤ pos)
    (within : pos < buffer.length) :
    slice buffer start (pos + 1) = slice buffer start pos ++ [buffer.getD pos 0] := by
  rw [← slice_append buffer from_ (Nat.le_succ pos)]
  congr 1
  unfold slice
  rw [List.drop_take, show pos.succ - pos = 1 by omega, List.getD_eq_getElem?_getD,
    List.getElem?_eq_getElem within, List.drop_eq_getElem_cons within]
  rfl

theorem slice_slice (content : Bytes) (start : Nat) {n a b : Nat} (within : b ≤ n) :
    slice (slice content start (start + n)) a b = slice content (start + a) (start + b) := by
  rw [slice, slice, slice, List.take_drop, List.take_take, Nat.min_eq_left (by omega), List.drop_drop]

theorem getD_slice {content : Bytes} {start n i : Nat} (within : i < n) :
    (slice content start (start + n)).getD i 0 = content.getD (start + i) 0 := by
  rw [slice, List.getD_eq_getElem?_getD, List.getD_eq_getElem?_getD, List.getElem?_drop,
    List.getElem?_take_of_lt (by omega)]

/-! ## The first hit in a range -/

def firstHit (hit : Nat → Bool) (lo hi : Nat) : Option Nat := (List.range' lo (hi - lo)).find? hit

theorem firstHit_eq_some {hit : Nat → Bool} {lo hi pos : Nat} :
    firstHit hit lo hi = some pos ↔
      hit pos = true ∧ lo ≤ pos ∧ pos < hi ∧ ∀ q, lo ≤ q → q < pos → hit q = false := by
  rw [firstHit, List.find?_range'_eq_some, List.mem_range'_1]
  constructor
  · rintro ⟨hits, ⟨low, high⟩, before⟩
    exact ⟨hits, low, by omega, fun q above below => by simpa using before q above below⟩
  · rintro ⟨hits, low, high, before⟩
    exact ⟨hits, ⟨low, by omega⟩, fun q above below => by simpa using before q above below⟩

theorem firstHit_eq_none {hit : Nat → Bool} {lo hi : Nat} :
    firstHit hit lo hi = none ↔ ∀ q, lo ≤ q → q < hi → hit q = false := by
  rw [firstHit, List.find?_eq_none]
  simp only [List.mem_range'_1, and_imp, Bool.not_eq_true]
  constructor
  · exact fun none q low high => none q low (by omega)
  · exact fun none q low high => none q low (by omega)

theorem firstHit_split (hit : Nat → Bool) {lo mid hi : Nat} (early : lo ≤ mid) (late : mid ≤ hi) :
    firstHit hit lo hi = (firstHit hit lo mid).or (firstHit hit mid hi) := by
  unfold firstHit
  rw [show hi - lo = (mid - lo) + (hi - mid) by omega, ← List.range'_append_1, List.find?_append,
    show lo + (mid - lo) = mid by omega]

theorem firstHit_congr {hit hit' : Nat → Bool} {lo hi : Nat}
    (same : ∀ q, lo ≤ q → q < hi → hit q = hit' q) : firstHit hit lo hi = firstHit hit' lo hi := by
  cases found : firstHit hit' lo hi with
  | none =>
    rw [firstHit_eq_none] at found ⊢
    intro q low high
    rw [same q low high, found q low high]
  | some pos =>
    rw [firstHit_eq_some] at found ⊢
    obtain ⟨hits, low, high, before⟩ := found
    refine ⟨by rw [same pos low high, hits], low, high, fun q above below => ?_⟩
    rw [same q above (by omega), before q above below]

theorem firstHit_empty (hit : Nat → Bool) {lo hi : Nat} (empty : hi ≤ lo) :
    firstHit hit lo hi = none := by
  rw [firstHit_eq_none]
  omega

/-! ## Candidates -/

theorem mem_candidatesFrom {mask : UInt64} {bytes : Bytes} {h : UInt64} {pos q : Nat} :
    q ∈ candidatesFrom F mask h pos bytes ↔
      ∃ i, i < bytes.length ∧ q = pos + i ∧ (bytes.take (i + 1)).foldl (roll F) h &&& mask = 0 := by
  induction bytes generalizing h pos with
  | nil => simp [candidatesFrom]
  | cons b rest ih =>
    have later : q ∈ candidatesFrom F mask (roll F h b) (pos + 1) rest ↔
        ∃ i, i + 1 < (b :: rest).length ∧ q = pos + (i + 1) ∧
          ((b :: rest).take (i + 1 + 1)).foldl (roll F) h &&& mask = 0 := by
      rw [ih]
      simp only [List.length_cons, Nat.add_lt_add_iff_right, List.take_succ_cons,
        List.foldl_cons, Nat.add_assoc, Nat.add_comm 1]
    have here : (((b :: rest).take (0 + 1)).foldl (roll F) h) = roll F h b := rfl
    rw [candidatesFrom]
    constructor
    · intro present
      split at present
      · next hits =>
        rcases List.mem_cons.mp present with rfl | after
        · exact ⟨0, by simp, rfl, hits⟩
        · obtain ⟨i, found⟩ := later.mp after
          exact ⟨i + 1, found⟩
      · obtain ⟨i, found⟩ := later.mp present
        exact ⟨i + 1, found⟩
    · rintro ⟨i, within, rfl, hits⟩
      cases i with
      | zero =>
        rw [here] at hits
        rw [if_pos hits]
        exact List.mem_cons_self
      | succ i =>
        have after := later.mpr ⟨i, within, rfl, hits⟩
        split
        · exact List.mem_cons_of_mem _ after
        · exact after

theorem candidatesFrom_sorted (mask : UInt64) (bytes : Bytes) (h : UInt64) (pos : Nat) :
    (candidatesFrom F mask h pos bytes).Pairwise (· < ·) := by
  induction bytes generalizing h pos with
  | nil => exact .nil
  | cons b rest ih =>
    rw [candidatesFrom]
    split
    · refine List.pairwise_cons.mpr ⟨fun q present => ?_, ih _ _⟩
      obtain ⟨i, -, rfl, -⟩ := (mem_candidatesFrom F).mp present
      omega
    · exact ih _ _

/-- The hash of a segment's bytes, and of `WINDOW` bytes before them, up to a position. -/
def segmentHash (buffer : Bytes) (lo pos : Nat) : UInt64 :=
  (slice buffer (lo - window) (pos + 1)).foldl (roll F) 0

theorem mem_segmentCandidates {mask : UInt64} {buffer : Bytes} {lo q : Nat} :
    q ∈ segmentCandidates F mask buffer lo ↔
      lo ≤ q ∧ q < min (lo + segment) buffer.length ∧ segmentHash F buffer lo q &&& mask = 0 := by
  have read (i : Nat) (within : lo + i < min (lo + segment) buffer.length) :
      ((slice buffer lo (min (lo + segment) buffer.length)).take (i + 1)).foldl (roll F)
        ((slice buffer (lo - window) lo).foldl (roll F) 0) = segmentHash F buffer lo (lo + i) := by
    have front : (slice buffer lo (min (lo + segment) buffer.length)).take (i + 1) =
        slice buffer lo (lo + i + 1) := by
      rw [slice, slice, List.drop_take, List.drop_take, List.take_take]
      congr 1
      omega
    rw [front, segmentHash, ← slice_append buffer (Nat.sub_le lo window) (show lo ≤ lo + i + 1 by omega),
      List.foldl_append]
  rw [segmentCandidates, mem_candidatesFrom, length_slice]
  constructor
  · rintro ⟨i, within, rfl, hits⟩
    rw [read i (by omega)] at hits
    exact ⟨by omega, by omega, hits⟩
  · rintro ⟨low, high, hits⟩
    obtain ⟨i, rfl⟩ := Nat.exists_eq_add_of_le low
    rw [← read i high] at hits
    exact ⟨i, by omega, rfl, hits⟩

theorem mem_candidates {mask : UInt64} {buffer : Bytes} {q : Nat} :
    q ∈ candidates F mask buffer ↔
      q < buffer.length ∧ segmentHash F buffer (q / segment * segment) q &&& mask = 0 := by
  have positive : 0 < segment := by decide
  simp only [candidates, segmentStarts, List.mem_flatMap, List.mem_map, List.mem_range,
    mem_segmentCandidates]
  constructor
  · rintro ⟨lo, ⟨i, -, rfl⟩, low, high, hits⟩
    have same : q / segment = i := by
      rw [Nat.div_eq_iff positive]
      omega
    rw [same]
    exact ⟨by omega, hits⟩
  · rintro ⟨within, hits⟩
    have low := Nat.div_mul_le_self q segment
    have high := Nat.lt_div_mul_add positive (a := q)
    refine ⟨q / segment * segment, ⟨q / segment, ?_, rfl⟩, low, by omega, hits⟩
    rw [Nat.lt_div_iff_mul_lt positive]
    omega

theorem candidates_sorted (mask : UInt64) (buffer : Bytes) :
    (candidates F mask buffer).Pairwise (· < ·) := by
  rw [candidates, List.pairwise_flatMap]
  refine ⟨fun lo _ => candidatesFrom_sorted F mask _ _ _, ?_⟩
  rw [segmentStarts, List.pairwise_map]
  refine List.pairwise_lt_range.imp fun {i j} before q first r second => ?_
  have bound := ((mem_segmentCandidates F).mp first).2.1
  have start := ((mem_segmentCandidates F).mp second).1
  have gap : (i + 1) * segment ≤ j * segment := Nat.mul_le_mul_right segment before
  rw [Nat.succ_mul] at gap
  omega

/-- On ascending candidates `first_in` finds the first one of the range. -/
theorem firstIn_eq {cands : List Nat} (sorted : cands.Pairwise (· < ·)) (lo hi : Nat) :
    firstIn cands lo hi = firstHit (fun q => decide (q ∈ cands)) lo hi := by
  induction sorted with
  | nil =>
    refine (firstHit_eq_none.mpr ?_).symm
    simp
  | @cons q rest below sorted ih =>
    by_cases early : q < lo
    · have skipped : firstIn (q :: rest) lo hi = firstIn rest lo hi := by
        simp [firstIn, List.dropWhile, early]
      rw [skipped, ih]
      refine firstHit_congr fun r low _ => ?_
      have other : r ≠ q := by omega
      simp [other]
    · have found : firstIn (q :: rest) lo hi = if q < hi then some q else none := by
        simp [firstIn, List.dropWhile, early, Option.filter]
      rw [found]
      split
      · next inside =>
        refine (firstHit_eq_some.mpr ⟨by simp, by omega, inside, fun r _ before => ?_⟩).symm
        have absent : r ∉ rest := fun present => absurd (below r present) (by omega)
        simp [absent, show r ≠ q by omega]
      · next outside =>
        refine (firstHit_eq_none.mpr fun r _ before => ?_).symm
        have absent : r ∉ rest := fun present => absurd (below r present) (by omega)
        simp [absent, show r ≠ q by omega]

/-! ## The serial rule -/

variable (p : CdcParams)

/-- Where the hash of a chunk begins. -/
def first : Nat := p.minSize / 2 * 2

/-- Where the larger mask takes over, with `available` bytes from the chunk's start. -/
def switchAt (available : Nat) : Nat := max (min available p.avgSize / 2 * 2) (first p)

/-- The hash of the chunk's own bytes meets the mask of this position. -/
def hit (bytes : Bytes) (pos : Nat) : Bool :=
  (slice bytes (first p) (pos + 1)).foldl (roll F) 0 &&&
    (if pos < switchAt p bytes.length then maskS F p else maskL F p) = 0

/-- The length of the next chunk of `bytes`: `fastcdc::v2020::cut_gear`. -/
def serialCut (bytes : Bytes) : Nat :=
  if bytes.length ≤ p.minSize then bytes.length
  else
    (firstHit (hit F p bytes) (first p) (min bytes.length p.maxSize / 2 * 2)).getD
      (min bytes.length p.maxSize)

variable {p}

theorem regionA_eq {buffer : Bytes} {start fuel pos : Nat}
    (within : start + (pos + fuel) ≤ buffer.length) (begun : first p ≤ pos) :
    regionA F (maskS F p) (maskL F p) buffer start (switchAt p (buffer.length - start)) fuel
        ((slice (buffer.drop start) (first p) pos).foldl (roll F) 0) pos =
      firstHit (hit F p (buffer.drop start)) pos (pos + fuel) := by
  induction fuel generalizing pos with
  | zero => exact (firstHit_empty _ (Nat.le_refl _)).symm
  | succ fuel ih =>
    have inside : pos < (buffer.drop start).length := by
      rw [List.length_drop]
      omega
    have rolled : roll F ((slice (buffer.drop start) (first p) pos).foldl (roll F) 0)
        (buffer.getD (start + pos) 0) =
        (slice (buffer.drop start) (first p) (pos + 1)).foldl (roll F) 0 := by
      rw [slice_succ begun inside, List.foldl_append, List.foldl_cons, List.foldl_nil,
        List.getD_eq_getElem?_getD, List.getD_eq_getElem?_getD, List.getElem?_drop]
    have here : firstHit (hit F p (buffer.drop start)) pos (pos + 1) =
        if hit F p (buffer.drop start) pos then some pos else none := by
      rw [firstHit, Nat.add_sub_cancel_left, List.range'_one, List.find?_singleton]
    rw [firstHit_split _ (Nat.le_succ pos) (show pos + 1 ≤ pos + (fuel + 1) by omega), here,
      show pos + (fuel + 1) = pos + 1 + fuel by omega, ← ih (by omega) (by omega)]
    simp only [regionA, rolled]
    by_cases hits : hit F p (buffer.drop start) pos = true
    · have now := hits
      simp only [hit, List.length_drop, decide_eq_true_eq] at now
      rw [if_pos now, if_pos hits, Option.some_or]
    · have now := hits
      simp only [hit, List.length_drop, decide_eq_true_eq] at now
      rw [if_neg now, if_neg hits, Option.none_or]

/-- Past the first 63 positions the candidates of the buffer are the hits of the chunk. -/
theorem firstIn_candidates {mask : UInt64} {buffer : Bytes} {start lo hi : Nat}
    (within : start + hi ≤ buffer.length) (far : first p + window ≤ lo)
    (mask_eq : ∀ pos, lo ≤ pos → pos < hi →
      (if pos < switchAt p (buffer.length - start) then maskS F p else maskL F p) = mask) :
    (firstIn (candidates F mask buffer) (start + lo) (start + hi)).map (· - start) =
      firstHit (hit F p (buffer.drop start)) lo hi := by
  have same (pos : Nat) (low : lo ≤ pos) (high : pos < hi) :
      decide (start + pos ∈ candidates F mask buffer) = hit F p (buffer.drop start) pos := by
    have forgets : segmentHash F buffer ((start + pos) / segment * segment) (start + pos) =
        (slice (buffer.drop start) (first p) (pos + 1)).foldl (roll F) 0 := by
      have block := Nat.div_mul_le_self (start + pos) segment
      -- both hashes end with the 64 bytes up to this position
      have tail (lo : Nat) (before : lo ≤ start + pos - window) :
          (slice buffer lo (start + pos + 1)).foldl (roll F) 0 =
            (slice buffer (start + pos - window) (start + pos + 1)).foldl (roll F) 0 := by
        rw [← slice_append buffer before (by omega), List.foldl_append]
        apply foldl_roll_forgets
        rw [length_slice]
        have : window = 63 := rfl
        omega
      rw [segmentHash, slice_drop, tail _ (by omega), ← Nat.add_assoc, tail (start + first p) (by omega)]
    simp only [mem_candidates, forgets, hit, List.length_drop, mask_eq pos low high,
      show start + pos < buffer.length by omega, true_and]
  rw [firstIn_eq (candidates_sorted F mask buffer)]
  cases found : firstHit (hit F p (buffer.drop start)) lo hi with
  | none =>
    rw [firstHit_eq_none] at found
    rw [Option.map_eq_none_iff, firstHit_eq_none]
    intro q low high
    obtain ⟨pos, rfl⟩ := Nat.exists_eq_add_of_le (show start ≤ q by omega)
    rw [same pos (by omega) (by omega), found pos (by omega) (by omega)]
  | some pos =>
    rw [firstHit_eq_some] at found
    obtain ⟨hits, low, high, before⟩ := found
    rw [Option.map_eq_some_iff]
    refine ⟨start + pos, firstHit_eq_some.mpr ⟨?_, by omega, by omega, ?_⟩, by omega⟩
    · rw [same pos low high, hits]
    · intro q above below
      obtain ⟨r, rfl⟩ := Nat.exists_eq_add_of_le (show start ≤ q by omega)
      rw [same r (by omega) (by omega), before r (by omega) (by omega)]

/-- `cut` finds the chunk the serial scanner finds. -/
theorem cut_eq (ordered : p.minSize < p.avgSize ∧ p.avgSize < p.maxSize) (buffer : Bytes)
    (start : Nat) :
    cut F p buffer start (candidates F (maskS F p) buffer) (candidates F (maskL F p) buffer) =
      serialCut F p (buffer.drop start) := by
  by_cases short : buffer.length - start ≤ p.minSize
  · simp only [cut, serialCut, List.length_drop, if_pos short]
  have remaining : (if buffer.length - start > p.maxSize then p.maxSize else buffer.length - start) =
      min (buffer.length - start) p.maxSize := by
    split <;> omega
  have center : (if buffer.length - start > p.maxSize then p.avgSize
      else if buffer.length - start < p.avgSize then buffer.length - start else p.avgSize) =
      min (buffer.length - start) p.avgSize := by
    split
    · omega
    · split <;> omega
  have first_def : p.minSize / 2 * 2 = first p := rfl
  have switch_def : max (min (buffer.length - start) p.avgSize / 2 * 2) (first p) =
      switchAt p (buffer.length - start) := rfl
  simp only [cut, serialCut, List.length_drop, if_neg short, remaining, center, first_def, switch_def]
  congr 1
  have first_le : first p ≤ p.minSize := Nat.div_mul_le_self _ _
  have switch_le : switchAt p (buffer.length - start) ≤
      min (buffer.length - start) p.maxSize / 2 * 2 := by
    unfold switchAt first
    omega
  have first_switch : first p ≤ switchAt p (buffer.length - start) := Nat.le_max_right _ _
  have inside : start + min (buffer.length - start) p.maxSize / 2 * 2 ≤ buffer.length := by omega
  generalize min (buffer.length - start) p.maxSize / 2 * 2 = stop at switch_le inside ⊢
  generalize aEnd_def : min (first p + window) stop = aEnd
  have within : start + (first p + (aEnd - first p)) ≤ buffer.length := by omega
  have inA := regionA_eq F within (Nat.le_refl (first p))
  have none_yet : slice (buffer.drop start) (first p) (first p) = [] := by
    rw [← List.length_eq_zero_iff, length_slice]
    omega
  rw [none_yet, List.foldl_nil, show first p + (aEnd - first p) = aEnd by omega] at inA
  have below : (if aEnd < max (switchAt p (buffer.length - start)) aEnd then
        (firstIn (candidates F (maskS F p) buffer) (start + aEnd)
          (start + max (switchAt p (buffer.length - start)) aEnd)).map (· - start) else none) =
      firstHit (hit F p (buffer.drop start)) aEnd
        (max (switchAt p (buffer.length - start)) aEnd) := by
    split
    · exact firstIn_candidates F (by omega) (by omega) fun pos _ high => if_pos (by omega)
    · exact (firstHit_empty _ (by omega)).symm
  have above : (if max (switchAt p (buffer.length - start)) aEnd < stop then
        (firstIn (candidates F (maskL F p) buffer)
          (start + max (switchAt p (buffer.length - start)) aEnd) (start + stop)).map (· - start)
        else none) =
      firstHit (hit F p (buffer.drop start)) (max (switchAt p (buffer.length - start)) aEnd)
        stop := by
    split
    · exact firstIn_candidates F inside (by omega) fun pos low _ => if_neg (by omega)
    · exact (firstHit_empty _ (by omega)).symm
  rw [inA, below, above, ← firstHit_split _ (by omega) (by omega),
    ← firstHit_split _ (by omega) (by omega)]

/-! ## Prefixes -/

theorem serialCut_le (bytes : Bytes) : serialCut F p bytes ≤ bytes.length := by
  unfold serialCut
  split
  · exact Nat.le_refl _
  · cases found : firstHit (hit F p bytes) (first p) (min bytes.length p.maxSize / 2 * 2) with
    | none => exact Nat.min_le_left _ _
    | some pos =>
      have high := (firstHit_eq_some.mp found).2.2.1
      rw [Option.getD_some]
      omega

/-- A window of a chunk hits where the chunk does. -/
theorem hit_take (bytes : Bytes) {w pos : Nat}
    (within : pos < min (bytes.take w).length p.maxSize / 2 * 2) :
    hit F p (bytes.take w) pos = hit F p bytes pos := by
  rw [List.length_take] at within
  have switches : pos < switchAt p (bytes.take w).length ↔ pos < switchAt p bytes.length := by
    rw [List.length_take]
    unfold switchAt
    omega
  simp only [hit, slice_take bytes (show pos + 1 ≤ w by omega), switches]

theorem serialCut_far (ordered : p.minSize < p.avgSize ∧ p.avgSize < p.maxSize) (bytes : Bytes)
    {w : Nat} (far : p.maxSize ≤ w) : serialCut F p (bytes.take w) = serialCut F p bytes := by
  by_cases all : bytes.length ≤ w
  · rw [List.take_of_length_le all]
  · have longer : (bytes.take w).length = w := List.length_take_of_le (by omega)
    have reach : min (bytes.take w).length p.maxSize = min bytes.length p.maxSize := by omega
    rw [serialCut, serialCut, if_neg (by omega), if_neg (by omega),
      firstHit_congr fun q _ high => hit_take F bytes high, reach]

theorem serialCut_prefix (ordered : p.minSize < p.avgSize ∧ p.avgSize < p.maxSize) (bytes : Bytes)
    (w : Nat) : serialCut F p (bytes.take w) = serialCut F p bytes ∨
      serialCut F p (bytes.take w) = (bytes.take w).length := by
  by_cases all : bytes.length ≤ w
  · exact .inl (by rw [List.take_of_length_le all])
  by_cases far : p.maxSize ≤ w
  · exact .inl (serialCut_far F ordered bytes far)
  have shorter : (bytes.take w).length = w := List.length_take_of_le (by omega)
  by_cases tiny : w ≤ p.minSize
  · exact .inr (by rw [serialCut, if_pos (by omega)])
  cases found : firstHit (hit F p (bytes.take w)) (first p)
      (min (bytes.take w).length p.maxSize / 2 * 2) with
  | none =>
    right
    rw [serialCut, if_neg (by omega), found]
    exact Nat.min_eq_left (by omega)
  | some pos =>
    left
    have whole := found
    rw [firstHit_congr fun q _ high => hit_take F bytes high] at whole
    have first_le : first p ≤ p.minSize / 2 * 2 := Nat.le_refl _
    rw [serialCut, serialCut, if_neg (by omega), if_neg (by omega), found,
      firstHit_split (hit F p bytes)
        (show first p ≤ min (bytes.take w).length p.maxSize / 2 * 2 by omega)
        (show min (bytes.take w).length p.maxSize / 2 * 2 ≤ min bytes.length p.maxSize / 2 * 2 by omega),
      whole]
    rfl

/-- The serial rule as a rule that may be run on a window. -/
def cutter (ordered : p.minSize < p.avgSize ∧ p.avgSize < p.maxSize) : PrefixCut UInt8 where
  cut := serialCut F p
  reach := p.maxSize
  cut_le := serialCut_le F
  cut_prefix := serialCut_prefix F ordered
  cut_far bytes _ far := serialCut_far F ordered bytes far

/-! ## Empty cuts -/

/-- The cut of these bytes is empty: two bytes or more, of which the first alone meets the
smaller mask, and a minimum that rounds down to none. -/
def EmptyCut (p : CdcParams) (bytes : Bytes) : Prop :=
  p.minSize = 1 ∧ 2 ≤ bytes.length ∧ F.gear (bytes.headD 0) &&& maskS F p = 0

theorem hit_zero (single : p.minSize = 1) (ordered : p.minSize < p.avgSize) {bytes : Bytes}
    (long : 2 ≤ bytes.length) :
    hit F p bytes 0 = decide (F.gear (bytes.headD 0) &&& maskS F p = 0) := by
  have none : first p = 0 := by
    unfold first
    omega
  have below : 0 < switchAt p bytes.length := by
    unfold switchAt
    omega
  have one : slice bytes 0 (0 + 1) = [bytes.headD 0] := by
    cases bytes with
    | nil => cases long
    | cons b rest => rfl
  rw [hit, none, one, if_pos below]
  simp [roll]

theorem serialCut_eq_zero (positive : 0 < p.minSize)
    (ordered : p.minSize < p.avgSize ∧ p.avgSize < p.maxSize) {bytes : Bytes} (some : bytes ≠ []) :
    serialCut F p bytes = 0 ↔ EmptyCut F p bytes := by
  have long := List.length_pos_iff.mpr some
  constructor
  · intro zero
    unfold serialCut at zero
    split at zero
    · omega
    · cases found : firstHit (hit F p bytes) (first p) (min bytes.length p.maxSize / 2 * 2) with
      | none =>
        rw [found, Option.getD_none] at zero
        omega
      | some pos =>
        rw [found, Option.getD_some] at zero
        obtain ⟨hits, low, -, -⟩ := firstHit_eq_some.mp found
        have single : p.minSize = 1 := by
          unfold first at low
          omega
        rw [zero, hit_zero F single ordered.1 (by omega), decide_eq_true_eq] at hits
        exact ⟨single, by omega, hits⟩
  · rintro ⟨single, two, meets⟩
    have none : first p = 0 := by
      unfold first
      omega
    have found : firstHit (hit F p bytes) (first p) (min bytes.length p.maxSize / 2 * 2) = .some 0 := by
      rw [firstHit_eq_some, hit_zero F single ordered.1 two, decide_eq_true_eq]
      exact ⟨meets, by omega, by omega, by omega⟩
    rw [serialCut, if_neg (by omega), found, Option.getD_some]

end OneLink.Pcdc
