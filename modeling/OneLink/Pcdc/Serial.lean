/-
# Pcdc.Serial -- the parallel scanner against the serial one

`cutGear` is the serial scan's rule, `fastcdc::v2020::cut_gear`: two bytes a step, the first of them
tested on a hash that is one shift ahead.  No mask uses the top bit, so that test is the one of the
hash itself (`shifted_meets`), and the two loops find the first position whose hash meets its mask
(`twoBytes_eq`).  So the serial rule is the one of the parallel scanner (`cutGear_eq`).

Positions are tested in pairs.  With an odd `min_size` the first pair begins one byte before it, and
a chunk may come out one byte short (`CutsShort`).
-/
import OneLink.Pcdc.Stream
import OneLink.Library.Tiling

namespace OneLink.Pcdc

open Library Library.PrefixCut

set_option autoImplicit false

variable (F : FastCdc)

/-! ## The serial scan -/

/-- `GEAR_LS` -/
def gearLs (b : UInt8) : UInt64 := F.gear b <<< 1

/-- A loop of `cut_gear`, over the pairs from `index` to `bound`: where it cuts, or the index and the
hash it ends with. -/
def twoBytes (mask : UInt64) (source : Bytes) (bound index : Nat) (hash : UInt64) :
    Nat ⊕ Nat × UInt64 :=
  if index < bound then
    let a := index * 2
    let hash := (hash <<< 2) + gearLs F (source.getD a 0)
    if hash &&& (mask <<< 1) = 0 then .inl a
    else
      let hash := hash + F.gear (source.getD (a + 1) 0)
      if hash &&& mask = 0 then .inl (a + 1)
      else twoBytes mask source bound (index + 1) hash
  else .inr (index, hash)
termination_by bound - index

/-- `fastcdc::v2020::cut_gear` -/
def cutGear (p : CdcParams) (source : Bytes) : Nat :=
  if source.length ≤ p.minSize then source.length
  else
    let remaining := if source.length > p.maxSize then p.maxSize else source.length
    let center :=
      if source.length > p.maxSize then p.avgSize
      else if source.length < p.avgSize then source.length else p.avgSize
    match twoBytes F (maskS F p) source (center / 2) (p.minSize / 2) 0 with
    | .inl cut => cut
    | .inr (index, hash) =>
      match twoBytes F (maskL F p) source (remaining / 2) index hash with
      | .inl cut => cut
      | .inr _ => remaining

/-- The ranges of the serial scan. -/
def serialRanges (fuel : Nat) (buffer : Bytes) (p : CdcParams) : Option (List (Nat × Nat)) :=
  walk buffer.length (fun start => cutGear F p (buffer.drop start)) fuel 0 []

/-! ## The loop -/

/-- Shifted by one, a hash meets a mask that leaves out the top bit where it met it before. -/
theorem shifted_meets {mask : UInt64} (clear : mask >>> 63 = 0) (hash : UInt64) :
    (hash <<< 1) &&& (mask <<< 1) = 0 ↔ hash &&& mask = 0 := by
  have small : mask.toNat < 2 ^ 63 := by
    have shifted := congrArg UInt64.toNat clear
    simp [Nat.shiftRight_eq_div_pow] at shifted
    omega
  have below : (hash &&& mask).toNat ≤ mask.toNat := by
    rw [UInt64.toNat_and]
    exact Nat.and_le_right
  have doubled : ((hash &&& mask) <<< 1).toNat = (hash &&& mask).toNat * 2 := by
    rw [UInt64.toNat_shiftLeft, show (1 : UInt64).toNat % 64 = 1 from rfl, Nat.shiftLeft_eq,
      Nat.pow_one, Nat.mod_eq_of_lt (by omega)]
  rw [← UInt64.shiftLeft_and, ← UInt64.toNat_inj, ← UInt64.toNat_inj, doubled, UInt64.toNat_zero]
  omega

theorem shift_ahead (F : FastCdc) (hash : UInt64) (b : UInt8) :
    (hash <<< 2) + gearLs F b = roll F hash b <<< 1 := by
  rw [← UInt64.toNat_inj]
  simp only [gearLs, roll, UInt64.toNat_add, UInt64.toNat_shiftLeft, Nat.shiftLeft_eq]
  simp
  omega

/-- The hash of the bytes from `start` up to a position. -/
def hashFrom (bytes : Bytes) (start pos : Nat) : UInt64 := (slice bytes start pos).foldl (roll F) 0

theorem hashFrom_succ {bytes : Bytes} {start pos : Nat} (begun : start ≤ pos)
    (within : pos < bytes.length) :
    hashFrom F bytes start (pos + 1) = roll F (hashFrom F bytes start pos) (bytes.getD pos 0) := by
  rw [hashFrom, slice_succ begun within, List.foldl_append]
  rfl

/-- The hash up to and with this position meets the mask. -/
def meets (mask : UInt64) (bytes : Bytes) (start pos : Nat) : Bool :=
  hashFrom F bytes start (pos + 1) &&& mask = 0

theorem firstHit_next (hits : Nat → Bool) {lo hi : Nat} (some : lo < hi) :
    firstHit hits lo hi = if hits lo then .some lo else firstHit hits (lo + 1) hi := by
  rw [firstHit_split hits (Nat.le_add_right lo 1) some, firstHit, Nat.add_sub_cancel_left,
    List.range'_one, List.find?_singleton]
  cases hits lo with
  | true => rfl
  | false => rfl

/-- One step tests two positions. -/
theorem twoBytes_step {mask : UInt64} (clear : mask >>> 63 = 0) {bytes : Bytes}
    {start bound index : Nat} (within : bound * 2 ≤ bytes.length) (begun : start ≤ index * 2)
    (more : index < bound) :
    twoBytes F mask bytes bound index (hashFrom F bytes start (index * 2)) =
      if meets F mask bytes start (index * 2) then .inl (index * 2)
      else if meets F mask bytes start (index * 2 + 1) then .inl (index * 2 + 1)
      else twoBytes F mask bytes bound (index + 1) (hashFrom F bytes start ((index + 1) * 2)) := by
  have first := hashFrom_succ F begun (show index * 2 < bytes.length by omega)
  have second : (hashFrom F bytes start (index * 2 + 1) <<< 1) + F.gear (bytes.getD (index * 2 + 1) 0) =
      hashFrom F bytes start (index * 2 + 1 + 1) :=
    (hashFrom_succ F (Nat.le_succ_of_le begun) (by omega)).symm
  rw [twoBytes, if_pos more]
  simp only [shift_ahead, ← first, shifted_meets clear, second, meets, decide_eq_true_eq,
    Nat.succ_mul]

/-- **A loop of two bytes a step cuts at the first position whose hash meets the mask.** -/
theorem twoBytes_eq {mask : UInt64} (clear : mask >>> 63 = 0) {bytes : Bytes} {start bound : Nat}
    (within : bound * 2 ≤ bytes.length) (index : Nat) (begun : start ≤ index * 2)
    (ahead : index ≤ bound) :
    twoBytes F mask bytes bound index (hashFrom F bytes start (index * 2)) =
      match firstHit (meets F mask bytes start) (index * 2) (bound * 2) with
      | some pos => .inl pos
      | none => .inr (bound, hashFrom F bytes start (bound * 2)) := by
  induction left : bound - index generalizing index with
  | zero =>
    obtain rfl : index = bound := by omega
    rw [twoBytes, if_neg (Nat.lt_irrefl _), firstHit_empty _ (Nat.le_refl _)]
  | succ left ih =>
    rw [twoBytes_step F clear within begun (by omega), firstHit_next _ (by omega),
      firstHit_next _ (show index * 2 + 1 < bound * 2 by omega)]
    split
    · rfl
    · split
      · rfl
      · rw [show index * 2 + 1 + 1 = (index + 1) * 2 by omega]
        exact ih (index + 1) (by omega) (by omega) (by omega)

/-! ## The rule -/

variable {p : CdcParams}

section

variable (ordered : p.minSize < p.avgSize ∧ p.avgSize < p.maxSize)
variable (clear : ∀ i, F.masks i >>> 63 = 0)

include ordered clear

/-- **The serial rule is the parallel scanner's.** -/
theorem cutGear_eq (source : Bytes) : cutGear F p source = serialCut F p source := by
  by_cases short : source.length ≤ p.minSize
  · rw [cutGear, serialCut, if_pos short, if_pos short]
  have remaining : (if source.length > p.maxSize then p.maxSize else source.length) =
      min source.length p.maxSize := by
    split <;> omega
  have center : (if source.length > p.maxSize then p.avgSize
      else if source.length < p.avgSize then source.length else p.avgSize) =
      min source.length p.avgSize := by
    split
    · omega
    · split <;> omega
  have switch : switchAt p source.length = min source.length p.avgSize / 2 * 2 := by
    unfold switchAt first
    omega
  have begins : first p = p.minSize / 2 * 2 := rfl
  have none_yet : hashFrom F source (first p) (p.minSize / 2 * 2) = 0 := by
    rw [hashFrom, begins, slice, List.drop_of_length_le]
    · rfl
    · exact List.length_take_le _ _
  rw [cutGear, serialCut, if_neg short, if_neg short]
  simp only [remaining, center]
  have low := twoBytes_eq F (clear (F.logarithm2 p.avgSize + 1))
    (show min source.length p.avgSize / 2 * 2 ≤ source.length by omega) (p.minSize / 2)
    begins.le (by omega)
  have high := twoBytes_eq F (clear (F.logarithm2 p.avgSize - 1))
    (show min source.length p.maxSize / 2 * 2 ≤ source.length by omega)
    (min source.length p.avgSize / 2)
    (show first p ≤ min source.length p.avgSize / 2 * 2 by rw [begins]; omega) (by omega)
  rw [none_yet] at low
  have below : firstHit (hit F p source) (first p) (min source.length p.avgSize / 2 * 2) =
      firstHit (meets F (maskS F p) source (first p)) (first p)
        (min source.length p.avgSize / 2 * 2) :=
    firstHit_congr fun q _ under => by
      rw [hit, meets, hashFrom, switch, if_pos under]
  have above : firstHit (hit F p source) (min source.length p.avgSize / 2 * 2)
        (min source.length p.maxSize / 2 * 2) =
      firstHit (meets F (maskL F p) source (first p)) (min source.length p.avgSize / 2 * 2)
        (min source.length p.maxSize / 2 * 2) :=
    firstHit_congr fun q beyond _ => by
      rw [hit, meets, hashFrom, switch, if_neg (Nat.not_lt.mpr beyond)]
  rw [firstHit_split (hit F p source)
      (show first p ≤ min source.length p.avgSize / 2 * 2 by rw [begins]; omega)
      (show min source.length p.avgSize / 2 * 2 ≤ min source.length p.maxSize / 2 * 2 by omega),
    below, above, maskS, low, ← begins]
  cases firstHit (meets F (F.masks (F.logarithm2 p.avgSize + 1)) source (first p)) (first p)
      (min source.length p.avgSize / 2 * 2) with
  | some pos => rfl
  | none =>
    simp only [Option.none_or]
    rw [maskL, high]
    cases firstHit (meets F (F.masks (F.logarithm2 p.avgSize - 1)) source (first p))
        (min source.length p.avgSize / 2 * 2) (min source.length p.maxSize / 2 * 2) with
    | some pos => rfl
    | none => rfl

theorem serialRanges_eq (fuel : Nat) (buffer : Bytes) :
    serialRanges F fuel buffer p = chunkRanges F fuel buffer p := by
  rw [chunkRanges_eq F ordered, serialRanges]
  simp only [cutGear_eq F ordered clear]

end

/-! ## Chunks one byte short -/

variable (p) in
/-- The first position tested is the one before `min_size`, and its byte alone meets the mask. -/
def ShortCut (bytes : Bytes) : Prop :=
  p.minSize % 2 = 1 ∧ p.minSize < bytes.length ∧
    F.gear (bytes.getD (p.minSize - 1) 0) &&& maskS F p = 0

variable (p) in
/-- Some chunk of the serial scan of the bytes is cut so. -/
inductive CutsShort : Bytes → Prop where
  | here {bytes : Bytes} (short : ShortCut F p bytes) : CutsShort bytes
  | later {bytes : Bytes} (more : CutsShort (bytes.drop (cutGear F p bytes))) : CutsShort bytes

section

variable (ordered : p.minSize < p.avgSize ∧ p.avgSize < p.maxSize)

include ordered

theorem hit_first (odd : p.minSize % 2 = 1) {bytes : Bytes} (more : p.minSize < bytes.length) :
    hit F p bytes (first p) = decide (F.gear (bytes.getD (p.minSize - 1) 0) &&& maskS F p = 0) := by
  have begins : first p = p.minSize - 1 := by
    unfold first
    omega
  have none_yet : slice bytes (p.minSize - 1) (p.minSize - 1) = [] := by
    rw [← List.length_eq_zero_iff, length_slice]
    omega
  have below : p.minSize - 1 < switchAt p bytes.length := by
    unfold switchAt
    omega
  rw [hit, begins, slice_succ (Nat.le_refl _) (by omega), none_yet, if_pos below]
  simp [roll]

theorem serialCut_lt_min {bytes : Bytes} (more : p.minSize < bytes.length) :
    serialCut F p bytes < p.minSize ↔ ShortCut F p bytes := by
  have first_le : first p ≤ p.minSize := Nat.div_mul_le_self _ _
  rw [serialCut, if_neg (Nat.not_le.mpr more)]
  constructor
  · intro short
    cases found : firstHit (hit F p bytes) (first p) (min bytes.length p.maxSize / 2 * 2) with
    | none =>
      rw [found, Option.getD_none] at short
      omega
    | some pos =>
      rw [found, Option.getD_some] at short
      obtain ⟨hits, low, -, -⟩ := firstHit_eq_some.mp found
      have odd : p.minSize % 2 = 1 := by
        unfold first at low
        omega
      obtain rfl : pos = first p := by
        unfold first at low ⊢
        omega
      rw [hit_first F ordered odd more, decide_eq_true_eq] at hits
      exact ⟨odd, more, hits⟩
  · rintro ⟨odd, -, meets⟩
    have found : firstHit (hit F p bytes) (first p) (min bytes.length p.maxSize / 2 * 2) =
        some (first p) := by
      rw [firstHit_eq_some, hit_first F ordered odd more, decide_eq_true_eq]
      refine ⟨meets, Nat.le_refl _, ?_, fun q above below => absurd below (Nat.not_lt.mpr above)⟩
      unfold first
      omega
    rw [found, Option.getD_some]
    unfold first
    omega

theorem serialCut_le_max (bytes : Bytes) : serialCut F p bytes ≤ p.maxSize := by
  rw [serialCut]
  split
  · omega
  · cases found : firstHit (hit F p bytes) (first p) (min bytes.length p.maxSize / 2 * 2) with
    | none => exact Nat.min_le_right _ _
    | some pos =>
      have high := (firstHit_eq_some.mp found).2.2.1
      rw [Option.getD_some]
      omega

end

theorem not_cutsShort_nil : ¬ CutsShort F p [] := by
  intro short
  generalize none : ([] : Bytes) = bytes at short
  induction short with
  | here short =>
    subst none
    exact Nat.not_lt_zero _ short.2.1
  | later _ ih =>
    subst none
    exact ih (List.drop_nil).symm

theorem cutsShort_iff {bytes : Bytes} : CutsShort F p bytes ↔
    ShortCut F p bytes ∨ CutsShort F p (bytes.drop (cutGear F p bytes)) := by
  constructor
  · intro short
    cases short with
    | here short => exact .inl short
    | later more => exact .inr more
  · rintro (short | more)
    · exact .here short
    · exact .later more

/-- The chunks but the last have their minimum, exactly if none is cut short. -/
theorem full_iff (ordered : p.minSize < p.avgSize ∧ p.avgSize < p.maxSize)
    (clear : ∀ i, F.masks i >>> 63 = 0) {bytes : Bytes} {sizes : List Nat}
    (cuts : (cutter F ordered).Cuts bytes sizes []) :
    (∀ size ∈ sizes.dropLast, p.minSize ≤ size) ↔ ¬ CutsShort F p bytes := by
  induction sizes generalizing bytes with
  | nil =>
    have none := cuts.rest.2
    rw [List.sum_nil, List.drop_zero] at none
    rw [← none]
    simpa using not_cutsShort_nil F
  | cons size sizes ih =>
    cases cuts with
    | piece pieces more =>
      have later := ih more
      have total := more.rest
      rw [cutter_cut] at pieces more later total ⊢
      rw [cutsShort_iff, cutGear_eq F ordered clear, not_or, ← later]
      have bound := serialCut_le F (p := p) bytes
      have least (more : p.minSize < bytes.length) := serialCut_lt_min F ordered more
      rw [List.length_drop] at total
      cases sizes with
      | nil =>
        have whole := congrArg List.length total.2
        rw [List.sum_nil, List.drop_zero, List.length_drop] at whole
        have none : ¬ ShortCut F p bytes := fun short => by
          have under := (least short.2.1).mpr short
          have long := short.2.1
          have zero : ([] : Bytes).length = 0 := rfl
          omega
        simp [none]
      | cons next sizes =>
        have next_positive : 0 < next := by
          cases more with
          | piece positive _ => exact positive
        have long : p.minSize < bytes.length := by
          by_contra short
          rw [serialCut, if_pos (Nat.not_lt.mp short), List.sum_cons] at total
          omega
        rw [List.dropLast_cons_cons, List.forall_mem_cons, ← least long, Nat.not_lt]

theorem not_cutsShort_of_even (even : p.minSize % 2 = 0) (bytes : Bytes) : ¬ CutsShort F p bytes := by
  intro short
  induction short with
  | here short =>
    have odd := short.1
    omega
  | later _ ih => exact ih

theorem not_stalls_of_not_cutsShort (ordered : p.minSize < p.avgSize ∧ p.avgSize < p.maxSize)
    (clear : ∀ i, F.masks i >>> 63 = 0) {bytes : Bytes} (full : ¬ CutsShort F p bytes) :
    ¬ Stalls F p bytes := by
  intro stalls
  induction stalls with
  | @here bytes empty =>
    obtain ⟨single, two, meets⟩ := empty
    refine full (.here ⟨by omega, by omega, ?_⟩)
    rw [single]
    cases bytes with
    | nil => cases two
    | cons b rest => exact meets
  | later _ ih =>
    refine ih fun short => full (.later ?_)
    rw [cutGear_eq F ordered clear]
    exact short

/-! ## The whole scan -/

/-- A contiguous partition of `len` bytes into ranges with bytes in them, none longer than the
maximum and none but the last shorter than the minimum. -/
structure Chunked (p : CdcParams) (len : Nat) (ranges : List (Nat × Nat)) : Prop where
  tiles : Tiles 0 ranges len
  nonempty : ∀ range ∈ ranges, range.1 < range.2
  most : ∀ range ∈ ranges, range.2 - range.1 ≤ p.maxSize
  least : ∀ range ∈ ranges.dropLast, p.minSize ≤ range.2 - range.1

theorem forall_mem_ranges {start : Nat} {sizes : List Nat} (P : Nat → Prop) :
    (∀ range ∈ ranges start sizes, P (range.2 - range.1)) ↔ ∀ size ∈ sizes, P size := by
  conv_rhs => rw [← ranges_widths start sizes]
  rw [List.forall_mem_map]

theorem forall_mem_dropLast_ranges {start : Nat} {sizes : List Nat} (P : Nat → Prop) :
    (∀ range ∈ (ranges start sizes).dropLast, P (range.2 - range.1)) ↔
      ∀ size ∈ sizes.dropLast, P size := by
  conv_rhs => rw [← ranges_widths start sizes]
  rw [← List.map_dropLast, List.forall_mem_map]

/-- The pieces of a cutting have bytes in them and are no longer than the maximum. -/
theorem cuts_sized (ordered : p.minSize < p.avgSize ∧ p.avgSize < p.maxSize) {bytes rest : Bytes}
    {sizes : List Nat} (cuts : (cutter F ordered).Cuts bytes sizes rest) :
    ∀ size ∈ sizes, 0 < size ∧ size ≤ p.maxSize := by
  induction cuts with
  | done => exact fun _ absent => absurd absent List.not_mem_nil
  | piece positive _ ih =>
    exact List.forall_mem_cons.mpr ⟨⟨positive, serialCut_le_max F ordered _⟩, ih⟩

theorem chunked_iff (ordered : p.minSize < p.avgSize ∧ p.avgSize < p.maxSize)
    (clear : ∀ i, F.masks i >>> 63 = 0) {buffer : Bytes} {sizes : List Nat}
    (cuts : (cutter F ordered).Cuts buffer sizes []) :
    Chunked p buffer.length (ranges 0 sizes) ↔ ¬ CutsShort F p buffer := by
  rw [← full_iff F ordered clear cuts]
  constructor
  · exact fun chunked => (forall_mem_dropLast_ranges _).mp chunked.least
  · intro full
    have sized := cuts_sized F ordered cuts
    have whole := tiles_ranges 0 sizes
    rw [Nat.zero_add, cuts.sum_eq] at whole
    have positive : ∀ range ∈ ranges 0 sizes, 0 < range.2 - range.1 :=
      (forall_mem_ranges (0 < ·)).mpr fun size present => (sized size present).1
    exact ⟨whole, fun range present => Nat.lt_of_sub_pos (positive range present),
      (forall_mem_ranges (· ≤ p.maxSize)).mpr fun size present => (sized size present).2,
      (forall_mem_dropLast_ranges (p.minSize ≤ ·)).mpr full⟩

/-- **The parallel scan is the serial scan, and a partition into chunks of the sizes asked for,
exactly where no chunk is cut short.** -/
theorem chunk_ranges_serial_iff (F : FastCdc) (clear : ∀ i, F.masks i >>> 63 = 0) (p : CdcParams)
    (valid : p.validate = .ok ()) (buffer : Bytes) :
    (∃ fuel ranges, chunkRanges F fuel buffer p = some ranges ∧ Chunked p buffer.length ranges ∧
      ∃ fuel', serialRanges F fuel' buffer p = some ranges) ↔
    ¬ CutsShort F p buffer := by
  obtain ⟨positive, ordered, -⟩ := (validate_eq_ok p).mp valid
  constructor
  · rintro ⟨fuel, all, returned, chunked, -⟩
    obtain ⟨sizes, cuts, rfl⟩ := chunkRanges_sound F ordered returned
    exact (chunked_iff F ordered clear cuts).mp chunked
  · intro full
    obtain ⟨sizes, cuts⟩ := (not_stalls_iff ordered positive).mp
      (not_stalls_of_not_cutsShort F ordered clear full)
    have returned := chunkRanges_complete F ordered cuts (Nat.lt_succ_self buffer.length)
    exact ⟨_, _, returned, (chunked_iff F ordered clear cuts).mpr full, _,
      (serialRanges_eq F ordered clear _ buffer).trans returned⟩

theorem padded_clear (i : Nat) : padded.masks i >>> 63 = 0 := by
  rw [padded]
  dsimp only
  split
  · decide
  · decide

theorem chunk_ranges_serial_default : (∀ i, padded.masks i >>> 63 = 0) ∧
    CdcParams.default.validate = .ok () ∧
    ∃ fuel ranges, chunkRanges padded fuel [1, 2, 3] .default = some ranges ∧
      Chunked .default [1, 2, 3].length ranges ∧
      ∃ fuel', serialRanges padded fuel' [1, 2, 3] .default = some ranges :=
  ⟨padded_clear, by decide,
    (chunk_ranges_serial_iff padded padded_clear .default (by decide) [1, 2, 3]).mpr
      (not_cutsShort_of_even padded (by decide) [1, 2, 3])⟩

/-- Four bytes, cut with the sizes 3, 4 and 8: two chunks of two. -/
theorem chunk_ranges_below_minimum :
    (∀ i, padded.masks i >>> 63 = 0) ∧ CdcParams.validate ⟨3, 4, 8⟩ = .ok () ∧
    ¬ ∃ fuel ranges, chunkRanges padded fuel [7, 7, 7, 7] ⟨3, 4, 8⟩ = some ranges ∧
      Chunked ⟨3, 4, 8⟩ [7, 7, 7, 7].length ranges ∧
      ∃ fuel', serialRanges padded fuel' [7, 7, 7, 7] ⟨3, 4, 8⟩ = some ranges := by
  refine ⟨padded_clear, by decide, ?_⟩
  rintro ⟨fuel, all, returned, chunked, -⟩
  obtain ⟨sizes, cuts, rfl⟩ := chunkRanges_sound padded (by decide) returned
  refine (chunked_iff padded (by decide) padded_clear cuts).mp chunked
    (.here ⟨by decide, by decide, ?_⟩)
  decide

end OneLink.Pcdc
