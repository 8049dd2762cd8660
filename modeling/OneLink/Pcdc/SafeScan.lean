/-
# Pcdc.SafeScan -- format-aware chunking is safe on every file but two kinds

`scan_format_aware` over the walkers of `Walkers`, with its own sums and slices checked too.  It
comes to what the scan of `Containers` returns (`scanFormatAware_returns`), whose chunks cover each
segment between the accepted cuts (`cover_segments`).

It stops in two cases.  The walk over boxes wraps where a box begins within eight bytes of the end
of the address space.  And `fastcdc` panics on sizes that `validate` lets through but it does not
support, where there is a stretch to be cut by content.
-/
import OneLink.Pcdc.Walkers
import OneLink.Pcdc.SeekableAgreement
import OneLink.Pcdc.Serial

namespace OneLink.Pcdc

open Library Library.PrefixCut

set_option autoImplicit false

/-! ## Chunks that cover a stretch of the buffer -/

section Cover

variable (chunkAddress : Bytes → Bytes) (p : CdcParams)

/-- Chunks with bytes in them and of the size allowed, each with the hash of its slice, lie end to
end from `lo` to `hi`. -/
structure Cover (buffer : Bytes) (lo hi : Nat) (bounds : List Boundary) : Prop where
  tiles : Tiles lo (bounds.map fun b => (b.start, b.stop)) hi
  sized : ∀ b ∈ bounds, b.start < b.stop ∧ b.stop - b.start ≤ p.maxSize
  hashed : ∀ b ∈ bounds, b.rawAddress = chunkAddress (slice buffer b.start b.stop)

variable {chunkAddress p} {buffer : Bytes} {lo mid hi : Nat} {bounds : List Boundary}

theorem Cover.inside (cover : Cover chunkAddress p buffer lo hi bounds) :
    ∀ b ∈ bounds, lo ≤ b.start ∧ b.stop ≤ hi := by
  have inside := (cover.tiles.inside fun range present => by
    obtain ⟨b, member, rfl⟩ := List.mem_map.mp present
    exact Nat.le_of_lt (cover.sized b member).1).2
  exact fun b member => inside _ (List.mem_map_of_mem member)

theorem Cover.append {later : List Boundary} (first : Cover chunkAddress p buffer lo mid bounds)
    (second : Cover chunkAddress p buffer mid hi later) :
    Cover chunkAddress p buffer lo hi (bounds ++ later) where
  tiles := by
    rw [List.map_append]
    exact first.tiles.append second.tiles
  sized := List.forall_mem_append.mpr ⟨first.sized, second.sized⟩
  hashed := List.forall_mem_append.mpr ⟨first.hashed, second.hashed⟩

theorem Cover.exists_first (cover : Cover chunkAddress p buffer lo hi bounds) (some : lo < hi) :
    ∃ b ∈ bounds, b.start = lo := by
  obtain ⟨range, present, begins⟩ := cover.tiles.exists_first some
  obtain ⟨b, member, rfl⟩ := List.mem_map.mp present
  exact ⟨b, member, begins⟩

theorem placed_map_fst (segIdx start : Nat) (bounds : List Boundary) :
    (placed segIdx start bounds).map Prod.fst =
      bounds.map fun b => { b with start := b.start + start, stop := b.stop + start } := by
  refine List.ext_getElem ?_ fun i _ _ => ?_
  · simp [placed]
  · simp [placed]

/-- The chunks of a segment, moved to where it lies, cover it there. -/
theorem Cover.placed {s e : Nat} (order : s ≤ e) (within : e ≤ buffer.length)
    (cover : Cover chunkAddress p (slice buffer s e) 0 (slice buffer s e).length bounds) (segIdx : Nat) :
    Cover chunkAddress p buffer s e ((placed segIdx s bounds).map Prod.fst) := by
  have inside := cover.inside
  have shifted := cover.tiles.shift s
  rw [length_slice, Nat.min_eq_left within, Nat.zero_add, Nat.sub_add_cancel order] at shifted
  rw [placed_map_fst]
  refine ⟨?_, ?_, ?_⟩
  · rw [List.map_map] at shifted ⊢
    exact shifted
  · rw [List.forall_mem_map]
    intro b member
    have sized := cover.sized b member
    exact ⟨by dsimp only; omega, by dsimp only; omega⟩
  · rw [List.forall_mem_map]
    intro b member
    have stop := (inside b member).2
    rw [length_slice, Nat.min_eq_left within] at stop
    have part := slice_slice buffer s (a := b.start) (show b.stop ≤ e - s by omega)
    rw [Nat.add_sub_cancel' order] at part
    dsimp only
    rw [cover.hashed b member, part, Nat.add_comm s, Nat.add_comm s]

theorem cover_addressRanges {F : FastCdc} (ordered : p.minSize < p.avgSize ∧ p.avgSize < p.maxSize)
    {bytes : Bytes} {sizes : List Nat} (cuts : (cutter F ordered).Cuts bytes sizes []) :
    Cover chunkAddress p bytes 0 bytes.length (addressRanges chunkAddress bytes (ranges 0 sizes)) := by
  have sized := cuts_sized F ordered cuts
  have whole := tiles_ranges 0 sizes
  rw [Nat.zero_add, cuts.sum_eq] at whole
  refine ⟨?_, ?_, ?_⟩
  · rw [addressRanges, List.map_map]
    exact (List.map_id _).symm ▸ whole
  · rw [addressRanges, List.forall_mem_map]
    intro range present
    have width := (forall_mem_ranges (fun size => 0 < size ∧ size ≤ p.maxSize)).mpr sized range present
    exact ⟨by dsimp only; omega, width.2⟩
  · rw [addressRanges, List.forall_mem_map]
    exact fun range _ => rfl

/-! ## Segments -/

variable {chunkScanner : ChunkScanner}

/-- Between cuts that were absorbed the segments have bytes in them. -/
theorem absorb_spaced {minSize len prev : Nat} (positive : 0 < minSize) (start : prev < len)
    (cuts : List Nat) :
    ∀ x ∈ segmentsFrom len prev (absorb minSize len prev cuts), x.1 < x.2 ∧ x.2 ≤ len := by
  induction cuts generalizing prev with
  | nil =>
    intro x present
    rw [List.mem_singleton.1 present]
    exact ⟨start, Nat.le_refl len⟩
  | cons c rest ih =>
    rw [absorb]
    split
    · rename_i accepted
      rw [segmentsFrom, List.forall_mem_cons]
      exact ⟨⟨by dsimp only; omega, by dsimp only; omega⟩, ih (by omega)⟩
    · exact ih start

theorem absorb_empty {minSize prev : Nat} (positive : 0 < minSize) (cuts : List Nat) :
    absorb minSize 0 prev cuts = [] := by
  induction cuts with
  | nil => rfl
  | cons c rest ih => rw [absorb, if_neg (by omega), ih]

section Serial

variable {F : FastCdc} (ordered : p.minSize < p.avgSize ∧ p.avgSize < p.maxSize)
variable (serial : ∀ bytes chunks, chunkScanner p bytes = some chunks → SerialChunks F p bytes chunks)

include ordered serial

theorem cover_segmentBounds {segmentBuf : Bytes} (some : segmentBuf ≠ [])
    (scanned : segmentBounds chunkAddress chunkScanner p segmentBuf = .some bounds) :
    Cover chunkAddress p segmentBuf 0 segmentBuf.length bounds := by
  rw [segmentBounds] at scanned
  split at scanned
  · rename_i short
    obtain rfl := Option.some.inj scanned
    have long := List.length_pos_iff.mpr some
    refine ⟨⟨rfl, rfl⟩, ?_, ?_⟩
    · rw [List.forall_mem_singleton]
      exact ⟨long, short⟩
    · rw [List.forall_mem_singleton, slice, List.take_length, List.drop_zero]
  · obtain ⟨chunks, found, rfl⟩ := Option.map_eq_some_iff.1 scanned
    obtain ⟨sizes, cuts, rfl⟩ := (serial _ _ found).cuts ordered
    exact cover_addressRanges ordered cuts

/-- **The chunks of the segments cover them, with a chunk that begins at every cut.** -/
theorem cover_segments {prev segIdx : Nat} {accepted : List Nat} {chunks : List (Boundary × Bool)}
    (spaced : ∀ x ∈ segmentsFrom buffer.length prev accepted, x.1 < x.2 ∧ x.2 ≤ buffer.length)
    (scanned : scanSegments chunkAddress chunkScanner p buffer segIdx
      (segmentsFrom buffer.length prev accepted) = some chunks) :
    Cover chunkAddress p buffer prev buffer.length (chunks.map Prod.fst) ∧
      ∀ c ∈ accepted, ∃ b ∈ chunks.map Prod.fst, b.start = c := by
  have nonempty {s e : Nat} (order : s < e) (within : e ≤ buffer.length) : slice buffer s e ≠ [] := by
    rw [← List.length_pos_iff, length_slice]
    omega
  induction accepted generalizing prev segIdx chunks with
  | nil =>
    obtain ⟨order, within⟩ := spaced (prev, buffer.length) List.mem_cons_self
    rw [segmentsFrom, scanSegments, if_neg (nonempty order within)] at scanned
    simp only [scanSegments, Option.bind_eq_bind, Option.bind_eq_some_iff, Option.pure_def,
      Option.bind_some, Option.some.injEq, List.append_nil] at scanned
    obtain ⟨bounds, found, rfl⟩ := scanned
    have cover := cover_segmentBounds ordered serial (nonempty order within) found
    exact ⟨cover.placed (Nat.le_of_lt order) within segIdx, fun _ absent => absurd absent List.not_mem_nil⟩
  | cons c rest ih =>
    rw [segmentsFrom, List.forall_mem_cons] at spaced
    obtain ⟨⟨order, within⟩, spaced⟩ := spaced
    rw [segmentsFrom, scanSegments, if_neg (nonempty order within)] at scanned
    simp only [Option.bind_eq_bind, Option.bind_eq_some_iff, Option.pure_def,
      Option.some.injEq] at scanned
    obtain ⟨bounds, found, later, behind, rfl⟩ := scanned
    obtain ⟨rests, cut⟩ := ih spaced behind
    have cover := (cover_segmentBounds ordered serial (nonempty order within) found).placed
      (Nat.le_of_lt order) within segIdx
    have more : c < buffer.length := by
      cases rest with
      | nil => exact (spaced _ List.mem_cons_self).1
      | cons next rest =>
        have first := spaced _ List.mem_cons_self
        dsimp only at first
        omega
    rw [List.map_append]
    refine ⟨cover.append rests, List.forall_mem_cons.mpr ⟨?_, fun d member => ?_⟩⟩
    · obtain ⟨b, member, begins⟩ := rests.exists_first more
      exact ⟨b, List.mem_append_right _ member, begins⟩
    · obtain ⟨b, inLater, begins⟩ := cut d member
      exact ⟨b, List.mem_append_right _ inLater, begins⟩

end Serial

/-! ## When it returns -/

/-- The sizes that `fastcdc::v2020::FastCDC::new` does not panic at: `MINIMUM_MIN` to `MINIMUM_MAX`,
`AVERAGE_MIN` to `AVERAGE_MAX` and `MAXIMUM_MIN` to `MAXIMUM_MAX`. -/
def Supported (p : CdcParams) : Prop :=
  (64 ≤ p.minSize ∧ p.minSize ≤ 1048576) ∧ (256 ≤ p.avgSize ∧ p.avgSize ≤ 4194304) ∧
    (1024 ≤ p.maxSize ∧ p.maxSize ≤ 16777216)

instance (p : CdcParams) : Decidable (Supported p) :=
  inferInstanceAs (Decidable (_ ∧ _ ∧ _))

/-- A box begins at `pos`, and its size leads to `next`. -/
def BoxStep (buffer : Bytes) (pos next : Nat) : Prop :=
  pos + 8 ≤ buffer.length ∧ isBoxKind (slice buffer (pos + 4) (pos + 8)) ∧
    (boxAdvance buffer pos).bind (nextBox pos) = some next

/-- The walk over boxes comes to no place within eight bytes of the end of the address space. -/
def BoxesStayLow (buffer : Bytes) : Prop :=
  ∀ pos, Relation.ReflTransGen (BoxStep buffer) 0 pos → pos + 8 < 2 ^ 64

theorem boxesFrom_step {pos next : Nat} (low : pos + 8 < 2 ^ 64) (step : BoxStep buffer pos next) :
    boxesFrom buffer pos = (boxesFrom buffer next).map (pos :: ·) := by
  obtain ⟨room, kind, leads⟩ := step
  rw [boxesFrom, if_neg (by omega), dif_pos room, if_pos kind]
  split
  · rename_i stops
    rw [leads] at stops
    cases stops
  · rename_i next' goes
    rw [leads] at goes
    rw [Option.some.inj goes]

theorem boxesFrom_stop {pos : Nat} (low : pos + 8 < 2 ^ 64) (last : ∀ next, ¬ BoxStep buffer pos next) :
    ∃ cuts, boxesFrom buffer pos = some cuts := by
  rw [boxesFrom, if_neg (by omega)]
  split
  · rename_i room
    split
    · rename_i kind
      split
      · exact ⟨_, rfl⟩
      · rename_i next goes
        exact absurd ⟨room, kind, goes⟩ (last next)
    · exact ⟨_, rfl⟩
  · exact ⟨_, rfl⟩

theorem boxesFrom_eq_none (pos : Nat) : boxesFrom buffer pos = none ↔
    ∃ high, Relation.ReflTransGen (BoxStep buffer) pos high ∧ 2 ^ 64 ≤ high + 8 := by
  induction left : buffer.length - pos using Nat.strongRecOn generalizing pos with
  | ind left ih =>
    by_cases wraps : 2 ^ 64 ≤ pos + 8
    · rw [boxesFrom, if_pos wraps]
      exact ⟨fun _ => ⟨pos, .refl, wraps⟩, fun _ => rfl⟩
    · by_cases goes : ∃ next, BoxStep buffer pos next
      · obtain ⟨next, step⟩ := goes
        have ahead : pos + 8 ≤ next := by
          obtain ⟨advance, -, after⟩ := Option.bind_eq_some_iff.1 step.2.2
          exact nextBox_eq_some after
        have room := step.1
        rw [boxesFrom_step (by omega) step, Option.map_eq_none_iff,
          ih _ (by omega) next rfl]
        constructor
        · rintro ⟨high, reached, beyond⟩
          exact ⟨high, .head step reached, beyond⟩
        · rintro ⟨high, reached, beyond⟩
          rcases Relation.ReflTransGen.cases_head_iff.1 reached with rfl | ⟨other, first, rest⟩
          · exact absurd beyond wraps
          · obtain rfl : other = next := Option.some.inj (first.2.2.symm.trans step.2.2)
            exact ⟨high, rest, beyond⟩
      · rw [not_exists] at goes
        obtain ⟨cuts, walked⟩ := boxesFrom_stop (by omega) goes
        rw [walked]
        refine ⟨nofun, ?_⟩
        rintro ⟨high, reached, beyond⟩
        rcases Relation.ReflTransGen.cases_head_iff.1 reached with rfl | ⟨other, first, -⟩
        · exact absurd beyond wraps
        · exact absurd first (goes other)

/-- Every walk returns, but the one over boxes where it wraps. -/
theorem exists_forcedCuts (format : Option ContainerFormat) :
    (∃ cuts, forcedCuts buffer format = some cuts) ↔ (format = some .mp4 → BoxesStayLow buffer) := by
  have boxes : (∃ cuts, mp4BoxOffsets buffer = some cuts) ↔ BoxesStayLow buffer := by
    rw [← Option.ne_none_iff_exists', mp4BoxOffsets, Ne, boxesFrom_eq_none, not_exists]
    exact forall_congr' fun pos => by rw [not_and, Nat.not_le]
  cases format with
  | none => exact ⟨by simp, fun _ => ⟨_, rfl⟩⟩
  | some format =>
    cases format with
    | mp4 => exact boxes.trans ⟨fun low _ => low, fun low => low rfl⟩
    | zip => exact ⟨by simp, fun _ => ⟨_, rfl⟩⟩
    | wav => exact ⟨by simp, fun _ => ⟨_, rfl⟩⟩
    | h264AnnexB => exact ⟨by simp, fun _ => ⟨_, rfl⟩⟩
    | mcap => exact ⟨by simp, fun _ => ⟨_, rfl⟩⟩

section Supports

variable (supports : ∀ bytes, (∃ chunks, chunkScanner p bytes = some chunks) ↔ Supported p)

include supports

variable (chunkAddress)

theorem exists_segmentBounds (segmentBuf : Bytes) :
    (∃ bounds, segmentBounds chunkAddress chunkScanner p segmentBuf = some bounds) ↔
      (p.maxSize < segmentBuf.length → Supported p) := by
  rw [segmentBounds]
  split
  · rename_i short
    exact ⟨fun _ long => absurd short (Nat.not_le.mpr long), fun _ => ⟨_, rfl⟩⟩
  · rename_i long
    rw [← supports segmentBuf]
    constructor
    · rintro ⟨bounds, scanned⟩ -
      obtain ⟨chunks, found, -⟩ := Option.map_eq_some_iff.1 scanned
      exact ⟨chunks, found⟩
    · intro returns
      obtain ⟨chunks, found⟩ := returns (Nat.lt_of_not_le long)
      exact ⟨_, Option.map_eq_some_iff.2 ⟨chunks, found, rfl⟩⟩

theorem exists_scanSegments {segments : List (Nat × Nat)}
    (inFile : ∀ x ∈ segments, x.1 < x.2 ∧ x.2 ≤ buffer.length) (segIdx : Nat) :
    (∃ chunks, scanSegments chunkAddress chunkScanner p buffer segIdx segments = some chunks) ↔
      ∀ x ∈ segments, p.maxSize < x.2 - x.1 → Supported p := by
  induction segments generalizing segIdx with
  | nil => exact ⟨fun _ _ absent => absurd absent List.not_mem_nil, fun _ => ⟨[], rfl⟩⟩
  | cons segment rest ih =>
    obtain ⟨s, e⟩ := segment
    rw [List.forall_mem_cons] at inFile
    obtain ⟨⟨order, within⟩, inFile⟩ := inFile
    dsimp only at order within
    have length : (slice buffer s e).length = e - s := by
      rw [length_slice, Nat.min_eq_left within]
    have some : slice buffer s e ≠ [] := by
      rw [← List.length_pos_iff, length]
      omega
    have first := exists_segmentBounds chunkAddress supports (slice buffer s e)
    rw [length] at first
    rw [List.forall_mem_cons, ← first, ← ih inFile (segIdx + 1), scanSegments, if_neg some]
    simp only [Option.bind_eq_bind, Option.bind_eq_some_iff, Option.pure_def, Option.some.injEq]
    constructor
    · rintro ⟨chunks, bounds, found, later, behind, -⟩
      exact ⟨⟨bounds, found⟩, later, behind⟩
    · rintro ⟨⟨bounds, found⟩, later, behind⟩
      exact ⟨_, bounds, found, later, behind, rfl⟩

end Supports

/-- The scan accepts cuts of which no two, and neither end of the buffer and its nearest cut, are
further apart than `max_size`. -/
def NothingLong (p : CdcParams) (buffer : Bytes) (format : Option ContainerFormat) : Prop :=
  ∀ cuts, forcedCuts buffer format = some cuts →
    absorb p.minSize buffer.length 0 cuts ≠ [] ∧
      ∀ x ∈ segmentsFrom buffer.length 0 (absorb p.minSize buffer.length 0 cuts), x.2 - x.1 ≤ p.maxSize

variable (chunkAddress) in
theorem exists_scanFormatAware (valid : p.validate = .ok ())
    (supports : ∀ bytes, (∃ chunks, chunkScanner p bytes = some chunks) ↔ Supported p)
    (format : Option ContainerFormat) :
    (∃ set, scanFormatAware chunkAddress chunkScanner p buffer format = some (.ok set)) ↔
      (format = some .mp4 → BoxesStayLow buffer) ∧ (Supported p ∨ NothingLong p buffer format) := by
  have positive := ((validate_eq_ok p).mp valid).1
  rw [← exists_forcedCuts]
  simp only [scanFormatAware, valid, NothingLong]
  cases found : forcedCuts buffer format with
  | none => simp
  | some cuts =>
    simp only [Option.bind_eq_bind, Option.bind_some, Option.some.injEq, forall_eq', exists_eq', true_and]
    by_cases none : absorb p.minSize buffer.length 0 cuts = []
    · rw [if_pos none, ← supports buffer]
      simp only [none, ne_eq, not_true_eq_false, false_and, or_false, Option.bind_eq_some_iff,
        Option.pure_def, Option.some.injEq, Except.ok.injEq]
      constructor
      · rintro ⟨set, chunks, scanned, -⟩
        exact ⟨chunks, scanned⟩
      · rintro ⟨chunks, scanned⟩
        exact ⟨_, chunks, scanned, rfl⟩
    · have some : 0 < buffer.length := by
        by_contra empty
        rw [Nat.eq_zero_of_not_pos empty] at none
        exact none (absorb_empty positive cuts)
      have scans := exists_scanSegments chunkAddress supports
        (absorb_spaced positive some cuts) 0
      rw [if_neg none]
      simp only [ne_eq, none, not_false_eq_true, true_and, Option.bind_eq_some_iff,
        Option.pure_def, Option.some.injEq, Except.ok.injEq]
      constructor
      · rintro ⟨set, chunks, scanned, -⟩
        by_cases supported : Supported p
        · exact .inl supported
        · refine .inr fun x member => Nat.le_of_not_lt fun long => supported ?_
          exact scans.mp ⟨chunks, scanned⟩ x member long
      · intro either
        obtain ⟨chunks, scanned⟩ := scans.mpr fun x member long =>
          either.elim id fun short => absurd (short x member) (Nat.not_le.mpr long)
        exact ⟨_, chunks, scanned, rfl⟩

/-- What the scan returns covers the buffer, and is cut where it accepted a cut. -/
theorem cover_scanFormatAware {F : FastCdc} (valid : p.validate = .ok ())
    (serial : ∀ bytes chunks, chunkScanner p bytes = some chunks → SerialChunks F p bytes chunks)
    {format : Option ContainerFormat} {set : FormatAwareChunkSet}
    (returned : scanFormatAware chunkAddress chunkScanner p buffer format = some (.ok set)) :
    Cover chunkAddress p buffer 0 buffer.length set.boundaries ∧
      ∀ cuts, forcedCuts buffer format = some cuts →
        ∀ c ∈ absorb p.minSize buffer.length 0 cuts, ∃ b ∈ set.boundaries, b.start = c := by
  obtain ⟨positive, ordered, -⟩ := (validate_eq_ok p).mp valid
  simp only [scanFormatAware, valid, Option.bind_eq_bind, Option.bind_eq_some_iff] at returned
  obtain ⟨cuts, found, scanned⟩ := returned
  simp only [found, Option.some.injEq, forall_eq']
  split at scanned
  · rename_i none
    obtain ⟨chunks, ran, shape⟩ := Option.bind_eq_some_iff.1 scanned
    obtain rfl := Except.ok.inj (Option.some.inj shape)
    obtain ⟨sizes, pieces, rfl⟩ := (serial _ _ ran).cuts ordered
    rw [none]
    exact ⟨cover_addressRanges ordered pieces, fun _ absent => absurd absent List.not_mem_nil⟩
  · rename_i accepted
    obtain ⟨chunks, ran, shape⟩ := Option.bind_eq_some_iff.1 scanned
    obtain rfl := Except.ok.inj (Option.some.inj shape)
    have some : 0 < buffer.length := by
      by_contra empty
      rw [Nat.eq_zero_of_not_pos empty] at accepted
      exact accepted (absorb_empty positive cuts)
    exact cover_segments ordered serial (absorb_spaced positive some cuts) ran

end Cover

end OneLink.Pcdc

namespace OneLink.Pcdc.Checked

open Library Library.PrefixCut

set_option autoImplicit false

section Scan

variable {ε : Type}
variable (chunkAddress : Bytes → Bytes) (chunkScanner : ChunkScanner) (p : CdcParams)

/-- The loop that absorbs cuts. -/
def absorb (minSize len : Nat) : (lastAccepted : Nat) → List Nat → Except (Stop ε) (List Nat)
  | _, [] => return []
  | last, c :: rest => do
    if c ≥ (← addWord last minSize) ∧ c ≤ len - minSize then
      return c :: (← absorb minSize len c rest)
    else absorb minSize len last rest

/-- `ChunkScanner::with_params(..).collect()`, whose `next` slices the buffer. -/
def collect (bytes : Bytes) : Except (Stop ε) (List Boundary) := do
  let ranges ← orTrap (chunkScanner p bytes)
  ranges.mapM fun range => do
    let chunk ← sliceAt bytes range.1 range.2
    return ⟨range.1, range.2, chunkAddress chunk⟩

def segmentBounds (segmentBuf : Bytes) : Except (Stop ε) (List Boundary) :=
  if segmentBuf.length ≤ p.maxSize then return [⟨0, segmentBuf.length, chunkAddress segmentBuf⟩]
  else collect chunkAddress chunkScanner p segmentBuf

/-- The loop that moves the chunks of a segment to where it lies. -/
def placed (segIdx start : Nat) : (chunkIdx : Nat) → List Boundary →
    Except (Stop ε) (List (Boundary × Bool))
  | _, [] => return []
  | chunkIdx, b :: rest => do
    let translated : Boundary := ⟨← addWord b.start start, ← addWord b.stop start, b.rawAddress⟩
    return (translated, decide (chunkIdx = 0 ∧ segIdx > 0)) ::
      (← placed segIdx start (chunkIdx + 1) rest)

def scanSegments (buffer : Bytes) : (segIdx : Nat) → List (Nat × Nat) →
    Except (Stop ε) (List (Boundary × Bool))
  | _, [] => return []
  | segIdx, (s, e) :: rest => do
    let segmentBuf ← sliceAt buffer s e
    if segmentBuf = [] then scanSegments buffer (segIdx + 1) rest
    else
      let bounds ← segmentBounds chunkAddress chunkScanner p segmentBuf
      let chunks ← placed segIdx s 0 bounds
      return chunks ++ (← scanSegments buffer (segIdx + 1) rest)

/-- The scan behind the walk. -/
def scanCuts (buffer : Bytes) (cuts : List Nat) : Except (Stop ε) FormatAwareChunkSet := do
  let accepted ← absorb p.minSize buffer.length 0 cuts
  if accepted = [] then
    let bounds ← collect chunkAddress chunkScanner p buffer
    return ⟨bounds, List.replicate bounds.length false⟩
  else
    let chunks ← scanSegments chunkAddress chunkScanner p buffer 0
      (segmentsFrom buffer.length 0 accepted)
    return chunkSet chunks

/-- `scan_format_aware` -/
def scanFormatAware (fuel : Nat) (buffer : Bytes) (format : Option ContainerFormat) :
    Option (Except (Stop String) FormatAwareChunkSet) :=
  match p.validate with
  | .error message => some (.error (.fail message))
  | .ok () =>
    (forcedCuts fuel buffer format).map (· >>= scanCuts chunkAddress chunkScanner p buffer)

end Scan

/-! ## It comes to what the scan of `Containers` returns -/

variable {ε : Type}
variable {F : FastCdc} {chunkAddress : Bytes → Bytes} {chunkScanner : ChunkScanner} {p : CdcParams}

theorem absorb_eq {minSize len last : Nat} (fits : max (last + minSize) (max len minSize) < 2 ^ 64)
    (cuts : List Nat) :
    (absorb minSize len last cuts : Except (Stop ε) _) = .ok (Pcdc.absorb minSize len last cuts) := by
  induction cuts generalizing last with
  | nil => rfl
  | cons c rest ih =>
    rw [absorb, Pcdc.absorb, addWord_of (by omega), ok_bind]
    split
    · rename_i accepted
      rw [ih (by omega)]
      rfl
    · exact ih fits

theorem placed_eq {segIdx start : Nat} {bounds : List Boundary}
    (fits : ∀ b ∈ bounds, b.start + start < 2 ^ 64 ∧ b.stop + start < 2 ^ 64) (chunkIdx : Nat) :
    (placed segIdx start chunkIdx bounds : Except (Stop ε) _) =
      .ok (bounds.mapIdx fun i b =>
        ({ b with start := b.start + start, stop := b.stop + start },
          decide (i + chunkIdx = 0 ∧ segIdx > 0))) := by
  induction bounds generalizing chunkIdx with
  | nil => rfl
  | cons b rest ih =>
    rw [List.forall_mem_cons] at fits
    rw [placed, addWord_of fits.1.1, ok_bind, addWord_of fits.1.2, ok_bind, ih fits.2,
      List.mapIdx_cons]
    simp only [Nat.zero_add, Nat.add_assoc, Nat.add_comm 1]
    rfl

section Serial

variable (ordered : p.minSize < p.avgSize ∧ p.avgSize < p.maxSize)
variable (serial : ∀ bytes chunks, chunkScanner p bytes = some chunks → SerialChunks F p bytes chunks)

include ordered serial

theorem collect_eq (bytes : Bytes) : (collect chunkAddress chunkScanner p bytes : Except (Stop ε) _) =
    orTrap ((chunkScanner p bytes).map (addressRanges chunkAddress bytes)) := by
  rw [collect]
  cases found : chunkScanner p bytes with
  | none => rfl
  | some chunks =>
    obtain ⟨sizes, cuts, rfl⟩ := (serial bytes chunks found).cuts ordered
    have within := cuts.rest.1
    rw [orTrap, ok_bind]
    refine mapM_eq_map fun range present => ?_
    have bounds := mem_ranges present
    rw [sliceAt_of (by omega) (by omega)]
    rfl

theorem segmentBounds_eq (segmentBuf : Bytes) :
    (segmentBounds chunkAddress chunkScanner p segmentBuf : Except (Stop ε) _) =
      orTrap (Pcdc.segmentBounds chunkAddress chunkScanner p segmentBuf) := by
  rw [segmentBounds, Pcdc.segmentBounds]
  split
  · rfl
  · exact collect_eq ordered serial segmentBuf

variable {buffer : Bytes} (fits : buffer.length < 2 ^ 63)

include fits

theorem scanSegments_eq {segments : List (Nat × Nat)}
    (inFile : ∀ x ∈ segments, x.1 < x.2 ∧ x.2 ≤ buffer.length) (segIdx : Nat) :
    (scanSegments chunkAddress chunkScanner p buffer segIdx segments : Except (Stop ε) _) =
      orTrap (Pcdc.scanSegments chunkAddress chunkScanner p buffer segIdx segments) := by
  induction segments generalizing segIdx with
  | nil => rfl
  | cons segment rest ih =>
    obtain ⟨s, e⟩ := segment
    rw [List.forall_mem_cons] at inFile
    obtain ⟨⟨order, within⟩, inFile⟩ := inFile
    dsimp only at order within
    have some : slice buffer s e ≠ [] := by
      rw [← List.length_pos_iff, length_slice]
      omega
    rw [scanSegments, Pcdc.scanSegments, sliceAt_of (by omega) within, ok_bind, if_neg some,
      if_neg some, segmentBounds_eq ordered serial, ih inFile]
    cases found : Pcdc.segmentBounds chunkAddress chunkScanner p (slice buffer s e) with
    | none => rfl
    | some bounds =>
      have inside := (cover_segmentBounds ordered serial some found).inside
      have moved : ∀ b ∈ bounds, b.start + s < 2 ^ 64 ∧ b.stop + s < 2 ^ 64 := by
        intro b member
        have stop := (inside b member).2
        have sized := (cover_segmentBounds ordered serial some found).sized b member
        rw [length_slice] at stop
        omega
      rw [orTrap, ok_bind, placed_eq moved, ok_bind]
      cases Pcdc.scanSegments chunkAddress chunkScanner p buffer (segIdx + 1) rest with
      | none => rfl
      | some later => rfl

/-- The scan behind the walk, over what it accepts. -/
theorem scanCuts_eq (positive : 0 < p.minSize) (small : p.minSize < 2 ^ 63) (cuts : List Nat) :
    (scanCuts chunkAddress chunkScanner p buffer cuts : Except (Stop ε) _) =
      orTrap (if Pcdc.absorb p.minSize buffer.length 0 cuts = [] then
          (chunkScanner p buffer).map fun ranges =>
            ⟨addressRanges chunkAddress buffer ranges,
              List.replicate (addressRanges chunkAddress buffer ranges).length false⟩
        else
          (Pcdc.scanSegments chunkAddress chunkScanner p buffer 0 (segmentsFrom buffer.length 0
            (Pcdc.absorb p.minSize buffer.length 0 cuts))).map chunkSet) := by
  rw [scanCuts, absorb_eq (by omega), ok_bind]
  split
  · rw [collect_eq ordered serial]
    cases chunkScanner p buffer with
    | none => rfl
    | some ranges => rfl
  · rename_i accepted
    have some : 0 < buffer.length := by
      by_contra empty
      rw [Nat.eq_zero_of_not_pos empty] at accepted
      exact accepted (absorb_empty positive cuts)
    rw [scanSegments_eq ordered serial fits (absorb_spaced positive some cuts)]
    cases Pcdc.scanSegments chunkAddress chunkScanner p buffer 0 (segmentsFrom buffer.length 0
      (Pcdc.absorb p.minSize buffer.length 0 cuts)) with
    | none => rfl
    | some chunks => rfl

/-- **The checked scan comes to what the scan of `Containers` returns.** -/
theorem scanFormatAware_returns (valid : p.validate = .ok ()) (format : Option ContainerFormat) :
    Returns (fun fuel => scanFormatAware chunkAddress chunkScanner p fuel buffer format)
      (orTrap (Pcdc.scanFormatAware chunkAddress chunkScanner p buffer format) >>= orFail) := by
  obtain ⟨positive, -, bound⟩ := (validate_eq_ok p).mp valid
  have walked := (forcedCuts_returns (ε := String) fits format).map
    (· >>= scanCuts chunkAddress chunkScanner p buffer)
  simp only [scanFormatAware, Pcdc.scanFormatAware, valid]
  cases found : Pcdc.forcedCuts buffer format with
  | none =>
    rw [found] at walked
    exact walked
  | some cuts =>
    rw [found, orTrap, ok_bind, scanCuts_eq ordered serial fits positive (by omega)] at walked
    rw [Option.bind_eq_bind, Option.bind_some]
    split
    · rename_i none
      rw [if_pos none] at walked
      cases scanned : chunkScanner p buffer with
      | none =>
        rw [scanned] at walked
        exact walked
      | some ranges =>
        rw [scanned] at walked
        exact walked
    · rename_i some
      rw [if_neg some] at walked
      cases scanned : Pcdc.scanSegments chunkAddress chunkScanner p buffer 0
          (segmentsFrom buffer.length 0 (Pcdc.absorb p.minSize buffer.length 0 cuts)) with
      | none =>
        rw [scanned] at walked
        exact walked
      | some chunks =>
        rw [scanned] at walked
        exact walked

end Serial

/-! ## Every file -/

/-- A forced cut that the scan accepts, of those that the parser reports. -/
def Accepted (p : CdcParams) (buffer : Bytes) (format : Option ContainerFormat) (c : Nat) : Prop :=
  ∃ fuel cuts accepted, forcedCuts (ε := String) fuel buffer format = some (.ok cuts) ∧
    absorb (ε := String) p.minSize buffer.length 0 cuts = .ok accepted ∧ c ∈ accepted

/-- **The scan is safe on a file exactly where no box wraps and no unsupported cut is needed.** -/
theorem scan_format_aware_safe_iff (F : FastCdc) (chunkAddress : Bytes → Bytes)
    (chunkScanner : ChunkScanner) (p : CdcParams) (valid : p.validate = .ok ())
    (serial : ∀ bytes chunks, chunkScanner p bytes = some chunks → SerialChunks F p bytes chunks)
    (supports : ∀ bytes, (∃ chunks, chunkScanner p bytes = some chunks) ↔ Supported p)
    (buffer : Bytes) (fits : buffer.length < 2 ^ 63) (format : Option ContainerFormat) :
    (∃ fuel set, scanFormatAware chunkAddress chunkScanner p fuel buffer format = some (.ok set) ∧
      (Cover chunkAddress p buffer 0 buffer.length set.boundaries ∧
        ∀ c, Accepted p buffer format c → ∃ b ∈ set.boundaries, b.start = c)) ↔
    (format = some .mp4 → BoxesStayLow buffer) ∧ (Supported p ∨ NothingLong p buffer format) := by
  obtain ⟨positive, ordered, bound⟩ := (validate_eq_ok p).mp valid
  have walks := forcedCuts_returns (ε := String) fits format
  rw [(scanFormatAware_returns ordered serial fits valid format).exists_iff, ←
    exists_scanFormatAware chunkAddress valid supports]
  have value (set : FormatAwareChunkSet) :
      orTrap (Pcdc.scanFormatAware chunkAddress chunkScanner p buffer format) >>= orFail = .ok set ↔
        Pcdc.scanFormatAware chunkAddress chunkScanner p buffer format = some (.ok set) := by
    cases Pcdc.scanFormatAware chunkAddress chunkScanner p buffer format with
    | none => exact ⟨nofun, nofun⟩
    | some result => exact orFail_eq_ok.trans (Option.some.injEq .. ▸ Iff.rfl)
  simp only [value]
  constructor
  · rintro ⟨set, returned, -⟩
    exact ⟨set, returned⟩
  · rintro ⟨set, returned⟩
    obtain ⟨cover, cut⟩ := cover_scanFormatAware valid serial returned
    refine ⟨set, returned, cover, ?_⟩
    rintro c ⟨fuel, cuts, accepted, walked, absorbed, member⟩
    have reported := walks.only walked
    rw [absorb_eq (by omega)] at absorbed
    obtain rfl := Except.ok.inj absorbed
    cases found : Pcdc.forcedCuts buffer format with
    | none =>
      rw [found] at reported
      cases reported
    | some cuts' =>
      rw [found] at reported
      obtain rfl := Except.ok.inj reported
      exact cut cuts found c member

/-! Two boxes of 64 bytes, with a cut between them. -/

/-- The serial scanner, which panics on the sizes it does not support. -/
def strictScanner : ChunkScanner := fun p bytes => if Supported p then serialScanner p bytes else none

theorem strictScanner_serial (p : CdcParams) (bytes : Bytes) (chunks : List (Nat × Nat))
    (found : strictScanner p bytes = some chunks) : SerialChunks padded p bytes chunks := by
  rw [strictScanner] at found
  split at found
  · exact ⟨bytes.length + 1, found⟩
  · cases found

theorem strictScanner_supports {p : CdcParams} (valid : p.validate = .ok ()) (bytes : Bytes) :
    (∃ chunks, strictScanner p bytes = some chunks) ↔ Supported p := by
  obtain ⟨positive, ordered, -⟩ := (validate_eq_ok p).mp valid
  constructor
  · rintro ⟨chunks, found⟩
    by_contra unsupported
    rw [strictScanner, if_neg unsupported] at found
    cases found
  · intro supported
    have two : 2 ≤ p.minSize := Nat.le_trans (by decide) supported.1.1
    obtain ⟨sizes, cuts⟩ := (not_stalls_iff ordered positive).mp
      (not_stalls_of_two_le (F := padded) two bytes)
    have count := cuts.length_le
    have total := cuts.rest.1
    rw [← List.drop_zero (l := bytes)] at cuts
    rw [strictScanner, if_pos supported, serialScanner]
    exact ⟨_, walk_complete padded ordered cuts (Nat.zero_le _) (by omega) []⟩

def box64 (kind : String) : Bytes := [0, 0, 0, 64] ++ ascii kind ++ List.replicate 56 0

theorem scan_format_aware_safe_two_boxes :
    CdcParams.validate ⟨64, 256, 1024⟩ = .ok () ∧
    ∃ fuel set, scanFormatAware id strictScanner ⟨64, 256, 1024⟩ fuel (box64 "ftyp" ++ box64 "mdat")
        (some .mp4) = some (.ok set) ∧
      (Cover id ⟨64, 256, 1024⟩ (box64 "ftyp" ++ box64 "mdat") 0 128 set.boundaries ∧
        ∀ c, Accepted ⟨64, 256, 1024⟩ (box64 "ftyp" ++ box64 "mdat") (some .mp4) c →
          ∃ b ∈ set.boundaries, b.start = c) := by
  have valid : CdcParams.validate ⟨64, 256, 1024⟩ = .ok () := by decide
  have walked : Pcdc.forcedCuts (box64 "ftyp" ++ box64 "mdat") (some .mp4) = some [0, 64] := by
    decide +kernel
  exact ⟨valid, (scan_format_aware_safe_iff padded id strictScanner ⟨64, 256, 1024⟩ valid
    (strictScanner_serial _) (strictScanner_supports valid) (box64 "ftyp" ++ box64 "mdat")
    (by decide +kernel)
    (some .mp4)).mpr ⟨(exists_forcedCuts _).mp ⟨_, walked⟩, .inl (by decide)⟩⟩

/-- A box whose 64-bit size is `2 ^ 64 - 8`. -/
def farBox : Bytes := [0, 0, 0, 1] ++ ascii "ftyp" ++ [255, 255, 255, 255, 255, 255, 255, 248]

/-- The walk goes on behind that box, where its bound wraps. -/
theorem scan_format_aware_wraps : CdcParams.default.validate = .ok () ∧
    ¬ ∃ fuel set, scanFormatAware id strictScanner .default fuel farBox (some .mp4) =
        some (.ok set) ∧
      (Cover id .default farBox 0 farBox.length set.boundaries ∧
        ∀ c, Accepted .default farBox (some .mp4) c → ∃ b ∈ set.boundaries, b.start = c) := by
  have valid : CdcParams.default.validate = .ok () := by decide
  refine ⟨valid, ?_⟩
  rintro ⟨fuel, set, ran, -⟩
  have stops : Pcdc.scanFormatAware id strictScanner .default farBox (some .mp4) = none := by
    decide +kernel
  have value := (scanFormatAware_returns (by decide) (strictScanner_serial _) (by decide) valid
    (some .mp4)).only ran
  rw [stops] at value
  cases value

end OneLink.Pcdc.Checked
