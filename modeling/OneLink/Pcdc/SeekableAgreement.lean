/-
# Pcdc.SeekableAgreement -- the seekable scan returns what the in-memory scan does

The read-ahead window always holds a part of the file (`Headers.Holds`), so a
header is read as from the buffer, and each walker collects the same cuts
(`recordsSeekable_eq`, `boxesSeekable_eq`, `dataChunkSeekable_eq`).  The segments
are then chunked alike: a stream is scanned as the whole buffer is.
-/
import OneLink.Pcdc.Seekable
import OneLink.Pcdc.Stream

namespace OneLink.Pcdc

open Library Library.PrefixCut

set_option autoImplicit false

/-! ## Headers -/

theorem take_slice (content : Bytes) (start : Nat) {m n : Nat} (within : m ≤ n) :
    (slice content start (start + n)).take m = slice content start (start + m) := by
  rw [slice, slice, List.take_drop, List.take_take, Nat.min_eq_left (by omega)]

theorem drop_slice (content : Bytes) (start m n : Nat) :
    (slice content start (start + n)).drop m = slice content (start + m) (start + n) := by
  rw [slice, slice, List.drop_drop]

theorem slice_eq_take_drop (content : Bytes) (s e : Nat) :
    slice content s e = (content.drop s).take (e - s) := List.drop_take

/-- The read-ahead window is a part of the file. -/
structure Headers.Holds (content : Bytes) (h : Headers) : Prop where
  source : h.source.content = content
  len : h.len = content.length
  window : h.window = slice content h.windowStart (h.windowStart + h.window.length)

theorem Headers.holds_new (source : Source) :
    (Headers.new source source.content.length).Holds source.content :=
  ⟨rfl, rfl, rfl⟩

variable {content : Bytes} {h : Headers}

/-- Bytes inside the file are read as from a buffer. -/
theorem Headers.Holds.inside (holds : h.Holds content) (fits : content.length < 2 ^ 64) {pos n : Nat}
    (within : pos + n ≤ content.length) :
    ∃ h', h.bytesAt pos n = (some (slice content pos (pos + n)), h') ∧ h'.Holds content := by
  rw [bytesAt, if_neg (by omega), if_neg (by rw [holds.len]; omega)]
  split
  · rename_i held
    refine ⟨h, ?_, holds⟩
    conv_lhs => rw [holds.window]
    rw [slice_slice content _ (by omega), Nat.add_sub_cancel' held.1, ← Nat.add_assoc,
      Nat.add_sub_cancel' held.1]
  · have read := (readToEnd_spec (min (max headerReadAhead n) (h.len - pos)) (h.source.seek pos).1).1
    have room : n ≤ min (max headerReadAhead n) (h.len - pos) := by
      rw [holds.len]
      omega
    simp only [Source.seek, holds.source] at read ⊢
    generalize min (max headerReadAhead n) (h.len - pos) = want at read room ⊢
    rw [read]
    have long : ¬ ((content.drop pos).take want).length < n := by
      rw [List.length_take, List.length_drop]
      omega
    rw [if_neg long]
    refine ⟨⟨⟨content, h.source.pace, h.source.seeks + 1⟩, h.len, (content.drop pos).take want, pos⟩,
      ?_, rfl, holds.len, ?_⟩
    · rw [slice, List.drop_zero, List.take_take, Nat.min_eq_left room, slice_eq_take_drop,
        Nat.add_sub_cancel_left]
    · show (content.drop pos).take want = slice content pos (pos + ((content.drop pos).take want).length)
      rw [slice_eq_take_drop, Nat.add_sub_cancel_left, List.length_take, ← List.take_eq_take_min]

theorem Headers.Holds.outside (holds : h.Holds content) {pos n : Nat}
    (past : content.length < pos + n) : h.bytesAt pos n = (none, h) := by
  rw [bytesAt]
  split
  · rfl
  · rw [if_pos (by rw [holds.len]; omega)]

/-! ## Walkers -/

theorem recordsSeekable_eq (fits : content.length < 2 ^ 64) {dataEnd : Nat}
    (inFile : dataEnd ≤ content.length) (pos : Nat) (holds : h.Holds content) :
    ∃ h', recordsSeekable dataEnd h pos = (recordsFrom content dataEnd pos, h') ∧
      h'.Holds content := by
  fun_induction recordsFrom content dataEnd pos generalizing h with
  | case1 pos more found =>
    obtain ⟨h', read, holds'⟩ := holds.inside fits (Nat.le_trans more inFile)
    rw [recordsSeekable, dif_pos more, read]
    dsimp only
    split
    · exact ⟨h', rfl, holds'⟩
    · rename_i next again
      rw [found] at again
      cases again
  | case2 pos more next found ih =>
    obtain ⟨h', read, holds'⟩ := holds.inside fits (Nat.le_trans more inFile)
    obtain ⟨last, later, holds''⟩ := ih holds'
    rw [recordsSeekable, dif_pos more, read]
    dsimp only
    split
    · rename_i again
      rw [found] at again
      cases again
    · rename_i next' again
      obtain rfl := Option.some.inj (found.symm.trans again)
      rw [later]
      exact ⟨last, rfl, holds''⟩
  | case3 pos more =>
    rw [recordsSeekable, dif_neg more]
    exact ⟨h, rfl, holds⟩

theorem mcapRecordOffsetsSeekable_eq (source : Source) (fits : source.content.length < 2 ^ 64) :
    ∃ source', mcapRecordOffsetsSeekable source source.content.length =
        (mcapRecordOffsets source.content, source') ∧ source'.content = source.content := by
  have holds := Headers.holds_new source
  simp only [mcapRecordOffsetsSeekable, mcapRecordOffsets]
  rw [show mcapMagic.length = 8 from rfl, show recordHeader = 9 from rfl]
  by_cases short : source.content.length < 8 + 9
  · rw [if_pos short, if_pos (.inl short)]
    exact ⟨_, rfl, rfl⟩
  rw [if_neg short]
  generalize Headers.new source source.content.length = h at holds
  generalize source.content = content at holds fits short
  have long : content.length ≥ 2 * 8 := by omega
  obtain ⟨h₁, head, holds₁⟩ := holds.inside fits (show 0 + (8 + 1) ≤ content.length by omega)
  obtain ⟨h₂, tail, holds₂⟩ := holds₁.inside fits (show content.length - 8 + 8 ≤ content.length by omega)
  rw [head]
  dsimp only
  rw [@take_slice content 0 8 (8 + 1) (by omega), @getD_slice content 0 (8 + 1) 8 (by omega),
    if_pos long, tail, Nat.sub_add_cancel (show 8 ≤ content.length by omega)]
  simp only [Nat.zero_add, Option.some.injEq, long, and_true]
  by_cases begins : slice content 0 8 = mcapMagic ∧ content.getD 8 0 = 1
  · have dataEnd_le : (if slice content (content.length - 8) content.length = mcapMagic then
        content.length - 8 else content.length) ≤ content.length := by
      split <;> omega
    obtain ⟨h₃, walked, holds₃⟩ := recordsSeekable_eq fits dataEnd_le 8 holds₂
    have proceeds : ¬ (content.length < 8 + 9 ∨ slice content 0 8 ≠ mcapMagic ∨
        content.getD 8 0 ≠ 1) := by
      simp only [short, begins.1, begins.2, ne_eq, not_true_eq_false, or_self, not_false_eq_true]
    rw [if_pos begins, walked, if_neg proceeds]
    exact ⟨_, rfl, holds₃.source⟩
  · rw [if_neg begins, if_pos (by
      rw [not_and_or] at begins
      exact .inr begins)]
    exact ⟨_, rfl, holds₁.source⟩

theorem boxAdvanceSeekable_eq (fits : content.length < 2 ^ 64) (pos : Nat) (holds : h.Holds content) :
    ∃ h', boxAdvanceSeekable h pos (slice content pos (pos + 8)) = (boxAdvance content pos, h') ∧
      h'.Holds content := by
  simp only [boxAdvanceSeekable, boxAdvance]
  rw [take_slice content pos (by omega : 4 ≤ 8)]
  by_cases extended : beValue (slice content pos (pos + 4)) = 1
  · rw [if_pos extended, if_pos extended]
    by_cases room : pos + 16 > content.length
    · rw [if_pos room, holds.outside (by omega)]
      exact ⟨h, rfl, holds⟩
    · obtain ⟨h', read, holds'⟩ := holds.inside fits (show pos + 8 + 8 ≤ content.length by omega)
      rw [if_neg room, read]
      exact ⟨h', rfl, holds'⟩
  · rw [if_neg extended, if_neg extended]
    by_cases toEnd : beValue (slice content pos (pos + 4)) = 0
    · rw [if_pos toEnd, if_pos toEnd]
      exact ⟨h, rfl, holds⟩
    · rw [if_neg toEnd, if_neg toEnd]
      exact ⟨h, rfl, holds⟩

theorem boxesSeekable_eq (fits : content.length < 2 ^ 64) {pos : Nat} {offsets : List Nat}
    (walked : boxesFrom content pos = some offsets) (holds : h.Holds content) :
    ∃ h', boxesSeekable content.length h pos = (offsets, h') ∧ h'.Holds content := by
  fun_induction boxesFrom content pos generalizing h offsets with
  | case1 pos wraps => cases walked
  | case2 pos room more kind stopped =>
    obtain rfl := Option.some.inj walked
    obtain ⟨h₁, read, holds₁⟩ := holds.inside fits more
    obtain ⟨h₂, advanced, holds₂⟩ := boxAdvanceSeekable_eq fits pos holds₁
    rw [boxesSeekable, dif_pos more, read]
    dsimp only
    rw [drop_slice, if_pos kind, advanced]
    dsimp only
    split
    · exact ⟨h₂, rfl, holds₂⟩
    · rename_i again
      rw [stopped] at again
      cases again
  | case3 pos room more kind next found ih =>
    obtain ⟨later, walked', rfl⟩ := Option.map_eq_some_iff.1 walked
    obtain ⟨h₁, read, holds₁⟩ := holds.inside fits more
    obtain ⟨h₂, advanced, holds₂⟩ := boxAdvanceSeekable_eq fits pos holds₁
    obtain ⟨h₃, rest, holds₃⟩ := ih walked' holds₂
    rw [boxesSeekable, dif_pos more, read]
    dsimp only
    rw [drop_slice, if_pos kind, advanced]
    dsimp only
    split
    · rename_i again
      rw [found] at again
      cases again
    · rename_i next' again
      obtain rfl := Option.some.inj (found.symm.trans again)
      rw [rest]
      exact ⟨h₃, rfl, holds₃⟩
  | case4 pos room more kind =>
    obtain rfl := Option.some.inj walked
    obtain ⟨h₁, read, holds₁⟩ := holds.inside fits more
    rw [boxesSeekable, dif_pos more, read]
    dsimp only
    rw [drop_slice, if_neg kind]
    exact ⟨h₁, rfl, holds₁⟩
  | case5 pos room more =>
    obtain rfl := Option.some.inj walked
    rw [boxesSeekable, dif_neg more]
    exact ⟨h, rfl, holds⟩

theorem dataChunkSeekable_eq (fits : content.length < 2 ^ 64) (pos : Nat) (holds : h.Holds content) :
    ∃ h', dataChunkSeekable content.length h pos = (dataChunkFrom content pos, h') ∧
      h'.Holds content := by
  fun_induction dataChunkFrom content pos generalizing h with
  | case1 pos more isData =>
    obtain ⟨h₁, read, holds₁⟩ := holds.inside fits more
    rw [dataChunkSeekable, dif_pos more, read]
    dsimp only
    rw [take_slice content pos (by omega : 4 ≤ 8), if_pos isData]
    exact ⟨h₁, rfl, holds₁⟩
  | case2 pos more other ih =>
    obtain ⟨h₁, read, holds₁⟩ := holds.inside fits more
    obtain ⟨h₂, rest, holds₂⟩ := ih holds₁
    rw [dataChunkSeekable, dif_pos more, read]
    dsimp only
    rw [take_slice content pos (by omega : 4 ≤ 8), if_neg other, rest]
    exact ⟨h₂, rfl, holds₂⟩
  | case3 pos more =>
    rw [dataChunkSeekable, dif_neg more]
    exact ⟨h, rfl, holds⟩

theorem wavDataOffsetSeekable_eq (source : Source) (fits : source.content.length < 2 ^ 64) :
    ∃ source', wavDataOffsetSeekable source source.content.length =
        (wavDataOffset source.content, source') ∧ source'.content = source.content := by
  have holds := Headers.holds_new source
  rw [wavDataOffsetSeekable, wavDataOffset]
  generalize Headers.new source source.content.length = h at holds
  generalize source.content = content at holds fits
  by_cases short : content.length < 12
  · rw [holds.outside (by omega), if_pos (.inl short)]
    exact ⟨_, rfl, holds.source⟩
  obtain ⟨h₁, head, holds₁⟩ := holds.inside fits (show 0 + 12 ≤ content.length by omega)
  rw [head]
  dsimp only
  rw [slice_slice content 0 (by omega : 4 ≤ 12), slice_slice content 0 (by omega : 12 ≤ 12)]
  by_cases wave : slice content 0 4 = ascii "RIFF" ∧ slice content 8 12 = ascii "WAVE"
  · obtain ⟨h₂, walked, holds₂⟩ := dataChunkSeekable_eq fits 12 holds₁
    rw [if_pos wave, if_neg (by simp [short, wave.1, wave.2]), walked]
    exact ⟨_, rfl, holds₂.source⟩
  · rw [if_neg wave, if_pos (by
      rw [not_and_or] at wave
      exact .inr wave)]
    exact ⟨_, rfl, holds₁.source⟩

/-! ## Segments -/

section Segments

variable {F : FastCdc} {p : CdcParams} {chunkAddress : Bytes → Bytes}
variable (ordered : p.minSize < p.avgSize ∧ p.avgSize < p.maxSize)

include ordered in
/-- A stream of bytes that can be cut is scanned as the bytes are. -/
theorem scanStream_eq (valid : p.validate = .ok ()) {bytes : Bytes} {sizes : List Nat}
    (cuts : (cutter F ordered).Cuts bytes sizes []) (fits : bytes.length < 2 ^ 64) {fuel : Nat}
    (enough : 3 * bytes.length + 2 < fuel) (pace : Nat → Nat) :
    scanStream F chunkAddress p fuel ⟨bytes, pace, 0⟩ bytes.length =
      some (.ok (addressRanges chunkAddress bytes (ranges 0 sizes))) := by
  obtain ⟨result, looped⟩ : ∃ result, scanLoop F chunkAddress p bytes.length fuel
      ⟨⟨bytes, pace, 0⟩, min (max streamWindow (4 * p.maxSize)) (max bytes.length 1), [], 0, false, []⟩ =
        some result :=
    scanLoop_total (inv_start bytes pace 0 bytes.length streamWindow) fits cuts (by
      simp only [toGo]
      split <;> omega)
  have returned : scanStreamWindowed F chunkAddress fuel ⟨bytes, pace, 0⟩ bytes.length p streamWindow =
      some result := by
    rw [scanStreamWindowed, valid]
    exact looped
  obtain ⟨sizes', cuts', rfl⟩ := scan_sound ordered valid fits returned
  obtain rfl := cuts'.unique cuts
  rw [scanStream, returned, Whole, if_pos rfl]
  rfl

variable (F p) in
/-- The chunks that the serial rule cuts, one behind the other: what `FastCDC` yields. -/
def SerialChunks (bytes : Bytes) (chunks : List (Nat × Nat)) : Prop :=
  ∃ fuel, walk bytes.length (fun start => serialCut F p (bytes.drop start)) fuel 0 [] = some chunks

theorem SerialChunks.cuts {bytes : Bytes} {chunks : List (Nat × Nat)}
    (serial : SerialChunks F p bytes chunks) :
    ∃ sizes, (cutter F ordered).Cuts bytes sizes [] ∧ chunks = ranges 0 sizes := by
  obtain ⟨fuel, walked⟩ := serial
  exact walk_sound F ordered walked (Nat.zero_le _)

variable {chunkScanner : ChunkScanner}

include ordered in
/-- One segment: short ones are read whole, the others are streamed. -/
theorem segmentBoundsSeekable_eq (valid : p.validate = .ok ())
    (serial : ∀ bytes chunks, chunkScanner p bytes = some chunks → SerialChunks F p bytes chunks)
    (fits : content.length < 2 ^ 64) {fuel : Nat} (enough : 3 * content.length + 2 < fuel) {s e : Nat}
    (inFile : e ≤ content.length) (pace : Nat → Nat) {bounds : List Boundary}
    (scanned : segmentBounds chunkAddress chunkScanner p (slice content s e) = some bounds) :
    segmentBoundsSeekable F chunkAddress p fuel ⟨content.drop s, pace, 0⟩ s e = some (.ok bounds) := by
  have length : (slice content s e).length = e - s := by
    rw [length_slice, Nat.min_eq_left inFile]
  have part : (content.drop s).take (e - s) = slice content s e := (slice_eq_take_drop _ _ _).symm
  rw [segmentBounds, length] at scanned
  rw [segmentBoundsSeekable]
  split at scanned
  · rename_i short
    obtain rfl := Option.some.inj scanned
    have read := (readToEnd_spec (e - s) ⟨content.drop s, pace, 0⟩).1
    rw [if_pos short, read, part]
    exact if_neg (not_not_intro length)
  · rename_i long
    obtain ⟨chunks, found, rfl⟩ := Option.map_eq_some_iff.1 scanned
    obtain ⟨sizes, cuts, rfl⟩ := (serial _ _ found).cuts ordered
    rw [if_neg long, part, ← length]
    exact scanStream_eq ordered valid cuts (by omega) (by omega) pace

include ordered in
theorem scanSegmentsSeekable_eq (valid : p.validate = .ok ())
    (serial : ∀ bytes chunks, chunkScanner p bytes = some chunks → SerialChunks F p bytes chunks)
    (fits : content.length < 2 ^ 64) {fuel : Nat} (enough : 3 * content.length + 2 < fuel)
    {segments : List (Nat × Nat)} (inFile : ∀ x ∈ segments, x.1 ≤ x.2 ∧ x.2 ≤ content.length)
    {source : Source} (holds : source.content = content) {segIdx : Nat}
    {chunks : List (Boundary × Bool)}
    (scanned : scanSegments chunkAddress chunkScanner p content segIdx segments = some chunks) :
    scanSegmentsSeekable F chunkAddress p fuel source segIdx segments = some (.ok chunks) := by
  induction segments generalizing source segIdx chunks with
  | nil =>
    obtain rfl := Option.some.inj scanned
    rw [scanSegmentsSeekable]
  | cons segment rest ih =>
    obtain ⟨s, e⟩ := segment
    rw [List.forall_mem_cons] at inFile
    obtain ⟨⟨order, stop⟩, inFile⟩ := inFile
    have empty : slice content s e = [] ↔ s = e := by
      rw [← List.length_eq_zero_iff, length_slice]
      omega
    rw [scanSegments] at scanned
    rw [scanSegmentsSeekable]
    by_cases same : s = e
    · rw [if_pos (empty.2 same)] at scanned
      rw [if_pos same]
      exact ih inFile holds scanned
    · rw [if_neg (mt empty.1 same)] at scanned
      simp only [Option.bind_eq_bind, Option.bind_eq_some_iff, Option.pure_def, Option.some.injEq]
        at scanned
      obtain ⟨bounds, first, later, behind, rfl⟩ := scanned
      rw [if_neg same]
      simp only [Source.seek, holds]
      rw [segmentBoundsSeekable_eq ordered valid serial fits enough stop _ first]
      dsimp only
      rw [ih inFile rfl behind]
      rfl

/-- The segments between absorbed cuts lie in the file, in order. -/
theorem segmentsFrom_absorb {len minSize prev : Nat} (start : prev ≤ len) (cuts : List Nat) :
    ∀ x ∈ segmentsFrom len prev (absorb minSize len prev cuts), x.1 ≤ x.2 ∧ x.2 ≤ len := by
  induction cuts generalizing prev with
  | nil =>
    intro x isSegment
    rw [List.mem_singleton.1 isSegment]
    exact ⟨start, Nat.le_refl len⟩
  | cons c rest ih =>
    rw [absorb]
    split
    · rename_i accepted
      rw [segmentsFrom, List.forall_mem_cons]
      exact ⟨⟨by omega, by omega⟩, ih (by omega)⟩
    · exact ih start

include ordered in
/-- Behind equal cuts both scans return the same. -/
theorem scanCutsSeekable_eq (valid : p.validate = .ok ())
    (serial : ∀ bytes chunks, chunkScanner p bytes = some chunks → SerialChunks F p bytes chunks)
    (fits : content.length < 2 ^ 64) {fuel : Nat} (enough : 3 * content.length + 2 < fuel)
    {source : Source} (holds : source.content = content) {format : Option ContainerFormat}
    {cuts : List Nat} (forced : forcedCuts content format = some cuts)
    {result : Except String FormatAwareChunkSet}
    (scanned : scanFormatAware chunkAddress chunkScanner p content format = some result) :
    scanCutsSeekable F chunkAddress p fuel source content.length cuts =
      some (result.mapError .params) := by
  simp only [scanFormatAware, valid, forced, Option.bind_eq_bind, Option.bind_some,
    Option.pure_def] at scanned
  rw [scanCutsSeekable]
  split at scanned
  · rename_i none
    obtain ⟨chunks, found, shape⟩ := Option.bind_eq_some_iff.1 scanned
    obtain rfl := Option.some.inj shape
    obtain ⟨sizes, cuts, rfl⟩ := (serial _ _ found).cuts ordered
    rw [if_pos none, Source.seek, holds, List.drop_zero,
      scanStream_eq ordered valid cuts fits enough]
    rfl
  · rename_i some
    obtain ⟨chunks, found, shape⟩ := Option.bind_eq_some_iff.1 scanned
    obtain rfl := Option.some.inj shape
    rw [if_neg some, scanSegmentsSeekable_eq ordered valid serial fits enough
      (segmentsFrom_absorb (Nat.zero_le _) cuts) holds found]
    rfl

end Segments

theorem scanWhole_eq {chunkAddress : Bytes → Bytes} {chunkScanner : ChunkScanner} {p : CdcParams}
    {source : Source} {format : Option ContainerFormat} {limit : Nat}
    {result : Except String FormatAwareChunkSet}
    (scanned : scanFormatAware chunkAddress chunkScanner p source.content format = some result) :
    scanWhole chunkAddress chunkScanner p source source.content.length format limit =
        some (result.mapError .params) ∨
      scanWhole chunkAddress chunkScanner p source source.content.length format limit =
        some (.error (.needsWholeFile source.content.length limit)) := by
  rw [scanWhole]
  split
  · exact .inr rfl
  · have read := (readToEnd_spec source.content.length (source.seek 0).1).1
    rw [read]
    simp only [Source.seek, List.drop_zero, List.take_length, scanned]
    exact .inl rfl

/-- **The seekable scan returns what the in-memory scan does**, or asks for the whole file. -/
theorem seekable_eq_in_memory (F : FastCdc) (chunkAddress : Bytes → Bytes)
    (chunkScanner : ChunkScanner) (p : CdcParams)
    (serial : ∀ bytes chunks, chunkScanner p bytes = some chunks → SerialChunks F p bytes chunks)
    (source : Source) (fits : source.content.length < 2 ^ 64) (format : Option ContainerFormat)
    (limit : Nat) (result : Except String FormatAwareChunkSet)
    (returned : scanFormatAware chunkAddress chunkScanner p source.content format = some result) :
    ∃ fuel,
      scanFormatAwareSeekable F chunkAddress chunkScanner p fuel source source.content.length format
          limit = some (result.mapError .params) ∨
        scanFormatAwareSeekable F chunkAddress chunkScanner p fuel source source.content.length format
          limit = some (.error (.needsWholeFile source.content.length limit)) := by
  refine ⟨3 * source.content.length + 3, ?_⟩
  unfold scanFormatAwareSeekable
  cases valid : p.validate with
  | error message =>
    rw [scanFormatAware, valid] at returned
    obtain rfl := Option.some.inj returned
    exact .inl rfl
  | ok _ =>
    obtain ⟨-, ordered, -⟩ := (validate_eq_ok p).1 valid
    have scanned {source' : Source} {cuts : List Nat} (holds : source'.content = source.content)
        (forced : forcedCuts source.content format = some cuts) :=
      scanCutsSeekable_eq ordered valid serial fits (Nat.lt_succ_self _) holds forced returned
    cases format with
    | none => exact .inl (scanned rfl rfl)
    | some format =>
      cases format with
      | zip => exact scanWhole_eq returned
      | h264AnnexB => exact scanWhole_eq returned
      | mp4 =>
        cases walked : mp4BoxOffsets source.content with
        | none => simp only [scanFormatAware, valid, forcedCuts, walked, Option.bind_eq_bind,
            Option.bind_none, reduceCtorEq] at returned
        | some cuts =>
          obtain ⟨h, seekable, holds⟩ := boxesSeekable_eq fits walked (Headers.holds_new source)
          dsimp only
          rw [mp4BoxOffsetsSeekable, seekable]
          exact .inl (scanned holds.source walked)
      | wav =>
        obtain ⟨source', seekable, holds⟩ := wavDataOffsetSeekable_eq source fits
        dsimp only
        rw [seekable]
        exact .inl (scanned holds rfl)
      | mcap =>
        obtain ⟨source', seekable, holds⟩ := mcapRecordOffsetsSeekable_eq source fits
        dsimp only
        rw [seekable]
        exact .inl (scanned holds rfl)

/-! Two boxes of sixteen bytes, cut between them and short enough to be one chunk each. -/

def serialScanner : ChunkScanner := fun p bytes =>
  walk bytes.length (fun start => serialCut padded p (bytes.drop start)) (bytes.length + 1) 0 []

def ftypBox : Bytes := [0, 0, 0, 16] ++ ascii "ftypisom" ++ [0, 0, 2, 0]

def mdatBox : Bytes := [0, 0, 0, 16] ++ ascii "mdatABCD" ++ [1, 2, 3, 4]

theorem seekable_eq_in_memory_two_boxes :
    scanFormatAware id serialScanner ⟨8, 16, 64⟩ (ftypBox ++ mdatBox) (some .mp4) =
        some (.ok ⟨[⟨0, 16, ftypBox⟩, ⟨16, 32, mdatBox⟩], [false, true]⟩) ∧
      ∃ fuel,
        scanFormatAwareSeekable padded id serialScanner ⟨8, 16, 64⟩ fuel
            ⟨ftypBox ++ mdatBox, fun _ _ => 2, 0⟩ 32 (some .mp4) 0 =
          some (.ok ⟨[⟨0, 16, ftypBox⟩, ⟨16, 32, mdatBox⟩], [false, true]⟩) ∨
        scanFormatAwareSeekable padded id serialScanner ⟨8, 16, 64⟩ fuel
            ⟨ftypBox ++ mdatBox, fun _ _ => 2, 0⟩ 32 (some .mp4) 0 =
          some (.error (.needsWholeFile 32 0)) := by
  have returned : scanFormatAware id serialScanner ⟨8, 16, 64⟩ (ftypBox ++ mdatBox) (some .mp4) =
      some (.ok ⟨[⟨0, 16, ftypBox⟩, ⟨16, 32, mdatBox⟩], [false, true]⟩) := by decide +kernel
  exact ⟨returned, seekable_eq_in_memory padded id serialScanner ⟨8, 16, 64⟩
    (fun bytes _ walked => ⟨bytes.length + 1, walked⟩) ⟨ftypBox ++ mdatBox, fun _ _ => 2, 0⟩ (by decide)
    (some .mp4) 0 _ returned⟩

end OneLink.Pcdc
