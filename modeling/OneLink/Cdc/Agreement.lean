/-
# Cdc.Agreement — the chunkers cut at the same bytes

Each loop of the chunkers is one cutter (`cdcCutter`) seen through its own
variables, so each of them ends with the chunks of the cutter's pieces.  They part
on empty input only: `chunk_bytes` has no chunk there, `index_file` has one of
length zero.
-/
import OneLink.Cdc.Chunker

namespace OneLink.Cdc

open Library

set_option autoImplicit false

variable (H : Blake3)

def cdcCutter : Cutter UInt8 Nat := ⟨0, roll H, shouldCut⟩

/-- The cutter over all of `data`. -/
def cutting (data : Bytes) : Cutter.Progress UInt8 Nat :=
  (cdcCutter H).feed (cdcCutter H).begin data

theorem cutting_flatten (data : Bytes) :
    (cutting H data).pieces.flatten ++ (cutting H data).pending = data :=
  (cdcCutter H).feed_begin_flatten data

theorem step_cutting (seen : Bytes) (b : UInt8) :
    (cdcCutter H).step (cutting H seen) b = cutting H (seen ++ [b]) := by
  rw [cutting, cutting, Cutter.feed_append]
  rfl

/-! ## Pieces as chunks -/

/-- The chunks of consecutive pieces. -/
def chunksFrom : (index start : Nat) → List Bytes → List Chunk
  | _, _, [] => []
  | index, start, piece :: rest =>
    ⟨index, start, start + piece.length, H.hexdigest piece⟩ ::
      chunksFrom (index + 1) (start + piece.length) rest

@[simp] theorem length_chunksFrom (index start : Nat) (pieces : List Bytes) :
    (chunksFrom H index start pieces).length = pieces.length := by
  induction pieces generalizing index start with
  | nil => rfl
  | cons piece rest ih => simp [chunksFrom, ih]

@[simp] theorem chunksFrom_eq_nil (index start : Nat) (pieces : List Bytes) :
    chunksFrom H index start pieces = [] ↔ pieces = [] := by
  rw [← List.length_eq_zero_iff, length_chunksFrom, List.length_eq_zero_iff]

theorem chunksFrom_concat (index start : Nat) (pieces : List Bytes) (last : Bytes) :
    chunksFrom H index start (pieces ++ [last]) =
      chunksFrom H index start pieces ++
        [⟨index + pieces.length, start + pieces.flatten.length,
          start + pieces.flatten.length + last.length, H.hexdigest last⟩] := by
  induction pieces generalizing index start with
  | nil => simp [chunksFrom]
  | cons piece rest ih =>
    simp only [List.cons_append, chunksFrom, ih, List.length_cons, List.flatten_cons,
      List.length_append]
    simp [Nat.add_assoc, Nat.add_comm 1]

theorem slice_middle (before piece after : Bytes) :
    slice (before ++ (piece ++ after)) before.length (before.length + piece.length) = piece := by
  rw [slice, ← List.append_assoc, ← List.length_append, List.take_left, List.drop_left]

/-- The chunk between two consecutive offsets of the data. -/
theorem makeChunk_piece {data before piece after : Bytes}
    (whole : data = before ++ (piece ++ after)) (index : Nat) :
    makeChunk H index before.length (before.length + piece.length) data =
      ⟨index, before.length, before.length + piece.length, H.hexdigest piece⟩ := by
  rw [makeChunk, whole, slice_middle]

/-! ## `index_file` -/

/-- The variables of the streaming loop at a state of the cutter. -/
def streamView (p : Cutter.Progress UInt8 Nat) : StreamLoop where
  chunks := chunksFrom H 0 0 p.pieces
  chunkBuf := p.pending
  rolling := p.rolling
  offset := p.pieces.flatten.length

theorem close_streamView (p : Cutter.Progress UInt8 Nat) (piece : Bytes) :
    chunksFrom H 0 0 p.pieces ++ [(streamView H p).close H piece] =
      chunksFrom H 0 0 (p.pieces ++ [piece]) := by
  rw [chunksFrom_concat]
  simp [StreamLoop.close, streamView]

theorem streamStep_view (p : Cutter.Progress UInt8 Nat) (b : UInt8) :
    streamStep H (streamView H p) b = streamView H ((cdcCutter H).step p b) := by
  obtain ⟨cuts, cut⟩ | ⟨keeps, kept⟩ := (cdcCutter H).step_cases p b
  · have now : shouldCut ((streamView H p).chunkBuf ++ [b]).length
        (roll H (streamView H p).rolling b) = true := by
      simpa [streamView, cdcCutter] using cuts
    rw [cut]
    simp only [streamStep, now, if_true]
    simp [streamView, chunksFrom_concat, StreamLoop.close, cdcCutter]
  · have now : shouldCut ((streamView H p).chunkBuf ++ [b]).length
        (roll H (streamView H p).rolling b) = false := by
      simpa [streamView, cdcCutter] using keeps
    rw [kept]
    simp only [streamStep, now, Bool.false_eq_true, if_false]
    rfl

theorem streamStep_feed (p : Cutter.Progress UInt8 Nat) (data : Bytes) :
    data.foldl (streamStep H) (streamView H p) = streamView H ((cdcCutter H).feed p data) := by
  induction data generalizing p with
  | nil => rfl
  | cons b rest ih =>
    rw [List.foldl_cons, streamStep_view, ih]
    rfl

/-- However the reads fall, the loop sees the bytes in order. -/
theorem streamParts_eq (parts : List Bytes) :
    streamParts H parts = streamView H (cutting H parts.flatten) := by
  have through : ∀ (parts : List Bytes) (p : Cutter.Progress UInt8 Nat),
      parts.foldl (fun s part => part.foldl (streamStep H) s) (streamView H p) =
        streamView H ((cdcCutter H).feed p parts.flatten) := by
    intro parts
    induction parts with
    | nil => exact fun p => rfl
    | cons part rest ih =>
      intro p
      rw [List.foldl_cons, streamStep_feed, ih, List.flatten_cons, Cutter.feed_append]
  exact through parts (cdcCutter H).begin

theorem flatten_readParts {readSize : Nat} (positive : readSize ≠ 0) (data : Bytes) :
    (readParts readSize data).flatten = data := by
  induction data using readParts.induct readSize with
  | case1 data stops =>
    rw [readParts, if_pos stops]
    rcases stops with zero | rfl
    · exact absurd zero positive
    · rfl
  | case2 data reads ih =>
    rw [readParts, if_neg reads, List.flatten_cons, ih, List.take_append_drop]

/-- The chunks `index_file` ends with. -/
theorem finish_streamView (p : Cutter.Progress UInt8 Nat) :
    (streamView H p).finish H =
      if p.pending ≠ [] ∨ p.pieces = [] then chunksFrom H 0 0 (p.pieces ++ [p.pending])
      else chunksFrom H 0 0 p.pieces := by
  unfold StreamLoop.finish
  rw [show (streamView H p).chunkBuf = p.pending from rfl,
    show (streamView H p).chunks = chunksFrom H 0 0 p.pieces from rfl, close_streamView]
  simp only [chunksFrom_eq_nil]

/-! ## `chunk_bytes` in Python -/

/-- The variables of the byte loop at a state of the cutter. -/
def byteView (p : Cutter.Progress UInt8 Nat) : ByteLoop where
  chunks := chunksFrom H 0 0 p.pieces
  start := p.pieces.flatten.length
  rolling := p.rolling

theorem byteStep_view {data seen rest : Bytes} {b : UInt8} {p : Cutter.Progress UInt8 Nat}
    (whole : data = seen ++ b :: rest) (consumed : p.pieces.flatten ++ p.pending = seen) :
    byteStep H data (byteView H p) (b, seen.length) = byteView H ((cdcCutter H).step p b) := by
  have split : data = p.pieces.flatten ++ ((p.pending ++ [b]) ++ rest) := by
    rw [whole, ← consumed]
    simp
  have stop : seen.length + 1 = p.pieces.flatten.length + (p.pending ++ [b]).length := by
    rw [← consumed]
    simp [Nat.add_assoc]
  have length : seen.length + 1 - (byteView H p).start = p.pending.length + 1 := by
    rw [stop, show (byteView H p).start = p.pieces.flatten.length from rfl, Nat.add_sub_cancel_left,
      List.length_append, List.length_singleton]
  simp only [byteStep, length]
  obtain ⟨cuts, cut⟩ | ⟨keeps, kept⟩ := (cdcCutter H).step_cases p b
  · have now : shouldCut (p.pending.length + 1) (roll H (byteView H p).rolling b) = true := cuts
    simp only [now, if_true]
    have made := makeChunk_piece H split p.pieces.length
    rw [← stop] at made
    rw [cut]
    simp only [byteView, length_chunksFrom, chunksFrom_concat, made]
    simp [cdcCutter, stop]
  · have now : shouldCut (p.pending.length + 1) (roll H (byteView H p).rolling b) = false := keeps
    simp only [now, Bool.false_eq_true, if_false]
    rw [kept]
    rfl

theorem byteStep_feed {data : Bytes} (rest seen : Bytes) (whole : data = seen ++ rest) :
    (rest.zipIdx seen.length).foldl (byteStep H data) (byteView H (cutting H seen)) =
      byteView H (cutting H data) := by
  induction rest generalizing seen with
  | nil =>
    rw [List.append_nil] at whole
    rw [whole]
    rfl
  | cons b rest ih =>
    rw [List.zipIdx_cons, List.foldl_cons, byteStep_view H whole (cutting_flatten H seen),
      step_cutting]
    have again := ih (seen ++ [b]) (by simpa using whole)
    rwa [List.length_append, List.length_singleton] at again

/-- Closing the piece at hand, if there is one. -/
theorem appendTail_eq (data : Bytes) :
    appendTail H data (chunksFrom H 0 0 (cutting H data).pieces)
        (cutting H data).pieces.flatten.length = chunksFrom H 0 0 (cutting H data).all := by
  have whole := cutting_flatten H data
  have total : (cutting H data).pieces.flatten.length + (cutting H data).pending.length =
      data.length := by
    rw [← List.length_append, whole]
  unfold appendTail Cutter.Progress.all
  by_cases done : (cutting H data).pending = []
  · rw [if_pos done, if_neg]
    rintro (more | ⟨none, some⟩)
    · rw [done, List.length_nil] at total
      omega
    · rw [chunksFrom_eq_nil] at none
      exact (cdcCutter H).pending_ne_nil (List.length_pos_iff.mp some) none done
  · have more : (cutting H data).pieces.flatten.length < data.length := by
      have := List.length_pos_iff.mpr done
      omega
    rw [if_neg done, if_pos (.inl more), chunksFrom_concat, length_chunksFrom]
    have split : data = (cutting H data).pieces.flatten ++ ((cutting H data).pending ++ []) := by
      simpa using whole.symm
    have made := makeChunk_piece H split (cutting H data).pieces.length
    rw [total] at made
    simp only [made, Nat.zero_add, total]

theorem chunkBytesPython_eq (data : Bytes) :
    chunkBytesPython H data = chunksFrom H 0 0 (cutting H data).all := by
  have loop : data.zipIdx.foldl (byteStep H data) ⟨[], 0, 0⟩ = byteView H (cutting H data) :=
    byteStep_feed H data [] rfl
  simp only [chunkBytesPython, loop]
  exact appendTail_eq H data

/-! ## `chunk_bytes` through the scanner -/

/-- Where the pieces end. -/
def ends : (start : Nat) → List Bytes → List Nat
  | _, [] => []
  | start, piece :: rest => (start + piece.length) :: ends (start + piece.length) rest

@[simp] theorem length_ends (start : Nat) (pieces : List Bytes) :
    (ends start pieces).length = pieces.length := by
  induction pieces generalizing start with
  | nil => rfl
  | cons piece rest ih => simp [ends, ih]

theorem ends_concat (start : Nat) (pieces : List Bytes) (last : Bytes) :
    ends start (pieces ++ [last]) =
      ends start pieces ++ [start + pieces.flatten.length + last.length] := by
  induction pieces generalizing start with
  | nil => simp [ends]
  | cons piece rest ih =>
    simp only [List.cons_append, ends, ih, List.flatten_cons, List.length_append, Nat.add_assoc]

/-- The variables of the scanner at a state of the cutter; the array keeps the first `cap` cuts. -/
def scanView (cap : Nat) (p : Cutter.Progress UInt8 Nat) : ScanLoop where
  rolling := p.rolling
  chunkLen := p.pending.length
  cutCount := p.pieces.length
  cuts := (ends 0 p.pieces).take cap

theorem shouldCut_iff (chunkLen rolling : Nat) :
    shouldCut chunkLen rolling = true ↔
      chunkLen ≥ minChunkBytes ∧ (chunkLen ≥ maxChunkBytes ∨ (rolling &&& boundaryMask) = 0) := by
  unfold shouldCut
  by_cases small : chunkLen < minChunkBytes
  · simp [small]
  · by_cases large : chunkLen ≥ maxChunkBytes
    · simp [small, large, Nat.le_of_not_lt small]
    · simp [small, large, Nat.le_of_not_lt small]

theorem scanStep_view (cap : Nat) {seen : Bytes} {p : Cutter.Progress UInt8 Nat}
    (consumed : p.pieces.flatten ++ p.pending = seen) (b : UInt8) :
    scanStep H cap (scanView cap p) (b, seen.length) =
      scanView cap ((cdcCutter H).step p b) := by
  have stop : 0 + p.pieces.flatten.length + (p.pending ++ [b]).length = seen.length + 1 := by
    rw [← consumed, List.length_append, List.length_append, List.length_singleton]
    omega
  simp only [scanStep, ← shouldCut_iff]
  obtain ⟨cuts, cut⟩ | ⟨keeps, kept⟩ := (cdcCutter H).step_cases p b
  · have now : shouldCut ((scanView cap p).chunkLen + 1) (roll H (scanView cap p).rolling b) =
        true := cuts
    have stored : (if (scanView cap p).cutCount < cap then (scanView cap p).cuts ++ [seen.length + 1]
        else (scanView cap p).cuts) = (ends 0 (p.pieces ++ [p.pending ++ [b]])).take cap := by
      rw [ends_concat, stop, List.take_append, length_ends]
      by_cases room : (scanView cap p).cutCount < cap
      · have one : [seen.length + 1].length ≤ cap - p.pieces.length := by
          have : p.pieces.length < cap := room
          simp only [List.length_singleton]
          omega
        rw [if_pos room, List.take_of_length_le one]
        rfl
      · have full : cap ≤ p.pieces.length := Nat.le_of_not_lt room
        rw [if_neg room, Nat.sub_eq_zero_of_le full, List.take_zero, List.append_nil]
        rfl
    rw [if_pos now, stored, cut]
    simp [scanView, cdcCutter]
  · have now : ¬ shouldCut ((scanView cap p).chunkLen + 1) (roll H (scanView cap p).rolling b) =
        true := Bool.eq_false_iff.mp keeps
    rw [if_neg now, kept]
    simp [scanView, cdcCutter]

theorem scanStep_feed (cap : Nat) (rest seen : Bytes) :
    (rest.zipIdx seen.length).foldl (scanStep H cap) (scanView cap (cutting H seen)) =
      scanView cap (cutting H (seen ++ rest)) := by
  induction rest generalizing seen with
  | nil => rw [List.append_nil]; rfl
  | cons b rest ih =>
    rw [List.zipIdx_cons, List.foldl_cons, scanStep_view H cap (cutting_flatten H seen),
      step_cutting]
    have again := ih (seen ++ [b])
    rwa [List.length_append, List.length_singleton, List.append_assoc, List.singleton_append]
      at again

/-! ## Bounds -/

theorem cutting_within (data : Bytes) :
    Cutter.Within minChunkBytes maxChunkBytes (cutting H data) := by
  apply Cutter.feed_bounds
  · intro n r cut
    exact ((shouldCut_iff n r).mp cut).1
  · intro n r large
    refine (shouldCut_iff n r).mpr ⟨le_trans (by decide) large, .inl large⟩
  · exact ⟨by simp [Cutter.begin], show 0 < maxChunkBytes by decide⟩

/-- The array of the scanner is never too small. -/
theorem pieces_le_cap (data : Bytes) :
    (cutting H data).pieces.length ≤
      max 1 ((data.length + max 1 minChunkBytes - 1) / max 1 minChunkBytes + 2) := by
  have within := cutting_within H data
  have sizes : ∀ pieces : List Bytes, (∀ piece ∈ pieces, minChunkBytes ≤ piece.length) →
      pieces.length * minChunkBytes ≤ pieces.flatten.length := by
    intro pieces large
    induction pieces with
    | nil => simp
    | cons piece rest ih =>
      have here := large piece (by simp)
      have there := ih fun other present => large other (by simp [present])
      rw [List.length_cons, Nat.succ_mul, List.flatten_cons, List.length_append]
      omega
  have few := sizes _ fun piece present => (within.pieces piece present).2.1
  have total := congrArg List.length (cutting_flatten H data)
  rw [List.length_append] at total
  have width : minChunkBytes = 16384 := rfl
  have step : max 1 minChunkBytes = 16384 := rfl
  rw [width] at few
  rw [step]
  omega

theorem scan_eq (data : Bytes) : scan H data = some (ends 0 (cutting H data).pieces) := by
  have fits := pieces_le_cap H data
  revert fits
  unfold scan
  generalize max 1 ((data.length + max 1 minChunkBytes - 1) / max 1 minChunkBytes + 2) = cap
  intro fits
  have begun : scanView cap (cutting H []) = ⟨0, 0, 0, []⟩ := by
    simp [scanView, cutting, Cutter.begin, cdcCutter, ends]
  have loop : data.zipIdx.foldl (scanStep H cap) ⟨0, 0, 0, []⟩ =
      scanView cap (cutting H data) := by
    rw [← begun]
    exact scanStep_feed H cap data []
  simp only [loop, scanView]
  rw [if_neg (Nat.not_lt.mpr fits), List.take_of_length_le]
  rw [length_ends]
  exact fits

/-- The chunks between the cuts are those of the pieces. -/
theorem chunksOfCuts_eq {data : Bytes} (pieces : List Bytes) (rest : Bytes)
    (whole : data = pieces.flatten ++ rest) :
    chunksOfCuts H data (ends 0 pieces) = (chunksFrom H 0 0 pieces, pieces.flatten.length) := by
  induction pieces using List.reverseRecOn generalizing rest with
  | nil => rfl
  | append_singleton pieces last ih =>
    have split : data = pieces.flatten ++ (last ++ rest) := by
      simpa using whole
    have before := ih (last ++ rest) split
    unfold chunksOfCuts at before ⊢
    rw [ends_concat, List.foldl_append, before]
    have made := makeChunk_piece H split pieces.length
    simp only [List.foldl_cons, List.foldl_nil, length_chunksFrom, Nat.zero_add, made,
      chunksFrom_concat]
    simp

theorem chunkBytes_eq (native : Bool) (data : Bytes) :
    chunkBytes H native data = chunksFrom H 0 0 (cutting H data).all := by
  have scanned : chunkBytesNative H data = some (chunksFrom H 0 0 (cutting H data).all) := by
    have cuts := chunksOfCuts_eq H (cutting H data).pieces (cutting H data).pending
      (cutting_flatten H data).symm
    simp only [chunkBytesNative, scan_eq, cuts, appendTail_eq]
  unfold chunkBytes
  rw [scanned, chunkBytesPython_eq]
  simp

/-! ## What the chunks are -/

/-- Consecutive ranges from `start` to `stop`. -/
def Tiles : (start : Nat) → List Chunk → (stop : Nat) → Prop
  | start, [], stop => start = stop
  | start, chunk :: rest, stop => chunk.start = start ∧ Tiles chunk.stop rest stop

/-- A contiguous partition of the data: sizes in bounds but for a shorter last chunk,
each chunk with the digest of its slice. -/
structure Partitions (data : Bytes) (chunks : List Chunk) : Prop where
  indexed : chunks.map Chunk.index = List.range chunks.length
  tiles : Tiles 0 chunks data.length
  bounds : ∀ early chunk late, chunks = early ++ chunk :: late →
    0 < chunk.size ∧ chunk.size ≤ maxChunkBytes ∧ (late ≠ [] → minChunkBytes ≤ chunk.size)
  hashed : ∀ chunk ∈ chunks, chunk.hash = H.hexdigest (slice data chunk.start chunk.stop)

theorem indexed_chunksFrom (index start : Nat) (pieces : List Bytes) :
    (chunksFrom H index start pieces).map Chunk.index = List.range' index pieces.length := by
  induction pieces generalizing index start with
  | nil => rfl
  | cons piece rest ih => simp [chunksFrom, ih, List.range'_succ]

theorem tiles_chunksFrom (index start : Nat) (pieces : List Bytes) :
    Tiles start (chunksFrom H index start pieces) (start + pieces.flatten.length) := by
  induction pieces generalizing index start with
  | nil => simp [chunksFrom, Tiles]
  | cons piece rest ih =>
    refine ⟨rfl, ?_⟩
    have tail := ih (index + 1) (start + piece.length)
    rwa [Nat.add_assoc, ← List.length_append, ← List.flatten_cons] at tail

/-- Every chunk is the slice of one piece. -/
theorem mem_chunksFrom {index : Nat} {pieces : List Bytes} {before data after : Bytes}
    (whole : data = before ++ pieces.flatten ++ after) {chunk : Chunk}
    (present : chunk ∈ chunksFrom H index before.length pieces) :
    chunk.hash = H.hexdigest (slice data chunk.start chunk.stop) := by
  induction pieces generalizing index before with
  | nil => cases present
  | cons piece rest ih =>
    rcases List.mem_cons.mp present with rfl | later
    · have split : data = before ++ (piece ++ (rest.flatten ++ after)) := by
        simpa using whole
      rw [split, slice_middle]
    · rw [← List.length_append] at later
      have shifted : data = before ++ piece ++ rest.flatten ++ after := by simpa using whole
      exact ih shifted later

theorem sizes_chunksFrom (index start : Nat) (pieces : List Bytes) :
    (chunksFrom H index start pieces).map Chunk.size = pieces.map List.length := by
  induction pieces generalizing index start with
  | nil => rfl
  | cons piece rest ih => simp [chunksFrom, ih, Chunk.size]

theorem flatten_all (data : Bytes) : (cutting H data).all.flatten = data := by
  unfold Cutter.Progress.all
  have whole := cutting_flatten H data
  split
  · next done => rwa [done, List.append_nil] at whole
  · rwa [List.flatten_append, List.flatten_singleton]

theorem partitions_all (data : Bytes) :
    Partitions H data (chunksFrom H 0 0 (cutting H data).all) := by
  have flat := flatten_all H data
  have within := cutting_within H data
  constructor
  · rw [indexed_chunksFrom, length_chunksFrom, List.range_eq_range']
  · have tiles := tiles_chunksFrom H 0 0 (cutting H data).all
    rwa [flat, Nat.zero_add] at tiles
  · intro early chunk late split
    have sizes := sizes_chunksFrom H 0 0 (cutting H data).all
    rw [split, List.map_append, List.map_cons] at sizes
    obtain ⟨before, rest, pieces, -, tail⟩ := List.map_eq_append_iff.mp sizes.symm
    obtain ⟨piece, after, rfl, size, lengths⟩ := List.map_eq_cons_iff.mp tail
    obtain ⟨positive, high, low⟩ := within.all pieces
    rw [size] at positive high low
    refine ⟨positive, high, fun more => low ?_⟩
    rintro rfl
    exact more (by simpa using lengths.symm)
  · intro chunk present
    have whole : data = [] ++ (cutting H data).all.flatten ++ [] := by simp [flat]
    exact mem_chunksFrom H whole present

/-! ## The chunkers together -/

theorem getLast?_chunksFrom {pieces : List Bytes} (filled : pieces ≠ []) (index start : Nat) :
    ∃ last, (chunksFrom H index start pieces).getLast? = some last ∧
      last.stop = start + pieces.flatten.length := by
  cases pieces using List.reverseRecOn with
  | nil => exact absurd rfl filled
  | append_singleton pieces last =>
    rw [chunksFrom_concat, List.getLast?_concat]
    refine ⟨_, rfl, ?_⟩
    rw [List.flatten_append, List.flatten_singleton, List.length_append, Nat.add_assoc]

/-- `index_file` always ends with some pieces of the whole data. -/
theorem finish_pieces (data : Bytes) :
    ∃ pieces : List Bytes, pieces ≠ [] ∧ pieces.flatten = data ∧
      (streamView H (cutting H data)).finish H = chunksFrom H 0 0 pieces := by
  have whole := cutting_flatten H data
  rw [finish_streamView]
  split
  · refine ⟨_, ?_, ?_, rfl⟩
    · simp
    · rwa [List.flatten_append, List.flatten_singleton]
  · next closed =>
    obtain ⟨done, cut⟩ := not_or.mp closed
    rw [not_not.mp done, List.append_nil] at whole
    exact ⟨_, cut, whole, rfl⟩

theorem observedSize_cutting (data : Bytes) :
    (streamView H (cutting H data)).observedSize H = data.length := by
  obtain ⟨pieces, filled, flat, finished⟩ := finish_pieces H data
  obtain ⟨last, found, stop⟩ := getLast?_chunksFrom H filled 0 0
  unfold StreamLoop.observedSize
  rw [finished, found, ← flat]
  exact stop.trans (Nat.zero_add _)

/-- On a file of the announced size, `index_file` returns the chunks of the loop. -/
theorem indexFile_eq {readSize : Int} (positive : 1 ≤ readSize) (data : Bytes) :
    indexFile H data data.length readSize = .ok
      { blobHash := H.hexdigest data
        size := data.length
        chunks := (streamView H (cutting H data)).finish H } := by
  have parts : (readParts readSize.toNat data).flatten = data := flatten_readParts (by omega) data
  simp only [indexFile, streamParts_eq, parts, observedSize_cutting]
  rw [require_of (by omega), require_of (by omega), require_of trivial]
  rfl

theorem finish_cutting {data : Bytes} (nonempty : data ≠ []) :
    (streamView H (cutting H data)).finish H = chunksFrom H 0 0 (cutting H data).all := by
  rw [finish_streamView, Cutter.Progress.all]
  by_cases done : (cutting H data).pending = []
  · have cut : (cutting H data).pieces ≠ [] := fun none =>
      (cdcCutter H).pending_ne_nil nonempty none done
    simp [done, cut]
  · simp [done]

/-- The claim of one input: `index_file` returns the chunks of `chunk_bytes`, and these
partition the data. -/
def ChunkersAgree (native : Bool) (data : Bytes) (readSize : Int) : Prop :=
  ∃ index, indexFile H data data.length readSize = .ok index ∧
    index.chunks = chunkBytes H native data ∧ Partitions H data index.chunks

/-- **The chunkers agree on every input but the empty one.** -/
theorem chunkersAgree_iff (native : Bool) (data : Bytes) {readSize : Int}
    (positive : 1 ≤ readSize) : ChunkersAgree H native data readSize ↔ data ≠ [] := by
  constructor
  · rintro ⟨index, indexed, same, -⟩ rfl
    rw [indexFile_eq H positive, Except.ok.injEq] at indexed
    rw [← indexed, chunkBytes_eq, finish_streamView] at same
    simp [cutting, Cutter.begin, Cutter.Progress.all, chunksFrom] at same
  · intro nonempty
    refine ⟨_, indexFile_eq H positive data, ?_, ?_⟩
    · rw [chunkBytes_eq]
      exact finish_cutting H nonempty
    · rw [finish_cutting H nonempty]
      exact partitions_all H data

/-- Digests that keep the bytes apart. -/
def sampleBlake3 : Blake3 where
  hexdigest data := String.ofList (data.map fun b => Char.ofNat b.toNat)
  digest8 data := data

/-- One byte, read one byte at a time. -/
theorem chunkersAgree_one_byte : ChunkersAgree sampleBlake3 true [7] 1 :=
  (chunkersAgree_iff sampleBlake3 true [7] (by decide)).mpr (by decide)

/-- An empty file: `index_file` has a chunk of length zero, `chunk_bytes` has none. -/
theorem chunkers_disagree_empty : ¬ ChunkersAgree sampleBlake3 false [] 1 := by
  rintro ⟨index, indexed, same, -⟩
  rw [indexFile_eq sampleBlake3 (by decide), Except.ok.injEq] at indexed
  rw [← indexed] at same
  cases same

end OneLink.Cdc
