/-
# Pcdc.Scanner — the chunk scanner of `ol_chunk`

`pcdc::chunk_ranges` over a buffer: the positions where a rolling hash of the whole buffer
meets each mask are collected segment by segment, then the chunks are walked.
`scan_stream_windowed` runs it on a sliding window over a reader.

Both loops can run forever, so they take fuel; `none` is a loop that has not ended.
`fastcdc` and BLAKE3 are imported.  Sizes are `Nat` for `u32` and `usize`: `validate`
bounds the former, and what is read is counted in the latter (`offsetOverflow`).
-/
import OneLink.Library.Checked
import OneLink.Library.Framing

namespace OneLink.Pcdc

open Library

set_option autoImplicit false

/-- What is used of `fastcdc::v2020`: `get_gear_with_seed(0)`, `MASKS` and `logarithm2`.
A valid average size has a logarithm from 1 to 24, and `MASKS` has 26 entries. -/
structure FastCdc where
  gear : UInt8 → UInt64
  masks : Nat → UInt64
  logarithm2 : Nat → Nat

structure CdcParams where
  minSize : Nat
  avgSize : Nat
  maxSize : Nat
  deriving DecidableEq, Repr

def CdcParams.default : CdcParams := ⟨8 * 1024, 64 * 1024, 256 * 1024⟩

def CdcParams.validate (p : CdcParams) : Except String Unit := do
  require (¬ (p.minSize = 0 ∨ p.avgSize = 0 ∨ p.maxSize = 0)) "min/avg/max sizes must be positive"
  require (¬ p.minSize ≥ p.avgSize) "min_size must be strictly less than avg_size"
  require (¬ p.avgSize ≥ p.maxSize) "avg_size must be strictly less than max_size"
  require (¬ p.maxSize > 16 * 1024 * 1024) "max_size must be ≤ 16 MiB"

/-- A chunk's range and its address; `stop` is the source's `end`. -/
structure Boundary where
  start : Nat
  stop : Nat
  rawAddress : Bytes
  deriving DecidableEq

/-! ## `chunk_ranges` -/

def segment : Nat := 1 <<< 20
def window : Nat := 63

section Ranges

variable (F : FastCdc)

def maskS (p : CdcParams) : UInt64 := F.masks (F.logarithm2 p.avgSize + 1)
def maskL (p : CdcParams) : UInt64 := F.masks (F.logarithm2 p.avgSize - 1)

def roll (h : UInt64) (b : UInt8) : UInt64 := (h <<< 1) + F.gear b

/-- `buffer[start..stop]` -/
def slice (buffer : Bytes) (start stop : Nat) : Bytes := (buffer.take stop).drop start

/-- The loop over one segment for one of its two masks: the positions where the hash meets it. -/
def candidatesFrom (mask : UInt64) : (h : UInt64) → (pos : Nat) → Bytes → List Nat
  | _, _, [] => []
  | h, pos, b :: rest =>
    if roll F h b &&& mask = 0 then pos :: candidatesFrom mask (roll F h b) (pos + 1) rest
    else candidatesFrom mask (roll F h b) (pos + 1) rest

/-- A segment is hashed from `WINDOW` bytes before it. -/
def segmentCandidates (mask : UInt64) (buffer : Bytes) (lo : Nat) : List Nat :=
  candidatesFrom F mask ((slice buffer (lo - window) lo).foldl (roll F) 0) lo
    (slice buffer lo (min (lo + segment) buffer.length))

/-- `(0..n).step_by(SEGMENT)` -/
def segmentStarts (n : Nat) : List Nat :=
  (List.range ((n + segment - 1) / segment)).map (· * segment)

def candidates (mask : UInt64) (buffer : Bytes) : List Nat :=
  (segmentStarts buffer.length).flatMap (segmentCandidates F mask buffer)

/-- The first candidate in `[lo, hi)`; the candidates ascend, so the partition point is where
the smaller ones end. -/
def firstIn (cands : List Nat) (lo hi : Nat) : Option Nat :=
  (cands.dropWhile (· < lo)).head?.filter (· < hi)

/-- The loop of region A: `fuel` positions from `pos` on. -/
def regionA (maskS maskL : UInt64) (buffer : Bytes) (start switch : Nat) :
    (fuel : Nat) → (h : UInt64) → (pos : Nat) → Option Nat
  | 0, _, _ => none
  | fuel + 1, h, pos =>
    let h := roll F h (buffer.getD (start + pos) 0)
    let mask := if pos < switch then maskS else maskL
    if h &&& mask = 0 then some pos
    else regionA maskS maskL buffer start switch fuel h (pos + 1)

/-- The length of the chunk that begins at `start`. -/
def cut (p : CdcParams) (buffer : Bytes) (start : Nat) (candS candL : List Nat) : Nat :=
  let available := buffer.length - start
  if available ≤ p.minSize then available
  else
    let remaining := if available > p.maxSize then p.maxSize else available
    let center :=
      if available > p.maxSize then p.avgSize
      else if available < p.avgSize then available else p.avgSize
    let first := p.minSize / 2 * 2
    let switch := max (center / 2 * 2) first
    let stop := remaining / 2 * 2
    let aEnd := min (first + window) stop
    let bSwitch := max switch aEnd
    let inA := regionA F (maskS F p) (maskL F p) buffer start switch (aEnd - first) 0 first
    let belowSwitch :=
      if aEnd < bSwitch then (firstIn candS (start + aEnd) (start + bSwitch)).map (· - start)
      else none
    let aboveSwitch :=
      if bSwitch < stop then (firstIn candL (start + bSwitch) (start + stop)).map (· - start)
      else none
    ((inA.or belowSwitch).or aboveSwitch).getD remaining

def walk (n : Nat) (cutAt : Nat → Nat) :
    (fuel : Nat) → (start : Nat) → (out : List (Nat × Nat)) → Option (List (Nat × Nat))
  | 0, _, _ => none
  | fuel + 1, start, out =>
    if start < n then
      walk n cutAt fuel (start + cutAt start) (out ++ [(start, start + cutAt start)])
    else some out

def chunkRanges (fuel : Nat) (buffer : Bytes) (p : CdcParams) : Option (List (Nat × Nat)) :=
  let candS := candidates F (maskS F p) buffer
  let candL := candidates F (maskL F p) buffer
  walk buffer.length (fun start => cut F p buffer start candS candL) fuel 0 []

end Ranges

/-- `chunkAddress` is `blake3_wrap::chunk_address_raw`. -/
def addressRanges (chunkAddress : Bytes → Bytes) (buffer : Bytes) (ranges : List (Nat × Nat)) :
    List Boundary :=
  ranges.map fun (start, stop) => ⟨start, stop, chunkAddress (slice buffer start stop)⟩

/-! ## `scan_stream_windowed` -/

/-- A source that yields `rest`, at its `turn`-th read at most `pace turn + 1` bytes. -/
structure Reader where
  rest : Bytes
  pace : Nat → Nat
  turn : Nat

/-- `read` into `room` bytes: nothing only at the end, or where there is no room. -/
def Reader.read (r : Reader) (room : Nat) : Bytes × Reader :=
  let n := min room (r.pace r.turn + 1)
  (r.rest.take n, { r with rest := r.rest.drop n, turn := r.turn + 1 })

/-- `reader.take(limit).read_to_end`, in as many reads as it takes. -/
def Reader.readToEnd (limit : Nat) (r : Reader) : Bytes × Reader :=
  let got := (r.read limit).1
  if _nothing : got.length = 0 then ([], (r.read limit).2)
  else
    let (more, r) := Reader.readToEnd (limit - got.length) (r.read limit).2
    (got ++ more, r)
termination_by limit
decreasing_by
  have bound : got.length ≤ limit := by
    simp only [got, Reader.read, List.length_take]
    omega
  show limit - got.length < limit
  omega

inductive ScanError where
  /-- `ErrorKind::InvalidInput` with the message of `validate` -/
  | invalidInput (message : String)
  | noProgress
  | offsetOverflow
  /-- `ErrorKind::UnexpectedEof` -/
  | sourceHolds (bytes declared : Nat)
  deriving DecidableEq, Repr

def ScanError.message : ScanError → String
  | invalidInput message => message
  | noProgress => "stream scan made no progress"
  | offsetOverflow => "offset overflow"
  | sourceHolds bytes declared => s!"source holds {bytes} bytes, declared {declared}"

structure Scan where
  reader : Reader
  windowCap : Nat
  buffer : Bytes
  base : Nat
  eof : Bool
  out : List Boundary

/-- The inner loop: read until the window is full or a read yields nothing. -/
def fill (cap : Nat) (reader : Reader) (buffer : Bytes) (eof : Bool) : Reader × Bytes × Bool :=
  if _going : buffer.length < cap ∧ eof = false then
    let got := (reader.readToEnd (cap - buffer.length)).1
    fill cap (reader.readToEnd (cap - buffer.length)).2 (buffer ++ got) (got.length = 0)
  else (reader, buffer, eof)
termination_by (cap - buffer.length) + (if eof then 0 else 1)
decreasing_by
  rw [_going.2, List.length_append]
  by_cases nothing : (reader.readToEnd (cap - buffer.length)).1.length = 0
  · simp [nothing]
  · simp only [nothing, decide_false, Bool.false_eq_true, if_false]
    omega

variable (F : FastCdc) (chunkAddress : Bytes → Bytes)

def finish (len : Nat) (s : Scan) : Except ScanError (List Boundary) := do
  require (s.base = len) (.sourceHolds s.base len)
  return s.out

/-- What one round of the outer loop leads to. -/
inductive Round where
  | again (s : Scan)
  | leave (s : Scan)
  | fail (e : ScanError)

/-- One round, after `fill`, with the ranges of the window. -/
def accept (p : CdcParams) (s : Scan) (all : List (Nat × Nat)) : Round :=
  let ranges := all.takeWhile fun range => s.eof || decide (range.1 + p.maxSize ≤ s.buffer.length)
  let consumed := (ranges.getLast?.map (·.2)).getD 0
  if consumed = 0 then
    if s.eof then .fail .noProgress
    else .again { s with windowCap := max (min (s.windowCap * 2) (2 ^ 64 - 1)) (4 * p.maxSize) }
  else if ranges.any fun range => s.base + range.1 ≥ 2 ^ 64 then .fail .offsetOverflow
  else
    let moved := (addressRanges chunkAddress s.buffer ranges).map fun b =>
      { b with start := s.base + b.start, stop := s.base + b.start + (b.stop - b.start) }
    let next : Scan := { s with
      out := s.out ++ moved
      base := s.base + consumed
      buffer := s.buffer.drop consumed }
    if next.eof ∧ next.buffer = [] then .leave next else .again next

def round (p : CdcParams) (fuel : Nat) (s : Scan) : Option Round := do
  let (reader, buffer, eof) := fill s.windowCap s.reader s.buffer s.eof
  let s := { s with reader := reader, buffer := buffer, eof := eof }
  if s.buffer = [] then return .leave s
  else
    let all ← chunkRanges F fuel s.buffer p
    return accept chunkAddress p s all

def scanLoop (p : CdcParams) (len : Nat) :
    (fuel : Nat) → Scan → Option (Except ScanError (List Boundary))
  | 0, _ => none
  | fuel + 1, s =>
    match round F chunkAddress p fuel s with
    | none => none
    | some (.fail e) => some (.error e)
    | some (.leave s) => some (finish len s)
    | some (.again s) => scanLoop p len fuel s

def scanStreamWindowed (fuel : Nat) (reader : Reader) (len : Nat) (p : CdcParams) (window : Nat) :
    Option (Except ScanError (List Boundary)) :=
  match p.validate with
  | .error message => some (.error (.invalidInput message))
  | .ok () =>
    scanLoop F chunkAddress p len fuel
      ⟨reader, min (max window (4 * p.maxSize)) (max len 1), [], 0, false, []⟩

end OneLink.Pcdc
