/-
# Pcdc.Seekable -- format-aware chunking of a file too large to hold

The walkers over a seekable source: they read record headers through a
read-ahead window and leave everything between them unread.  The segments
between the cuts are read one at a time, each behind a seek of its own; only the
formats whose cuts need every byte are read whole.
-/
import OneLink.Pcdc.Containers

namespace OneLink.Pcdc

open Library

set_option autoImplicit false

def streamWindow : Nat := 32 <<< 20

def headerReadAhead : Nat := 64 <<< 10

inductive StreamScanError where
  | io (e : ScanError)
  /-- `ErrorKind::UnexpectedEof`, "source shrank" -/
  | sourceShrank
  | params (message : String)
  | needsWholeFile (len limit : Nat)
  deriving DecidableEq, Repr

/-- A seekable source: what it holds, the pace of the reads behind each seek, and the seeks so
far. -/
structure Source where
  content : Bytes
  pace : Nat → Nat → Nat
  seeks : Nat

/-- `seek(SeekFrom::Start(pos))`, and the reader from there on. -/
def Source.seek (source : Source) (pos : Nat) : Reader × Source :=
  (⟨source.content.drop pos, source.pace source.seeks, 0⟩, { source with seeks := source.seeks + 1 })

/-! ## Headers -/

structure Headers where
  source : Source
  len : Nat
  window : Bytes
  windowStart : Nat

def Headers.new (source : Source) (len : Nat) : Headers := ⟨source, len, [], 0⟩

/-- `Headers::at`: the `n` bytes at `pos`. -/
def Headers.bytesAt (h : Headers) (pos n : Nat) : Option Bytes × Headers :=
  if pos + n ≥ 2 ^ 64 then (none, h)
  else if pos + n > h.len then (none, h)
  else if pos ≥ h.windowStart ∧ pos + n ≤ h.windowStart + h.window.length then
    (some (slice h.window (pos - h.windowStart) (pos - h.windowStart + n)), h)
  else
    let want := min (max headerReadAhead n) (h.len - pos)
    let (reader, source) := h.source.seek pos
    let window := (reader.readToEnd want).1
    let h := { h with source := source, window := window, windowStart := pos }
    if window.length < n then (none, h) else (some (slice window 0 n), h)

/-! ## Walkers -/

/-- The loop of `mcap_record_offsets_seekable`. -/
def recordsSeekable (dataEnd : Nat) (h : Headers) (pos : Nat) : List Nat × Headers :=
  if _more : pos + recordHeader ≤ dataEnd then
    match h.bytesAt pos recordHeader with
    | (none, h) => ([], h)
    | (some header, h) =>
      match _found : nextRecord dataEnd pos header with
      | none => ([], h)
      | some next =>
        let (later, h) := recordsSeekable dataEnd h next
        (pos :: later, h)
  else ([], h)
termination_by dataEnd - pos
decreasing_by
  have ahead := nextRecord_eq_some _found
  simp only [recordHeader] at _more ahead
  omega

/-- `mcap_record_offsets_seekable`. -/
def mcapRecordOffsetsSeekable (source : Source) (len : Nat) : List Nat × Source :=
  let h := Headers.new source len
  if len < mcapMagic.length + recordHeader then ([], source)
  else
    match h.bytesAt 0 (mcapMagic.length + 1) with
    | (none, h) => ([], h.source)
    | (some head, h) =>
      if head.take mcapMagic.length = mcapMagic ∧ head.getD mcapMagic.length 0 = 0x01 then
        -- the trailing magic is read where there is room for both
        let (tail, h) :=
          if len ≥ 2 * mcapMagic.length then h.bytesAt (len - mcapMagic.length) mcapMagic.length
          else (none, h)
        let dataEnd := if tail = some mcapMagic then len - mcapMagic.length else len
        let (offsets, h) := recordsSeekable dataEnd h mcapMagic.length
        (offsets, h.source)
      else ([], h.source)

/-- The `match size` of a box header read through the window. -/
def boxAdvanceSeekable (h : Headers) (pos : Nat) (header : Bytes) : Option Nat × Headers :=
  let size := beValue (header.take 4)
  if size = 1 then
    let (large, h) := h.bytesAt (pos + 8) 8
    (large.map beValue, h)
  else if size = 0 then (none, h)
  else (some size, h)

/-- The loop of `mp4_box_offsets_seekable`.  Where `pos + 8` wraps, `at` refuses the position and the
loop ends as here. -/
def boxesSeekable (len : Nat) (h : Headers) (pos : Nat) : List Nat × Headers :=
  if _more : pos + 8 ≤ len then
    match h.bytesAt pos 8 with
    | (none, h) => ([], h)
    | (some header, h) =>
      if isBoxKind (header.drop 4) then
        let (advance, h) := boxAdvanceSeekable h pos header
        match _found : advance.bind (nextBox pos) with
        | none => ([pos], h)
        | some next =>
          let (later, h) := boxesSeekable len h next
          (pos :: later, h)
      else ([], h)
  else ([], h)
termination_by len - pos
decreasing_by
  obtain ⟨_, _, after⟩ := Option.bind_eq_some_iff.1 _found
  have ahead := nextBox_eq_some after
  omega

/-- `mp4_box_offsets_seekable`. -/
def mp4BoxOffsetsSeekable (source : Source) (len : Nat) : List Nat × Source :=
  let (offsets, h) := boxesSeekable len (Headers.new source len) 0
  (offsets, h.source)

/-- The loop of `wav_data_offset_seekable`. -/
def dataChunkSeekable (len : Nat) (h : Headers) (pos : Nat) : Option Nat × Headers :=
  if _more : pos + 8 ≤ len then
    match h.bytesAt pos 8 with
    | (none, h) => (none, h)
    | (some chunk, h) =>
      if chunk.take 4 = ascii "data" then (some pos, h)
      else dataChunkSeekable len h (pos + riffAdvance chunk)
  else (none, h)
termination_by len - pos
decreasing_by
  simp only [riffAdvance]
  omega

/-- `wav_data_offset_seekable`. -/
def wavDataOffsetSeekable (source : Source) (len : Nat) : Option Nat × Source :=
  match (Headers.new source len).bytesAt 0 12 with
  | (none, h) => (none, h.source)
  | (some head, h) =>
    if slice head 0 4 = ascii "RIFF" ∧ slice head 8 12 = ascii "WAVE" then
      let (offset, h) := dataChunkSeekable len h 12
      (offset, h.source)
    else (none, h.source)

/-! ## `scan_format_aware_seekable` -/

section Scan

variable (F : FastCdc) (chunkAddress : Bytes → Bytes) (chunkScanner : ChunkScanner) (p : CdcParams)

/-- `scan_stream`. -/
def scanStream (fuel : Nat) (reader : Reader) (len : Nat) :
    Option (Except StreamScanError (List Boundary)) :=
  (scanStreamWindowed F chunkAddress fuel reader len p streamWindow).map
    (Except.mapError StreamScanError.io)

/-- One segment: a short one is read whole, a longer one streamed through `take`. -/
def segmentBoundsSeekable (fuel : Nat) (reader : Reader) (s e : Nat) :
    Option (Except StreamScanError (List Boundary)) :=
  if e - s ≤ p.maxSize then
    let segmentBytes := (reader.readToEnd (e - s)).1
    if segmentBytes.length ≠ e - s then some (.error .sourceShrank)
    else some (.ok [⟨0, e - s, chunkAddress segmentBytes⟩])
  else scanStream F chunkAddress p fuel { reader with rest := reader.rest.take (e - s) } (e - s)

/-- The loop over the segments. -/
def scanSegmentsSeekable (fuel : Nat) (source : Source) : (segIdx : Nat) → List (Nat × Nat) →
    Option (Except StreamScanError (List (Boundary × Bool)))
  | _, [] => some (.ok [])
  | segIdx, (s, e) :: rest =>
    if s = e then scanSegmentsSeekable fuel source (segIdx + 1) rest
    else
      let (reader, source) := source.seek s
      match segmentBoundsSeekable F chunkAddress p fuel reader s e with
      | none => none
      | some (.error err) => some (.error err)
      | some (.ok bounds) =>
        (scanSegmentsSeekable fuel source (segIdx + 1) rest).map
          (Except.map (placed segIdx s bounds ++ ·))
termination_by _ segments => segments.length

/-- Behind the cuts: the absorption rule of `scan_format_aware`, verbatim, and the segments. -/
def scanCutsSeekable (fuel : Nat) (source : Source) (len : Nat) (cuts : List Nat) :
    Option (Except StreamScanError FormatAwareChunkSet) :=
  let accepted := absorb p.minSize len 0 cuts
  if accepted = [] then
    (scanStream F chunkAddress p fuel (source.seek 0).1 len).map
      (Except.map fun bounds => ⟨bounds, List.replicate bounds.length false⟩)
  else
    (scanSegmentsSeekable F chunkAddress p fuel source 0 (segmentsFrom len 0 accepted)).map
      (Except.map chunkSet)

/-- The formats whose cuts need every byte. -/
def scanWhole (source : Source) (len : Nat) (format : Option ContainerFormat) (inMemoryLimit : Nat) :
    Option (Except StreamScanError FormatAwareChunkSet) :=
  if len > inMemoryLimit then some (.error (.needsWholeFile len inMemoryLimit))
  else
    let bytes := ((source.seek 0).1.readToEnd len).1
    (scanFormatAware chunkAddress chunkScanner p bytes format).map
      (Except.mapError StreamScanError.params)

/-- `scan_format_aware_seekable`. -/
def scanFormatAwareSeekable (fuel : Nat) (source : Source) (len : Nat)
    (format : Option ContainerFormat) (inMemoryLimit : Nat) :
    Option (Except StreamScanError FormatAwareChunkSet) :=
  match p.validate with
  | .error message => some (.error (.params message))
  | .ok () =>
    match format with
    | some .mcap =>
      let (cuts, source) := mcapRecordOffsetsSeekable source len
      scanCutsSeekable F chunkAddress p fuel source len cuts
    | some .mp4 =>
      let (cuts, source) := mp4BoxOffsetsSeekable source len
      scanCutsSeekable F chunkAddress p fuel source len cuts
    | some .wav =>
      let (cut, source) := wavDataOffsetSeekable source len
      scanCutsSeekable F chunkAddress p fuel source len cut.toList
    | none => scanCutsSeekable F chunkAddress p fuel source len []
    | some .zip => scanWhole chunkAddress chunkScanner p source len format inMemoryLimit
    | some .h264AnnexB => scanWhole chunkAddress chunkScanner p source len format inMemoryLimit

end Scan

end OneLink.Pcdc
