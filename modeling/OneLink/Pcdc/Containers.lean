/-
# Pcdc.Containers -- format-aware chunking of a buffer

A container's structure forces cuts: archive entries, boxes, records, key
frames.  Each format has a walker that collects its cuts; cuts too close
together are absorbed, and the segments between the others are chunked on their
own.  `none` is a scan that does not return: a walker that indexes outside the
buffer, or a chunk scanner that panics.
-/
import OneLink.Library.FixedWidth
import OneLink.Pcdc.Scanner

namespace OneLink.Pcdc

open Library

set_option autoImplicit false

inductive ContainerFormat where
  | zip
  | mp4
  | wav
  | h264AnnexB
  | mcap
  deriving DecidableEq, Repr

/-! ## ZIP -/

def zipLfhMagic : Bytes := [0x50, 0x4B, 0x03, 0x04]

def zipLfhFixedLen : Nat := 30

def zipLfhSanityCheck (tail : Bytes) : Bool :=
  if tail.length < zipLfhFixedLen then false
  else if leValue (slice tail 4 6) > 100 then false
  else [0, 1, 6, 8, 9, 12, 14, 18, 19, 20, 93, 94, 95, 96, 97, 98, 99].contains
    (leValue (slice tail 8 10))

/-- The loop of `zip_lfh_offsets`; `findIdx?` is `memchr`. -/
def localHeadersFrom (buffer : Bytes) (start : Nat) : List Nat :=
  match (buffer.drop start).findIdx? (· = 0x50) with
  | none => []
  | some rel =>
    let i := start + rel
    if i + 4 > buffer.length then []
    else if slice buffer i (i + 4) = zipLfhMagic ∧ zipLfhSanityCheck (buffer.drop i) then
      if _more : i + zipLfhFixedLen < buffer.length then
        i :: localHeadersFrom buffer (i + zipLfhFixedLen)
      else [i]
    else if _more : i + 1 < buffer.length then localHeadersFrom buffer (i + 1)
    else []
termination_by buffer.length - start
decreasing_by
  · simp only [zipLfhFixedLen] at _more ⊢
    omega
  · omega

def zipLfhOffsets (buffer : Bytes) : List Nat :=
  if buffer.length < zipLfhFixedLen then [] else localHeadersFrom buffer 0

/-! ## H.264 -/

/-- The length of the start code at `i`, or 0. -/
def startCodeLen (buffer : Bytes) (i : Nat) : Nat :=
  if slice buffer i (i + 4) = [0, 0, 0, 1] then 4
  else if slice buffer i (i + 3) = [0, 0, 1] then 3
  else 0

/-- The loop of `h264_keyframe_offsets`. -/
def keyframesFrom (buffer : Bytes) (i : Nat) : List Nat :=
  if _more : i + 4 < buffer.length then
    if _none : startCodeLen buffer i = 0 then keyframesFrom buffer (i + 1)
    else if i + startCodeLen buffer i ≥ buffer.length then []
    else
      let nalByte := buffer.getD (i + startCodeLen buffer i) 0
      if nalByte &&& 0x80 ≠ 0 then keyframesFrom buffer (i + startCodeLen buffer i)
      else if nalByte &&& 0x1F = 5 ∨ nalByte &&& 0x1F = 7 then
        i :: keyframesFrom buffer (i + startCodeLen buffer i + 1)
      else keyframesFrom buffer (i + startCodeLen buffer i + 1)
  else []
termination_by buffer.length - i

def h264KeyframeOffsets (buffer : Bytes) : List Nat := keyframesFrom buffer 0

/-! ## ISO BMFF -/

/-- `is_ascii_alphanumeric() || b == b' '`, for every byte of a box type. -/
def isBoxKind (kind : Bytes) : Bool :=
  kind.all fun b =>
    (48 ≤ b && b ≤ 57) || (65 ≤ b && b ≤ 90) || (97 ≤ b && b ≤ 122) || b = 32

/-- The `match size` of a box header, or `none` where it breaks. -/
def boxAdvance (buffer : Bytes) (pos : Nat) : Option Nat :=
  let size := beValue (slice buffer pos (pos + 4))
  if size = 1 then
    if pos + 16 > buffer.length then none
    else some (beValue (slice buffer (pos + 8) (pos + 16)))
  else if size = 0 then none
  else some size

/-- The checks of an advance, which both walkers make. -/
def nextBox (pos advance : Nat) : Option Nat :=
  if advance < 8 then none
  else if pos + advance ≥ 2 ^ 64 then none
  else some (pos + advance)

theorem nextBox_eq_some {pos advance next : Nat} (found : nextBox pos advance = some next) :
    pos + 8 ≤ next := by
  rw [nextBox] at found
  split at found
  · cases found
  · split at found
    · cases found
    · obtain rfl := Option.some.inj found
      omega

/-- The loop of `mp4_box_offsets`.  A position within 8 bytes of the end of the address space passes
the wrapped bound of the loop and panics at the index. -/
def boxesFrom (buffer : Bytes) (pos : Nat) : Option (List Nat) :=
  if pos + 8 ≥ 2 ^ 64 then none
  else if _more : pos + 8 ≤ buffer.length then
    if isBoxKind (slice buffer (pos + 4) (pos + 8)) then
      match _found : (boxAdvance buffer pos).bind (nextBox pos) with
      | none => some [pos]
      | some next => (boxesFrom buffer next).map (pos :: ·)
    else some []
  else some []
termination_by buffer.length - pos
decreasing_by
  obtain ⟨_, _, after⟩ := Option.bind_eq_some_iff.1 _found
  have ahead := nextBox_eq_some after
  omega

def mp4BoxOffsets (buffer : Bytes) : Option (List Nat) := boxesFrom buffer 0

/-! ## RIFF -/

/-- How far the chunk with this header reaches: an odd size is padded by one. -/
def riffAdvance (header : Bytes) : Nat :=
  let size := leValue (slice header 4 8)
  8 + size + size % 2

/-- The loop of `wav_data_offset`.  `pos` is inside the buffer and an advance below `2 ^ 33`, so
`saturating_add` does not saturate. -/
def dataChunkFrom (buffer : Bytes) (pos : Nat) : Option Nat :=
  if _more : pos + 8 ≤ buffer.length then
    if slice buffer pos (pos + 4) = ascii "data" then some pos
    else dataChunkFrom buffer (pos + riffAdvance (slice buffer pos (pos + 8)))
  else none
termination_by buffer.length - pos
decreasing_by
  simp only [riffAdvance]
  omega

def wavDataOffset (buffer : Bytes) : Option Nat :=
  if buffer.length < 12 ∨ slice buffer 0 4 ≠ ascii "RIFF" ∨ slice buffer 8 12 ≠ ascii "WAVE" then none
  else dataChunkFrom buffer 12

/-! ## MCAP -/

def mcapMagic : Bytes := [0x89, 0x4D, 0x43, 0x41, 0x50, 0x30, 0x0D, 0x0A]

def recordHeader : Nat := 9

/-- The end of the record whose header this is, or `none` where the walk stops. -/
def nextRecord (dataEnd pos : Nat) (header : Bytes) : Option Nat :=
  if header.getD 0 0 = 0 then none
  else
    let next := pos + recordHeader + leValue (slice header 1 recordHeader)
    if next ≥ 2 ^ 64 then none
    else if next > dataEnd then none
    else some next

theorem nextRecord_eq_some {dataEnd pos next : Nat} {header : Bytes}
    (found : nextRecord dataEnd pos header = some next) : pos + recordHeader ≤ next := by
  simp only [nextRecord] at found
  split at found
  · cases found
  · split at found
    · cases found
    · split at found
      · cases found
      · obtain rfl := Option.some.inj found
        omega

/-- The loop of `mcap_record_offsets`. -/
def recordsFrom (buffer : Bytes) (dataEnd pos : Nat) : List Nat :=
  if _more : pos + recordHeader ≤ dataEnd then
    match _found : nextRecord dataEnd pos (slice buffer pos (pos + recordHeader)) with
    | none => []
    | some next => pos :: recordsFrom buffer dataEnd next
  else []
termination_by dataEnd - pos
decreasing_by
  have ahead := nextRecord_eq_some _found
  simp only [recordHeader] at _more ahead
  omega

def mcapRecordOffsets (buffer : Bytes) : List Nat :=
  if buffer.length < mcapMagic.length + recordHeader ∨
      slice buffer 0 mcapMagic.length ≠ mcapMagic ∨ buffer.getD mcapMagic.length 0 ≠ 0x01 then []
  else
    let dataEnd :=
      if slice buffer (buffer.length - mcapMagic.length) buffer.length = mcapMagic ∧
          buffer.length ≥ 2 * mcapMagic.length then
        buffer.length - mcapMagic.length
      else buffer.length
    recordsFrom buffer dataEnd mcapMagic.length

/-! ## Segments -/

structure FormatAwareChunkSet where
  boundaries : List Boundary
  formatAware : List Bool
  deriving DecidableEq

/-- The absorption rule: a cut is accepted at least `min_size` behind the last one accepted and
before the end. -/
def absorb (minSize len : Nat) : (lastAccepted : Nat) → List Nat → List Nat
  | _, [] => []
  | last, c :: rest =>
    if c ≥ last + minSize ∧ c ≤ len - minSize then c :: absorb minSize len c rest
    else absorb minSize len last rest

/-- The segments between the accepted cuts. -/
def segmentsFrom (len : Nat) : (prev : Nat) → List Nat → List (Nat × Nat)
  | prev, [] => [(prev, len)]
  | prev, c :: rest => (prev, c) :: segmentsFrom len c rest

/-- The chunks of one segment, moved to where it lies; the first chunk of a segment but the first is
the forced one. -/
def placed (segIdx start : Nat) (bounds : List Boundary) : List (Boundary × Bool) :=
  bounds.mapIdx fun chunkIdx b =>
    ({ b with start := b.start + start, stop := b.stop + start },
      decide (chunkIdx = 0 ∧ segIdx > 0))

def chunkSet (chunks : List (Boundary × Bool)) : FormatAwareChunkSet :=
  ⟨chunks.map Prod.fst, chunks.map Prod.snd⟩

/-- `ChunkScanner::with_params(..).collect()`, over `fastcdc::v2020::FastCDC`: the ranges of the
chunks, or nothing where the crate panics. -/
abbrev ChunkScanner := CdcParams → Bytes → Option (List (Nat × Nat))

section Scan

variable (chunkAddress : Bytes → Bytes) (chunkScanner : ChunkScanner) (p : CdcParams)

/-- One segment of the buffer: a short one is a single chunk. -/
def segmentBounds (segmentBuf : Bytes) : Option (List Boundary) :=
  if segmentBuf.length ≤ p.maxSize then some [⟨0, segmentBuf.length, chunkAddress segmentBuf⟩]
  else (chunkScanner p segmentBuf).map (addressRanges chunkAddress segmentBuf)

/-- The loop over the segments. -/
def scanSegments (buffer : Bytes) : (segIdx : Nat) → List (Nat × Nat) → Option (List (Boundary × Bool))
  | _, [] => some []
  | segIdx, (s, e) :: rest =>
    if slice buffer s e = [] then scanSegments buffer (segIdx + 1) rest
    else do
      let bounds ← segmentBounds chunkAddress chunkScanner p (slice buffer s e)
      let later ← scanSegments buffer (segIdx + 1) rest
      return placed segIdx s bounds ++ later

def forcedCuts (buffer : Bytes) : Option ContainerFormat → Option (List Nat)
  | some .zip => some (zipLfhOffsets buffer)
  | some .mp4 => mp4BoxOffsets buffer
  | some .wav => some (wavDataOffset buffer).toList
  | some .h264AnnexB => some (h264KeyframeOffsets buffer)
  | some .mcap => some (mcapRecordOffsets buffer)
  | none => some []

/-- `scan_format_aware`. -/
def scanFormatAware (buffer : Bytes) (format : Option ContainerFormat) :
    Option (Except String FormatAwareChunkSet) :=
  match p.validate with
  | .error message => some (.error message)
  | .ok () => do
    let cuts ← forcedCuts buffer format
    let accepted := absorb p.minSize buffer.length 0 cuts
    if accepted = [] then
      let ranges ← chunkScanner p buffer
      let bounds := addressRanges chunkAddress buffer ranges
      return .ok ⟨bounds, List.replicate bounds.length false⟩
    else
      let chunks ← scanSegments chunkAddress chunkScanner p buffer 0
        (segmentsFrom buffer.length 0 accepted)
      return .ok (chunkSet chunks)

end Scan

end OneLink.Pcdc
