/-
# Cdc.Chunker — content-defined chunking

`chunk_bytes` over a whole buffer, in Python or through the native scanner, and
`index_file` over a file read in parts of `read_size` bytes.

BLAKE3 is imported: `Blake3` holds the two digests the module takes from it.  The
gear table is the one the module computes from them.
-/
import OneLink.Library.Checked
import OneLink.Library.Cutter
import OneLink.Library.Framing

namespace OneLink.Cdc

open Library

set_option autoImplicit false

def minChunkBytes : Nat := 16 * 1024
def avgChunkBytes : Nat := 64 * 1024
def maxChunkBytes : Nat := 256 * 1024
def mask64 : Nat := (1 <<< 64) - 1
def boundaryMask : Nat := avgChunkBytes - 1

structure Blake3 where
  hexdigest : Bytes → String
  /-- `digest(length=8)` -/
  digest8 : Bytes → Bytes

/-- A content-defined byte range and its digest; `stop` is the source's `end`. -/
@[ext]
structure Chunk where
  index : Nat
  start : Nat
  stop : Nat
  hash : String
  deriving DecidableEq, Repr

def Chunk.size (chunk : Chunk) : Nat := chunk.stop - chunk.start

structure FileIndex where
  blobHash : String
  size : Nat
  chunks : List Chunk
  deriving DecidableEq, Repr

inductive CdcError where
  | readSizeNotPositive
  | sizeNegative
  | sizeChanged
  deriving DecidableEq, Repr

def CdcError.message : CdcError → String
  | readSizeNotPositive => "read_size must be positive"
  | sizeNegative => "size must be non-negative"
  | sizeChanged => "file size changed while building CDC index"

variable (H : Blake3)

/-- `int.from_bytes(..., "little")` -/
def littleEndian : Bytes → Nat
  | [] => 0
  | b :: rest => b.toNat + 256 * littleEndian rest

/-- `_GEAR[b]` -/
def gear (b : UInt8) : Nat := littleEndian (H.digest8 [b])

def roll (rolling : Nat) (b : UInt8) : Nat := ((rolling <<< 1) + gear H b) &&& mask64

def shouldCut (chunkLen rollingHash : Nat) : Bool :=
  if chunkLen < minChunkBytes then false
  else if chunkLen ≥ maxChunkBytes then true
  else (rollingHash &&& boundaryMask) = 0

/-- `data[start:end]` -/
def slice (data : Bytes) (start stop : Nat) : Bytes := (data.take stop).drop start

def makeChunk (index start stop : Nat) (data : Bytes) : Chunk where
  index := index
  start := start
  stop := stop
  hash := H.hexdigest (slice data start stop)

/-! ## `chunk_bytes` -/

/-- The loop variables of the Python chunker. -/
structure ByteLoop where
  chunks : List Chunk
  start : Nat
  rolling : Nat

def byteStep (data : Bytes) (s : ByteLoop) (item : UInt8 × Nat) : ByteLoop :=
  let rolling := roll H s.rolling item.1
  let stop := item.2 + 1
  if shouldCut (stop - s.start) rolling then
    ⟨s.chunks ++ [makeChunk H s.chunks.length s.start stop data], stop, 0⟩
  else ⟨s.chunks, s.start, rolling⟩

/-- The last chunk, which empty input does not have. -/
def appendTail (data : Bytes) (chunks : List Chunk) (start : Nat) : List Chunk :=
  if start < data.length ∨ (chunks = [] ∧ data.length > 0) then
    chunks ++ [makeChunk H chunks.length start data.length data]
  else chunks

def chunkBytesPython (data : Bytes) : List Chunk :=
  let s := data.zipIdx.foldl (byteStep H data) ⟨[], 0, 0⟩
  appendTail H data s.chunks s.start

/-- The variables of `ol_cdc_scan`; `cuts` is the output array as far as it is filled. -/
structure ScanLoop where
  rolling : Nat
  chunkLen : Nat
  cutCount : Nat
  cuts : List Nat

def scanStep (cutsCap : Nat) (s : ScanLoop) (item : UInt8 × Nat) : ScanLoop :=
  let rolling := roll H s.rolling item.1
  let chunkLen := s.chunkLen + 1
  if chunkLen ≥ minChunkBytes ∧ (chunkLen ≥ maxChunkBytes ∨ (rolling &&& boundaryMask) = 0) then
    { rolling := 0
      chunkLen := 0
      cutCount := s.cutCount + 1
      cuts := if s.cutCount < cutsCap then s.cuts ++ [item.2 + 1] else s.cuts }
  else { s with rolling := rolling, chunkLen := chunkLen }

/-- `NativeCdcScanner.scan` from a fresh state; `none` is the overflow it raises. -/
def scan (data : Bytes) : Option (List Nat) :=
  let cap := max 1 ((data.length + max 1 minChunkBytes - 1) / max 1 minChunkBytes + 2)
  let s := data.zipIdx.foldl (scanStep H cap) ⟨0, 0, 0, []⟩
  if s.cutCount > cap then none else some s.cuts

/-- The chunks between the cuts of the scanner, with the end of the last one. -/
def chunksOfCuts (data : Bytes) (cuts : List Nat) : List Chunk × Nat :=
  cuts.foldl (fun (chunks, start) cut =>
    (chunks ++ [makeChunk H chunks.length start cut data], cut)) ([], 0)

def chunkBytesNative (data : Bytes) : Option (List Chunk) :=
  match scan H data with
  | none => none
  | some cuts =>
    let (chunks, start) := chunksOfCuts H data cuts
    some (appendTail H data chunks start)

/-- `chunk_bytes`, with the native scanner when it is there. -/
def chunkBytes (native : Bool) (data : Bytes) : List Chunk :=
  if native then (chunkBytesNative H data).getD (chunkBytesPython H data)
  else chunkBytesPython H data

/-! ## `index_file` -/

/-- What `handle.read(read_size)` returns until it returns nothing. -/
def readParts (readSize : Nat) (data : Bytes) : List Bytes :=
  if readSize = 0 ∨ data = [] then []
  else data.take readSize :: readParts readSize (data.drop readSize)
termination_by data.length
decreasing_by
  have nonempty : data.length ≠ 0 := by
    intro none
    simp_all
  rw [List.length_drop]
  omega

structure StreamLoop where
  chunks : List Chunk
  chunkBuf : Bytes
  rolling : Nat
  offset : Nat

def StreamLoop.close (s : StreamLoop) (chunkBuf : Bytes) : Chunk where
  index := s.chunks.length
  start := s.offset
  stop := s.offset + chunkBuf.length
  hash := H.hexdigest chunkBuf

def streamStep (s : StreamLoop) (b : UInt8) : StreamLoop :=
  let rolling := roll H s.rolling b
  let chunkBuf := s.chunkBuf ++ [b]
  if shouldCut chunkBuf.length rolling then
    ⟨s.chunks ++ [s.close H chunkBuf], [], 0, s.offset + chunkBuf.length⟩
  else ⟨s.chunks, chunkBuf, rolling, s.offset⟩

def streamParts (parts : List Bytes) : StreamLoop :=
  parts.foldl (fun s part => part.foldl (streamStep H) s) ⟨[], [], 0, 0⟩

/-- The chunks after the loop; also an empty file gets one. -/
def StreamLoop.finish (s : StreamLoop) : List Chunk :=
  if s.chunkBuf ≠ [] ∨ s.chunks = [] then s.chunks ++ [s.close H s.chunkBuf] else s.chunks

def StreamLoop.observedSize (s : StreamLoop) : Nat :=
  match (s.finish H).getLast? with
  | none => s.offset + s.chunkBuf.length
  | some last => last.stop

/-- `index_file` on a handle over `data`. -/
def indexFile (data : Bytes) (size readSize : Int) : Except CdcError FileIndex := do
  require (¬ readSize ≤ 0) .readSizeNotPositive
  require (¬ size < 0) .sizeNegative
  let parts := readParts readSize.toNat data
  let s := streamParts H parts
  require ((s.observedSize H : Int) = size) .sizeChanged
  return { blobHash := H.hexdigest parts.flatten, size := size.toNat, chunks := s.finish H }

end OneLink.Cdc
