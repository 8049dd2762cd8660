/-
# ChunkStore.Store — two logs and an index

The store appends chunk records to one log and manifest records to another and
keeps in memory where each chunk lies.  Opening replays both logs, walks the chunk
log a second time for the offsets and rejects manifest records whose anchor
resolves to no chunk.  The pool of open file handles that `read_chunk` keeps is
left out: a log file is never replaced under its name.
-/
import OneLink.ChunkStore.Memtable
import OneLink.Wal.Recovery

namespace OneLink.ChunkStore

open Library
open OneLink.Wal (WalError Io Log LogKind fileHeaderLen recordHeaderLen recordTrailerLen crcValid
  parseHeader sortedLogFiles replayLogDir)

set_option autoImplicit false
set_option linter.dupNamespace false

structure StoreStats where
  indexedChunks : Nat := 0
  manifestRecords : Nat := 0
  bytesScannedAtReplay : Nat := 0
  filesTruncated : Nat := 0
  orphanedManifestRecords : Nat := 0
deriving DecidableEq, Repr

structure ChunkStore (B : BloomFilter) where
  chunkLog : Log
  manifestLog : Log
  memtable : Memtable B
  lastChunkLogAnchor : UInt64
  stats : StoreStats
  closed : Bool := false

/-- An error of a decoder, at the place in the log it is about. -/
def ChunkStoreError.relocate (offset : Nat) : ChunkStoreError → ChunkStoreError
  | .malformedRecord _ reason => .malformedRecord offset reason
  | other => other

def liftWal {α : Type} : Except WalError α → Except ChunkStoreError α
  | .ok a => .ok a
  | .error err => .error (.wal err)

def relocated {α : Type} (offset : Nat) : Except ChunkStoreError α → Except ChunkStoreError α
  | .ok a => .ok a
  | .error err => .error (err.relocate offset)

variable {B : BloomFilter} (crc32c : Bytes → UInt32)

/-! ## The index, rebuilt from the files -/

structure RecoveredChunkIndex (B : BloomFilter) where
  memtable : Memtable B
  coordinates : List (Nat × Nat)
  lastAnchor : UInt64

/-- `u32::try_from(record.ciphertext.len())` -/
def indexLength (record : ChunkRecord) (offset : Nat) : Except ChunkStoreError UInt32 := do
  require (record.ciphertext.length ≤ u32Max)
    (.malformedRecord offset "ciphertext length cannot be represented in the index")
  return UInt32.ofNat record.ciphertext.length

def locationOf (record : ChunkRecord) (fileId walOffset : Nat) (lengthCiphertext : UInt32) :
    ChunkLocation :=
  ⟨fileId, walOffset, record.lengthPlaintext, lengthCiphertext, record.ratchetKeyId,
    record.stripeDescriptor⟩

/-- What the walk does with one record. -/
def RecoveredChunkIndex.add (index : RecoveredChunkIndex B) (fileId cursor : Nat)
    (record : ChunkRecord) : Except ChunkStoreError (RecoveredChunkIndex B) := do
  let lengthCiphertext ← indexLength record cursor
  let lastAnchor ← encodeChunkLogAnchor fileId cursor
  return ⟨index.memtable.insert record.chunkId (locationOf record fileId cursor lengthCiphertext),
    (fileId, cursor) :: index.coordinates, lastAnchor⟩

/-- The walk over one file: `rest` is what it holds from `cursor` on. -/
def indexFile (fileId cursor : Nat) (rest : Bytes) (index : RecoveredChunkIndex B) :
    Except ChunkStoreError (RecoveredChunkIndex B) :=
  if rest = [] then .ok index
  else if rest.length < recordHeaderLen then .error .io
  else
    match parseHeader (rest.take recordHeaderLen) cursor with
    | .error err => .error (.wal err)
    | .ok header =>
      if rest.length < recordHeaderLen + header.length + recordTrailerLen then .error .io
      else if crcValid crc32c
          (rest.take (recordHeaderLen + header.length + recordTrailerLen)) = false then
        .error (.malformedRecord cursor "WAL changed or failed CRC after replay")
      else
        match relocated cursor (ChunkRecord.decode header.kind header.flags
            ((rest.drop recordHeaderLen).take header.length)) with
        | .error err => .error err
        | .ok record =>
          match index.add fileId cursor record with
          | .error err => .error err
          | .ok index =>
            indexFile fileId (cursor + (recordHeaderLen + header.length + recordTrailerLen))
              (rest.drop (recordHeaderLen + header.length + recordTrailerLen)) index
termination_by rest.length
decreasing_by
  simp only [List.length_drop, recordHeaderLen] at *
  omega

/-- `rebuild_chunk_index` -/
def rebuildChunkIndex (disk : Disk) (recordCount : Nat) :
    Except ChunkStoreError (RecoveredChunkIndex B) :=
  (sortedLogFiles disk).foldlM
    (fun index f => indexFile crc32c f.id fileHeaderLen (f.contents.drop fileHeaderLen) index)
    ⟨Memtable.withCapacity B (max recordCount 1024), [], 0⟩

/-! ## Opening -/

/-- Whether `open` accepts a manifest record, given the coordinates of the chunk log. -/
def acceptsManifest (coordinates : List (Nat × Nat)) (r : Wal.Record) : Bool :=
  match ManifestRecord.decode r.kind r.flags r.payload with
  | .ok m =>
    match decodeChunkLogAnchor m.chunkLogAnchor with
    | none => true
    | some coordinate => coordinate ∈ coordinates
  | .error _ => false

/-- The two log directories. -/
structure Disks where
  chunk : Disk
  manifest : Disk
deriving DecidableEq, Repr

abbrev DiskM := Faulty Disks ChunkStoreError

def onChunkDisk {α : Type} (m : Faulty Disk WalError α) : DiskM α :=
  Faulty.onPart Disks.chunk (fun chunk disks => { disks with chunk }) .wal m

def onManifestDisk {α : Type} (m : Faulty Disk WalError α) : DiskM α :=
  Faulty.onPart Disks.manifest (fun manifest disks => { disks with manifest }) .wal m

/-- Replay of one log, as an operation on its directory. -/
def replayOp (kind : LogKind) : Faulty Disk WalError Wal.ReplayOutcome := fun disk =>
  match replayLogDir crc32c disk kind with
  | (.ok outcome, left) => (.returned outcome, left)
  | (.error err, left) => (.raised err, left)

/-- `ChunkStore::open`.  The logs it starts with count what replay has found as
flushed. -/
def ChunkStore.open (B : BloomFilter) (chunkIo manifestIo : Io) : DiskM (ChunkStore B) := do
  let chunkReplay ← onChunkDisk (replayOp crc32c .chunkLog)
  let chunkDisk ← Faulty.read Disks.chunk
  let recovered : RecoveredChunkIndex B ←
    Faulty.ofExcept (rebuildChunkIndex crc32c chunkDisk chunkReplay.records.length)
  let manifestReplay ← onManifestDisk (replayOp crc32c .manifestLog)
  let manifestCount := manifestReplay.records.countP (acceptsManifest recovered.coordinates)
  let chunkWal ← onChunkDisk (Wal.Wal.open .chunkLog chunkIo)
  let manifestWal ← onManifestDisk (Wal.Wal.open .manifestLog manifestIo)
  let disks ← Faulty.read id
  return {
    chunkLog := ⟨disks.chunk, chunkWal, chunkReplay.records, []⟩
    manifestLog := ⟨disks.manifest, manifestWal, manifestReplay.records, []⟩
    memtable := recovered.memtable
    lastChunkLogAnchor := recovered.lastAnchor
    stats := {
      indexedChunks := recovered.memtable.len
      manifestRecords := manifestCount
      bytesScannedAtReplay := chunkReplay.bytesScanned + manifestReplay.bytesScanned
      filesTruncated := chunkReplay.truncated.length + manifestReplay.truncated.length
      orphanedManifestRecords := manifestReplay.records.length - manifestCount } }

/-! ## Operations -/

abbrev StoreM (B : BloomFilter) := Faulty (ChunkStore B) ChunkStoreError

def onChunkLog {α : Type} (m : Wal.LogM α) : StoreM B α :=
  Faulty.onPart ChunkStore.chunkLog (fun chunkLog store => { store with chunkLog }) .wal m

def onManifestLog {α : Type} (m : Wal.LogM α) : StoreM B α :=
  Faulty.onPart ChunkStore.manifestLog (fun manifestLog store => { store with manifestLog }) .wal m

/-- `if self.closed { return Err(Closed) }` -/
def checkOpen : StoreM B Unit := do
  if ← Faulty.read ChunkStore.closed then Faulty.raise .closed else return ()

namespace ChunkStore

def hasChunk (store : ChunkStore B) (chunkId : ChunkId) : Bool := store.memtable.contains chunkId

def locateChunk (store : ChunkStore B) (chunkId : ChunkId) : Option ChunkLocation :=
  store.memtable.get chunkId

def appendChunk (record : ChunkRecord) (io : Io) : StoreM B Nat := do
  checkOpen
  Faulty.ofExcept record.validate
  let lengthCiphertext ← Faulty.ofExcept (indexLength record 0)
  let walRecord ← Faulty.ofExcept record.encode
  let position ← onChunkLog (Wal.append crc32c walRecord io)
  let location := locationOf record position.fileId position.offset lengthCiphertext
  Faulty.modify fun store => { store with memtable := store.memtable.insert record.chunkId location }
  let anchor ← Faulty.ofExcept location.manifestAnchor
  Faulty.modify fun store => { store with lastChunkLogAnchor := anchor }
  return position.offset

/-- The record as it is written: an anchor of zero becomes the last chunk's. -/
def anchored (store : ChunkStore B) (record : ManifestRecord) : ManifestRecord :=
  if record.chunkLogAnchor = 0 then { record with chunkLogAnchor := store.lastChunkLogAnchor }
  else record

def appendManifest (record : ManifestRecord) (io : Io) : StoreM B Unit := do
  checkOpen
  let entry ← Faulty.read (anchored · record)
  let walRecord ← Faulty.ofExcept entry.encode
  let _ ← onManifestLog (Wal.append crc32c walRecord io)
  return ()

/-- The chunk log first. -/
def flush (chunkIo manifestIo : Io) : StoreM B Unit := do
  checkOpen
  onChunkLog (Wal.flush chunkIo)
  onManifestLog (Wal.flush manifestIo)

def close (chunkIo manifestIo : Io) : StoreM B Unit := do
  if ← Faulty.read ChunkStore.closed then
    return ()
  else
    flush chunkIo manifestIo
    Faulty.modify fun store => { store with closed := true }

/-- An operation whose error nobody sees. -/
def ignoring {S ε : Type} (m : Faulty S ε Unit) : Faulty S ε Unit := fun s =>
  match m s with
  | (.raised _, s) => (.returned (), s)
  | exit => exit

/-- `Drop`: a best-effort flush unless the store is closed, then the writers' own, in
the order of the fields. -/
def drop (flushIo : Io × Io) (chunkIo manifestIo : Io) : StoreM B Unit := do
  if ← Faulty.read ChunkStore.closed then pure ()
  else ignoring (flush flushIo.1 flushIo.2)
  onChunkLog (Wal.dropWal chunkIo)
  onManifestLog (Wal.dropWal manifestIo)

def hexLower8 (bytes : Bytes) : String := Wal.hexLower bytes

/-- `read_exact` at an offset of a log file. -/
def readFile (disk : Disk) (fileId offset total : Nat) : Except ChunkStoreError Bytes :=
  match disk.find? (·.id = fileId) with
  | none => .error .io
  | some f =>
    if offset + total ≤ f.contents.length then .ok ((f.contents.drop offset).take total)
    else .error .io

def readChunk (store : ChunkStore B) (chunkId : ChunkId) : Except ChunkStoreError ChunkRecord :=
  match store.memtable.get chunkId with
  | none => .error (.chunkNotFound (hexLower8 (chunkId.1.take 8)))
  | some location => do
    let buf ← readFile store.chunkLog.disk location.fileId location.walOffset
      (recordHeaderLen + chunkRecordHeaderLen + location.lengthCiphertext.toNat + recordTrailerLen)
    require (crcValid crc32c buf = true)
      (.malformedRecord location.walOffset "chunk record CRC mismatch on read")
    let header ← liftWal (parseHeader (buf.take recordHeaderLen) location.walOffset)
    require (recordHeaderLen + header.length + recordTrailerLen = buf.length)
      (.malformedRecord location.walOffset "WAL length disagrees with indexed chunk length")
    relocated location.walOffset (ChunkRecord.decode header.kind header.flags
      ((buf.drop recordHeaderLen).take header.length))

end ChunkStore

end OneLink.ChunkStore
