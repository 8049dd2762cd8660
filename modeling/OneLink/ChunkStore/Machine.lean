/-
# ChunkStore.Machine -- the index and the log, and a store over crashes, closes and reopenings

`Indexes m ps` says that the memtable maps every chunk id to the last place in
`ps` that carries it.  Appending one chunk keeps it (`Indexes.push`), and the walk
over the files of a log of chunk records builds it for exactly the places of that
log (`rebuild_image`).

A machine has a store running, or only what the last one left on disk.  A step is
a call of the running store, its orderly end, an opening, or a crash; each call
carries how its I/O goes, so that it may fail or be cut off anywhere.  `flushed`
and `batch` are ghosts: the chunk records of the flushes that returned, and those
appended since.
-/
import OneLink.ChunkStore.Store
import OneLink.Wal.Residue

namespace OneLink.ChunkStore

open Library
open OneLink.Wal (LogKind Place AppendPosition image Ascending recordsOf places placesFrom
  fileHeaderLen)

set_option autoImplicit false
set_option linter.dupNamespace false

/-- The chunk record in a log record. -/
def chunkOf (r : Wal.Record) : Option ChunkRecord :=
  (ChunkRecord.decode r.kind r.flags r.payload).toOption

/-- What the store writes to its chunk log. -/
def IsChunk (r : Wal.Record) : Prop := ∃ c : ChunkRecord, c.Valid ∧ r = c.wal

theorem chunkOf_wal {c : ChunkRecord} (valid : c.Valid) : chunkOf c.wal = some c := by
  rw [chunkOf, ChunkRecord.decode_encode valid]
  rfl

def carries (id : ChunkId) (r : Wal.Record) : Bool := (chunkOf r).any (·.chunkId = id)

theorem carries_wal {c : ChunkRecord} (valid : c.Valid) (id : ChunkId) :
    carries id c.wal = decide (c.chunkId = id) := by
  simp [carries, chunkOf_wal valid]

/-- The last place that carries the id. -/
def lastPlace (id : ChunkId) (ps : List Place) : Option Place :=
  ps.reverse.find? fun p => carries id p.record

theorem lastPlace_snoc (id : ChunkId) (ps : List Place) (p : Place) :
    lastPlace id (ps ++ [p]) = if carries id p.record = true then some p else lastPlace id ps := by
  rw [lastPlace, List.reverse_append, List.reverse_singleton, List.singleton_append,
    List.find?_cons]
  cases carries id p.record <;> rfl

def placeLocation (p : Place) : Option ChunkLocation :=
  (chunkOf p.record).map fun c =>
    locationOf c p.position.fileId p.position.offset (UInt32.ofNat c.ciphertext.length)

variable {B : BloomFilter}

def Indexes (m : Memtable B) (ps : List Place) : Prop :=
  ∀ id, m.get id = (lastPlace id ps).bind placeLocation

theorem Indexes.push {m : Memtable B} {ps : List Place} (indexes : Indexes m ps) {c : ChunkRecord}
    (valid : c.Valid) (position : AppendPosition) :
    Indexes (m.insert c.chunkId (locationOf c position.fileId position.offset
      (UInt32.ofNat c.ciphertext.length))) (ps ++ [⟨position, c.wal⟩]) := by
  intro id
  rw [Memtable.get_insert, lastPlace_snoc, carries_wal valid, indexes id]
  by_cases same : c.chunkId = id
  · simp [same, placeLocation, chunkOf_wal valid]
  · simp [same]

theorem indexes_empty (n : Nat) : Indexes (Memtable.withCapacity B n) [] := by
  intro id
  rw [Memtable.get_withCapacity]
  rfl

/-! ## The walk over the files -/

/-- What the walk knows after these places. -/
structure RecoveredChunkIndex.Knows (index : RecoveredChunkIndex B) (ps : List Place) : Prop where
  indexes : Indexes index.memtable ps
  coordinates : ∀ fileId offset,
    (fileId, offset) ∈ index.coordinates ↔ ∃ p ∈ ps, p.position = ⟨fileId, offset⟩
  lastAnchor : ∀ p, ps.getLast? = some p →
    encodeChunkLogAnchor p.position.fileId p.position.offset = .ok index.lastAnchor
  noAnchor : ps = [] → index.lastAnchor = 0

theorem indexLength_eq_ok {c : ChunkRecord} {offset : Nat} {length : UInt32} :
    indexLength c offset = .ok length ↔
      c.ciphertext.length ≤ u32Max ∧ UInt32.ofNat c.ciphertext.length = length := by
  simp only [indexLength, bind_eq_ok, require_eq_ok, exists_const, pure_eq_ok_iff]

theorem add_knows {index index' : RecoveredChunkIndex B} {ps : List Place}
    (knows : index.Knows ps) {c : ChunkRecord} (valid : c.Valid) {fileId cursor : Nat}
    (added : index.add fileId cursor c = .ok index') :
    index'.Knows (ps ++ [⟨⟨fileId, cursor⟩, c.wal⟩]) := by
  simp only [RecoveredChunkIndex.add, bind_eq_ok, indexLength_eq_ok, pure_eq_ok_iff] at added
  obtain ⟨_, ⟨_, rfl⟩, anchor, encoded, rfl⟩ := added
  refine ⟨knows.indexes.push valid ⟨fileId, cursor⟩, ?_, ?_, by simp⟩
  · intro fileId' offset
    rw [List.mem_cons, knows.coordinates]
    constructor
    · rintro (same | ⟨p, member, position⟩)
      · obtain ⟨rfl, rfl⟩ := Prod.mk.inj same
        exact ⟨_, List.mem_append_right _ (List.mem_singleton_self _), rfl⟩
      · exact ⟨p, List.mem_append_left _ member, position⟩
    · rintro ⟨p, member, position⟩
      obtain old | new := List.mem_append.mp member
      · exact .inr ⟨p, old, position⟩
      · obtain rfl := List.mem_singleton.mp new
        obtain ⟨rfl, rfl⟩ := AppendPosition.mk.inj position
        exact .inl rfl
  · intro p last
    rw [List.getLast?_concat, Option.some.injEq] at last
    rw [← last]
    exact encoded

section Crc

variable (crc32c : Bytes → UInt32)

theorem indexFile_cons {c : ChunkRecord} (valid : c.Valid) (fileId cursor : Nat) (rest : Bytes)
    (index : RecoveredChunkIndex B) :
    indexFile crc32c fileId cursor (c.wal.bytes crc32c ++ rest) index =
      match index.add fileId cursor c with
      | .error err => .error err
      | .ok index => indexFile crc32c fileId (cursor + c.wal.onDiskLen) rest index := by
  obtain ⟨record, behind, payload⟩ := Wal.record_read crc32c c.wal rest
  have length : (c.wal.bytes crc32c ++ rest).length = c.wal.onDiskLen + rest.length := by
    rw [List.length_append, Wal.length_bytes]
  have onDisk : c.wal.onDiskLen =
      Wal.recordHeaderLen + c.wal.payload.length + Wal.recordTrailerLen := rfl
  have decoded : relocated cursor
      (ChunkRecord.decode c.wal.kind c.wal.flags c.wal.payload) = .ok c := by
    rw [ChunkRecord.decode_encode valid]
    rfl
  rw [indexFile, if_neg (by simp [Wal.bytes_ne_nil]), if_neg (by rw [length, onDisk]; omega)]
  simp only [Wal.parseHeader_bytes crc32c valid.fits]
  rw [if_neg (by rw [length, onDisk]; omega), ← onDisk, record, behind, payload,
    Wal.crcValid_bytes, if_neg (by decide)]
  cases added : index.add fileId cursor c <;> simp only [decoded, added]

theorem indexFile_frames {rs : List Wal.Record} (chunks : ∀ r ∈ rs, IsChunk r) (fileId cursor : Nat)
    {index index' : RecoveredChunkIndex B} {ps : List Place} (knows : index.Knows ps)
    (walked : indexFile crc32c fileId cursor (frames (Wal.Record.bytes crc32c) rs) index =
      .ok index') :
    index'.Knows (ps ++ placesFrom fileId cursor rs) := by
  induction rs generalizing cursor index ps with
  | nil =>
    rw [frames_nil, indexFile, if_pos rfl] at walked
    obtain rfl := Except.ok.inj walked
    simpa [placesFrom] using knows
  | cons r rs ih =>
    rw [List.forall_mem_cons] at chunks
    obtain ⟨⟨c, valid, rfl⟩, rest⟩ := chunks
    rw [frames_cons, indexFile_cons crc32c valid] at walked
    cases added : index.add fileId cursor c with
    | error err => simp [added] at walked
    | ok next =>
      rw [added] at walked
      have knowsLater := ih rest (cursor + c.wal.onDiskLen) (add_knows knows valid added) walked
      simpa [placesFrom] using knowsLater

theorem walk_files {files : List (Nat × List Wal.Record)} (chunks : ∀ r ∈ recordsOf files, IsChunk r)
    {index index' : RecoveredChunkIndex B} {ps : List Place} (knows : index.Knows ps)
    (walked : (image crc32c .chunkLog files).foldlM
      (fun index f => indexFile crc32c f.id fileHeaderLen (f.contents.drop fileHeaderLen) index)
      index = .ok index') :
    index'.Knows (ps ++ places files) := by
  induction files generalizing index ps with
  | nil =>
    obtain rfl := Except.ok.inj walked
    simpa [places] using knows
  | cons f files ih =>
    have own : ∀ r ∈ f.2, IsChunk r := fun r member => chunks r (by simp [recordsOf, member])
    have others : ∀ r ∈ recordsOf files, IsChunk r := by
      intro r member
      apply chunks
      simp only [recordsOf, List.flatMap_cons, List.mem_append]
      exact .inr member
    have body : (DiskFile.contents ⟨f.1, Wal.fileHeader .chunkLog ++
        frames (Wal.Record.bytes crc32c) f.2, []⟩).drop fileHeaderLen =
        frames (Wal.Record.bytes crc32c) f.2 := by
      rw [DiskFile.contents, List.append_nil]
      exact List.drop_left' (Wal.length_fileHeader _)
    have split : image crc32c .chunkLog (f :: files) =
        ⟨f.1, Wal.fileHeader .chunkLog ++ frames (Wal.Record.bytes crc32c) f.2, []⟩ ::
          image crc32c .chunkLog files := rfl
    rw [split, List.foldlM_cons, bind_eq_ok] at walked
    obtain ⟨next, first, later⟩ := walked
    rw [body] at first
    have knowsLater := ih others (indexFile_frames crc32c own _ _ knows first) later
    simpa [places] using knowsLater

/-- The index that is rebuilt from a log of chunk records knows its places. -/
theorem rebuild_image {files : List (Nat × List Wal.Record)} (ascending : Ascending files)
    (chunks : ∀ r ∈ recordsOf files, IsChunk r) {n : Nat} {index : RecoveredChunkIndex B}
    (rebuilt : rebuildChunkIndex crc32c (image crc32c .chunkLog files) n = .ok index) :
    index.Knows (places files) := by
  rw [rebuildChunkIndex,
    Wal.sortedLogFiles_of_ascending (Wal.image_ascending crc32c _ ascending)] at rebuilt
  have empty : (⟨Memtable.withCapacity B (max n 1024), [], 0⟩ : RecoveredChunkIndex B).Knows [] :=
    ⟨indexes_empty _, by simp, by simp, fun _ => rfl⟩
  simpa using walk_files crc32c chunks empty rebuilt

end Crc

open OneLink.Wal (WalError Io)

/-- A call of a running store. -/
inductive Call
  | appendChunk (record : ChunkRecord) (io : Io)
  | appendManifest (record : ManifestRecord) (io : Io)
  | flush (chunkIo manifestIo : Io)
  | close (chunkIo manifestIo : Io)

inductive Event
  | call (call : Call)
  | drop (flushIo : Io × Io) (chunkIo manifestIo : Io)
  | reopen (chunkIo manifestIo : Io)
  | crash

inductive Machine (B : BloomFilter)
  | up (store : ChunkStore B)
  | down (disks : Disks) (flushed batch : List Wal.Record)

/-- What a crash may leave of both directories. -/
def Disks.Survive (disks left : Disks) : Prop :=
  Survives disks.chunk left.chunk ∧ Survives disks.manifest left.manifest

variable {B : BloomFilter}

def ChunkStore.disks (store : ChunkStore B) : Disks :=
  ⟨store.chunkLog.disk, store.manifestLog.disk⟩

/-- The store's process is gone and this is left. -/
def ChunkStore.gone (store : ChunkStore B) (left : Disks) : Machine B :=
  .down left store.chunkLog.flushed store.chunkLog.batch

section Crc

variable (crc32c : Bytes → UInt32)

def Call.perform : Call → StoreM B Unit
  | .appendChunk record io => do
    let _ ← ChunkStore.appendChunk crc32c record io
    return ()
  | .appendManifest record io => ChunkStore.appendManifest crc32c record io
  | .flush chunkIo manifestIo => ChunkStore.flush chunkIo manifestIo
  | .close chunkIo manifestIo => ChunkStore.close chunkIo manifestIo

inductive Step : Machine B → Event → Machine B → Prop
  | answered {store store' : ChunkStore B} {call : Call} {exit : Exit ChunkStoreError Unit}
      (ran : call.perform crc32c store = (exit, store')) (going : exit ≠ .crashed) :
      Step (.up store) (.call call) (.up store')
  | stopped {store store' : ChunkStore B} {call : Call} {left : Disks}
      (ran : call.perform crc32c store = (.crashed, store')) (survive : store'.disks.Survive left) :
      Step (.up store) (.call call) (store'.gone left)
  | dropped {store store' : ChunkStore B} {flushIo : Io × Io} {chunkIo manifestIo : Io}
      (ran : ChunkStore.drop flushIo chunkIo manifestIo store = (.returned (), store')) :
      Step (.up store) (.drop flushIo chunkIo manifestIo) (store'.gone store'.disks)
  | dropStopped {store store' : ChunkStore B} {flushIo : Io × Io} {chunkIo manifestIo : Io}
      {left : Disks}
      (ran : ChunkStore.drop flushIo chunkIo manifestIo store = (.crashed, store'))
      (survive : store'.disks.Survive left) :
      Step (.up store) (.drop flushIo chunkIo manifestIo) (store'.gone left)
  | crashed {store : ChunkStore B} {left : Disks} (survive : store.disks.Survive left) :
      Step (.up store) .crash (store.gone left)
  | opened {disks disks' : Disks} {flushed batch : List Wal.Record} {chunkIo manifestIo : Io}
      {store : ChunkStore B}
      (ran : ChunkStore.open crc32c B chunkIo manifestIo disks = (.returned store, disks')) :
      Step (.down disks flushed batch) (.reopen chunkIo manifestIo) (.up store)
  | refused {disks disks' : Disks} {flushed batch : List Wal.Record} {chunkIo manifestIo : Io}
      {err : ChunkStoreError}
      (ran : ChunkStore.open crc32c B chunkIo manifestIo disks = (.raised err, disks')) :
      Step (.down disks flushed batch) (.reopen chunkIo manifestIo) (.down disks' flushed batch)
  | openStopped {disks disks' left : Disks} {flushed batch : List Wal.Record}
      {chunkIo manifestIo : Io}
      (ran : ChunkStore.open crc32c B chunkIo manifestIo disks = (.crashed, disks'))
      (survive : disks'.Survive left) :
      Step (.down disks flushed batch) (.reopen chunkIo manifestIo) (.down left flushed batch)
  | crashedAgain {disks left : Disks} {flushed batch : List Wal.Record}
      (survive : disks.Survive left) :
      Step (.down disks flushed batch) .crash (.down left flushed batch)

/-- The machines that steps of the allowed kind lead to, from empty directories. -/
inductive Reached (allowed : Machine B → Event → Prop) : Machine B → Prop
  | start : Reached allowed (.down ⟨[], []⟩ [] [])
  | step {m m' : Machine B} {event : Event} (before : Reached allowed m) (may : allowed m event)
      (step : Step crc32c m event m') : Reached allowed m'

variable {crc32c} in
/-- What every allowed step preserves holds of every machine reached. -/
theorem Reached.invariant {allowed : Machine B → Event → Prop} {Inv : Machine B → Prop}
    (initial : Inv (.down ⟨[], []⟩ [] []))
    (preserved : ∀ m event m', Inv m → allowed m event → Step crc32c m event m' → Inv m')
    {m : Machine B} (reached : Reached crc32c allowed m) : Inv m := by
  induction reached with
  | start => exact initial
  | step _ may step ih => exact preserved _ _ _ ih may step

end Crc

end OneLink.ChunkStore
