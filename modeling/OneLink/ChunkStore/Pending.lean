/-
# ChunkStore.Pending — the index runs ahead of the disk

An appended chunk is indexed at once, but its bytes wait in the writer's batch for
the next flush or rotation, and reading looks only at the disk.  So an indexed
chunk can be read exactly when no record of the batch carries its id
(`readable_iff_not_pending`); an older copy on disk does not help, because the
index already points behind it.
-/
import OneLink.ChunkStore.Reads

namespace OneLink.ChunkStore

open Library
open OneLink.Wal (Io Place Shape image recordsOf places placesFrom fileHeader fileHeaderLen)

set_option autoImplicit false

variable {B : BloomFilter} {crc32c : Bytes → UInt32}

theorem lastPlace_append (id : ChunkId) (ps qs : List Place) :
    lastPlace id (ps ++ qs) = (lastPlace id qs).or (lastPlace id ps) := by
  rw [lastPlace, lastPlace, lastPlace, List.reverse_append, List.find?_append]

/-- The places of the batch follow those of the files. -/
theorem places_batch (crc32c : Bytes → UInt32) (s : Shape) :
    s.places = places s.files ++ placesFrom s.active
      (fileHeaderLen + (frames (Wal.Record.bytes crc32c) s.records).length) s.batch := by
  have batched := Wal.placesFrom_append crc32c s.active fileHeaderLen s.records s.batch
  simp only [Shape.places, Shape.files, places, List.flatMap_append, List.flatMap_cons,
    List.flatMap_nil, List.append_nil, batched, List.append_assoc]

/-- At a place of the batch the active file has ended. -/
theorem readFile_batch (s : Shape) {p : Place} {total : Nat} (positive : 0 < total)
    (waits : p ∈ placesFrom s.active
      (fileHeaderLen + (frames (Wal.Record.bytes crc32c) s.records).length) s.batch) :
    ChunkStore.readFile (image crc32c s.kind s.files) p.position.fileId p.position.offset total =
      .error .io := by
  obtain ⟨file, early, late, -, offset⟩ := Wal.mem_placesFrom crc32c waits
  have active : (s.active, s.records) ∈ s.files := by simp [Shape.files]
  have found := @Wal.find_image crc32c s.kind s.files s.ascending _ active
  have ended : ¬ p.position.offset + total ≤
      (fileHeader s.kind ++ frames (Wal.Record.bytes crc32c) s.records ++ []).length := by
    rw [List.append_nil, List.length_append, Wal.length_fileHeader, offset]
    omega
  rw [ChunkStore.readFile, file, found]
  exact if_neg ended

section Stored

variable {store : ChunkStore B} {s : Shape} {id : ChunkId}

/-- A chunk with a record in the batch cannot be read. -/
theorem Stored.unreadable (stored : Stored crc32c store s) {r : Wal.Record} (waits : r ∈ s.batch)
    (carrier : carries id r = true) : store.readChunk crc32c id = .error .io := by
  have disk : store.chunkLog.disk = image crc32c s.kind s.files := by
    rw [stored.log]
    exact Wal.diskWith_nil s
  let batch := placesFrom s.active
    (fileHeaderLen + (frames (Wal.Record.bytes crc32c) s.records).length) s.batch
  have some : (lastPlace id batch).isSome := by
    have inBatch : r ∈ batch.map Place.record := by
      rw [Wal.placesFrom_records]
      exact waits
    obtain ⟨q, member, rfl⟩ := List.mem_map.mp inBatch
    exact List.find?_isSome.mpr ⟨q, List.mem_reverse.mpr member, carrier⟩
  obtain ⟨p, lies⟩ := Option.isSome_iff_exists.mp some
  have waits : p ∈ batch := List.mem_reverse.mp (List.mem_of_find?_eq_some lies)
  obtain ⟨c, valid, record⟩ := stored.chunks p (by
    rw [places_batch crc32c s]
    exact List.mem_append_right _ waits)
  have indexed := stored.indexes id
  rw [places_batch crc32c s, lastPlace_append, lies, Option.some_or, Option.bind_some,
    placeLocation, record, chunkOf_wal valid, Option.map_some] at indexed
  have short := @readFile_batch crc32c s p
    (Wal.recordHeaderLen + chunkRecordHeaderLen + (UInt32.ofNat c.ciphertext.length).toNat +
      Wal.recordTrailerLen) (by simp only [Wal.recordHeaderLen]; omega) waits
  unfold ChunkStore.readChunk
  rw [indexed, disk]
  simp only [locationOf, short, error_bind]

/-- A chunk without one is read back from its last place on disk. -/
theorem Stored.readable (stored : Stored crc32c store s)
    (settled : ∀ r ∈ s.batch, carries id r = false) {p : Place}
    (lies : lastPlace id s.places = some p) {c : ChunkRecord} (valid : c.Valid)
    (record : p.record = c.wal) : store.readChunk crc32c id = .ok c := by
  have disk : store.chunkLog.disk = image crc32c .chunkLog s.files := by
    rw [stored.log, ← stored.kind]
    exact Wal.diskWith_nil s
  have indexed := stored.indexes id
  rw [lies, Option.bind_some, placeLocation, record, chunkOf_wal valid, Option.map_some] at indexed
  have none : lastPlace id (placesFrom s.active
      (fileHeaderLen + (frames (Wal.Record.bytes crc32c) s.records).length) s.batch) = none := by
    refine List.find?_eq_none.mpr ?_
    intro q member carrier
    have waits := List.mem_map_of_mem (f := Place.record) (List.mem_reverse.mp member)
    rw [Wal.placesFrom_records] at waits
    rw [settled q.record waits] at carrier
    cases carrier
  rw [places_batch crc32c s, lastPlace_append, none, Option.none_or] at lies
  have member : p ∈ places s.files := List.mem_reverse.mp (List.mem_of_find?_eq_some lies)
  exact readChunk_place s.ascending disk member valid record indexed

end Stored

/-- **An indexed chunk is readable exactly when no waiting record carries its id.**
This holds at every moment of every run in which a failing write to the chunk log
leaves nothing behind. -/
theorem readable_iff_not_pending {store : ChunkStore B}
    (reached : Reached crc32c (fun _ event => event.ChunkClean) (.up store)) (id : ChunkId)
    (indexed : store.hasChunk id = true) :
    ∃ c, (lastCarrying id store.stored).bind chunkOf = some c ∧
      (store.readChunk crc32c id = .ok c ↔ ∀ r ∈ store.chunkLog.batch, carries id r = false) := by
  obtain ⟨s, stored⟩ := reached_sound reached
  have all : store.stored = s.places.map Place.record := by
    rw [ChunkStore.stored, stored.log, places_map_record]
    rfl
  have batch : store.chunkLog.batch = s.batch := by
    rw [stored.log]
    rfl
  rw [ChunkStore.hasChunk, Memtable.contains_eq, stored.indexes id] at indexed
  cases lies : lastPlace id s.places with
  | none =>
    rw [lies] at indexed
    cases indexed
  | some p =>
    have member : p ∈ s.places := List.mem_reverse.mp (List.mem_of_find?_eq_some lies)
    obtain ⟨c, valid, record⟩ := stored.chunks p member
    refine ⟨c, ?_, ?_⟩
    · rw [all, ← lastPlace_record, lies, Option.map_some, Option.bind_some, record,
        chunkOf_wal valid]
    · rw [batch]
      constructor
      · intro read r waits
        by_contra carrier
        rw [Bool.not_eq_false] at carrier
        rw [stored.unreadable waits carrier] at read
        cases read
      · intro settled
        exact stored.readable settled lies valid record

/-- A chunk that was just appended is there, but cannot be read. -/
theorem appended_chunk_unreadable :
    ∃ store : ChunkStore exactFilter,
      Reached Library.crc32c (fun _ event => event.ChunkClean) (.up store) ∧
        store.hasChunk sampleChunk.chunkId = true ∧
        store.readChunk Library.crc32c sampleChunk.chunkId = .error .io := by
  have clean : ({} : Io).Clean := Wal.Io.clean_of_working (by decide)
  have fresh := @Reached.step exactFilter Library.crc32c (fun _ event => event.ChunkClean) _ _
    (.reopen {} {}) .start clean (.opened rfl)
  have full := @Reached.step exactFilter Library.crc32c (fun _ event => event.ChunkClean) _ _
    (.call (.appendChunk sampleChunk {})) fresh clean (.answered rfl (fun same => nomatch same))
  exact ⟨_, full, by decide +kernel, by decide +kernel⟩

/-- After a flush it can. -/
theorem readable_iff_not_pending_flushed :
    ∃ store : ChunkStore exactFilter, store.chunkLog.batch = [] ∧
      ∃ c, (lastCarrying sampleChunk.chunkId store.stored).bind chunkOf = some c ∧
        (store.readChunk Library.crc32c sampleChunk.chunkId = .ok c ↔
          ∀ r ∈ store.chunkLog.batch, carries sampleChunk.chunkId r = false) := by
  have clean : ({} : Io).Clean := Wal.Io.clean_of_working (by decide)
  have fresh := @Reached.step exactFilter Library.crc32c (fun _ event => event.ChunkClean) _ _
    (.reopen {} {}) .start clean (.opened rfl)
  have full := @Reached.step exactFilter Library.crc32c (fun _ event => event.ChunkClean) _ _
    (.call (.appendChunk sampleChunk {})) fresh clean (.answered rfl (fun same => nomatch same))
  have flushed := @Reached.step exactFilter Library.crc32c (fun _ event => event.ChunkClean) _ _
    (.call (.flush {} {})) full clean (.answered rfl (fun same => nomatch same))
  exact ⟨_, rfl, readable_iff_not_pending flushed sampleChunk.chunkId (by decide +kernel)⟩

end OneLink.ChunkStore
