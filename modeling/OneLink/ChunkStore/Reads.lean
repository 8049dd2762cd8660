/-
# ChunkStore.Reads — the store reads what its log holds

A running store keeps `Stored`: its chunk log is a log of chunk records and the
memtable knows their places.  Every call keeps it unless the call is cut off, and
opening rebuilds it from whatever a crash has left.  So right after a flush or an
opening `hasChunk` and `readChunk` answer by the records that lie in the log
(`reads_whlieswas_stored`).
-/
import OneLink.ChunkStore.Calls

namespace OneLink.ChunkStore

open Library
open OneLink.Wal (WalError Io Log Place Shape Interrupted Residue Recovered Ascending image recordsOf
  places replayLogDir recordHeaderLen recordTrailerLen crcValid parseHeader)

set_option autoImplicit false
set_option linter.dupNamespace false

/-- The last record that carries the id. -/
def lastCarrying (id : ChunkId) (records : List Wal.Record) : Option Wal.Record :=
  records.reverse.find? (carries id)

theorem lastPlace_record (id : ChunkId) (ps : List Place) :
    (lastPlace id ps).map Place.record = lastCarrying id (ps.map Place.record) := by
  rw [lastCarrying, lastPlace, ← List.map_reverse, List.find?_map]
  rfl

theorem lastCarrying_isSome {id : ChunkId} {records : List Wal.Record} :
    (lastCarrying id records).isSome ↔ ∃ r ∈ records, carries id r = true := by
  simp [lastCarrying, List.find?_isSome]

variable {B : BloomFilter}

section Crc

variable (crc32c : Bytes → UInt32)

/-- The store answers by these records, and they are what replay finds on its disk. -/
structure AnswersBy (store : ChunkStore B) (records : List Wal.Record) : Prop where
  replayed : ∃ outcome, replayLogDir crc32c store.chunkLog.disk .chunkLog =
    (.ok outcome, store.chunkLog.disk) ∧ outcome.records = records
  has : ∀ id, store.hasChunk id = true ↔ ∃ r ∈ records, carries id r = true
  reads : ∀ id r, lastCarrying id records = some r →
    ∃ c, chunkOf r = some c ∧ store.readChunk crc32c id = .ok c

/-! ## Reading at a place -/

variable {crc32c}

theorem readFile_place {files : List (Nat × List Wal.Record)} (ascending : Ascending files)
    {p : Place} (member : p ∈ places files) {total : Nat} (whole : total = p.record.onDiskLen) :
    ChunkStore.readFile (image crc32c .chunkLog files) p.position.fileId p.position.offset total =
      .ok (p.record.bytes crc32c) := by
  obtain ⟨f, found, rest, here⟩ := @Wal.contents_place crc32c .chunkLog _ ascending _ member
  have length := congrArg List.length here
  rw [List.length_drop, List.length_append, Wal.length_bytes] at length
  have positive : 0 < p.record.onDiskLen := by
    rw [← Wal.length_bytes crc32c]
    exact List.length_pos_of_ne_nil (Wal.bytes_ne_nil crc32c _)
  rw [ChunkStore.readFile, found]
  dsimp only
  rw [if_pos (by omega), here, whole, List.take_left' (Wal.length_bytes crc32c _)]

theorem indexed_length {c : ChunkRecord} (valid : c.Valid) :
    recordHeaderLen + chunkRecordHeaderLen + (UInt32.ofNat c.ciphertext.length).toNat +
      recordTrailerLen = c.wal.onDiskLen := by
  have small := valid.ciphertext
  simp only [maxChunkCiphertextLen, Wal.maxPayloadLen, chunkRecordHeaderLen] at small
  have value : (UInt32.ofNat c.ciphertext.length).toNat = c.ciphertext.length := by
    rw [UInt32.toNat_ofNat']
    omega
  simp only [value, Wal.Record.onDiskLen, ChunkRecord.wal, ChunkRecord.length_payload, Nat.add_assoc]

/-- A chunk whose last place is indexed is read back from there. -/
theorem readChunk_place {store : ChunkStore B} {files : List (Nat × List Wal.Record)}
    (ascending : Ascending files) (disk : store.chunkLog.disk = image crc32c .chunkLog files)
    {id : ChunkId} {p : Place} (member : p ∈ places files) {c : ChunkRecord} (valid : c.Valid)
    (record : p.record = c.wal)
    (indexed : store.memtable.get id = some (locationOf c p.position.fileId p.position.offset
      (UInt32.ofNat c.ciphertext.length))) :
    store.readChunk crc32c id = .ok c := by
  have buffer := @readFile_place crc32c _ ascending _ member _
    ((indexed_length valid).trans (congrArg Wal.Record.onDiskLen record.symm))
  have header := Wal.parseHeader_bytes crc32c valid.fits [] p.position.offset
  have payload := (Wal.record_read crc32c c.wal []).2.2
  rw [List.append_nil] at header payload
  have decoded : relocated p.position.offset
      (ChunkRecord.decode c.wal.kind c.wal.flags c.wal.payload) = .ok c := by
    rw [ChunkRecord.decode_encode valid]
    rfl
  rw [record] at buffer
  unfold ChunkStore.readChunk
  rw [indexed, disk]
  simp only [locationOf, buffer, ok_bind, require_of (Wal.crcValid_bytes crc32c c.wal), header,
    liftWal]
  rw [require_of (by rw [Wal.length_bytes]; rfl), ok_bind, payload, decoded]

/-- An index of the places of a disk answers by the records there. -/
theorem answersBy_image {store : ChunkStore B} {files : List (Nat × List Wal.Record)}
    (ascending : Ascending files) (disk : store.chunkLog.disk = image crc32c .chunkLog files)
    (chunks : ∀ r ∈ recordsOf files, IsChunk r) (indexes : Indexes store.memtable (places files)) :
    AnswersBy crc32c store (recordsOf files) := by
  have fits : ∀ r ∈ recordsOf files, r.Fits := by
    intro r member
    obtain ⟨c, valid, rfl⟩ := chunks r member
    exact valid.fits
  have last (id : ChunkId) : (lastPlace id (places files)).map Place.record =
      lastCarrying id (recordsOf files) := by
    rw [lastPlace_record, Wal.places_records]
  have found {id : ChunkId} {p : Place} (lies : lastPlace id (places files) = some p) :
      p ∈ places files ∧ ∃ c : ChunkRecord, c.Valid ∧ p.record = c.wal := by
    have member : p ∈ places files := List.mem_reverse.mp (List.mem_of_find?_eq_some lies)
    refine ⟨member, chunks p.record ?_⟩
    rw [← Wal.places_records]
    exact List.mem_map_of_mem member
  refine ⟨?_, fun id => ?_, fun id r carrier => ?_⟩
  · rw [disk]
    exact ⟨_, Wal.replayLogDir_image crc32c .chunkLog ascending fits, rfl⟩
  · rw [← lastCarrying_isSome, ← last, Option.isSome_map, ChunkStore.hasChunk,
      Memtable.contains_eq, indexes id]
    cases lies : lastPlace id (places files) with
    | none => simp
    | some p =>
      obtain ⟨_, c, valid, record⟩ := found lies
      simp [placeLocation, record, chunkOf_wal valid]
  · rw [← last, Option.map_eq_some_iff] at carrier
    obtain ⟨p, lies, rfl⟩ := carrier
    obtain ⟨member, c, valid, record⟩ := found lies
    refine ⟨c, by rw [record, chunkOf_wal valid], ?_⟩
    apply readChunk_place ascending disk member valid record
    rw [indexes id, lies, Option.bind_some, placeLocation, record, chunkOf_wal valid, Option.map_some]

/-! ## What the steps keep -/

theorem Stored.answers {store : ChunkStore B} {s : Shape} (stored : Stored crc32c store s)
    (flushed : s.batch = []) : AnswersBy crc32c store (recordsOf s.files) := by
  have disk : store.chunkLog.disk = image crc32c .chunkLog s.files := by
    rw [stored.log, ← stored.kind]
    exact Wal.diskWith_nil s
  have chunks : ∀ r ∈ recordsOf s.files, IsChunk r := by
    intro r member
    rw [← Wal.places_records, Shape.places_files flushed] at member
    obtain ⟨p, inPlaces, rfl⟩ := List.mem_map.mp member
    exact stored.chunks p inPlaces
  have indexes := stored.indexes
  rw [← Shape.places_files flushed] at indexes
  exact answersBy_image s.ascending disk chunks indexes

/-- The chunk log is where a call was cut off. -/
structure Torn (crc32c : Bytes → UInt32) (store : ChunkStore B) (s : Shape) : Prop where
  kind : s.kind = .chunkLog
  log : Interrupted crc32c s store.chunkLog
  chunks : ∀ p ∈ s.places, IsChunk p.record

theorem Stored.torn {store : ChunkStore B} {s : Shape} (stored : Stored crc32c store s) :
    Torn crc32c store s :=
  ⟨stored.kind, by rw [stored.log]; exact Wal.interrupted_log crc32c s, stored.chunks⟩

/-- A cut in the flushed log is one in the log of the same places. -/
theorem Stored.torn_of {store : ChunkStore B} {s s' : Shape} {log : Log}
    (stored : Stored crc32c store s) (which : s' = s ∨ s' = s.flush)
    (interrupted : Interrupted crc32c s' log) :
    Torn crc32c { store with chunkLog := log } s' := by
  obtain rfl | rfl := which
  · exact ⟨stored.kind, interrupted, stored.chunks⟩
  · exact ⟨stored.kind, interrupted, by rw [Wal.places_flush]; exact stored.chunks⟩

/-- The I/O calls on the chunk log leave nothing behind when they fail. -/
def Call.ChunkClean : Call → Prop
  | .appendChunk _ io => io.Clean
  | .appendManifest _ _ => True
  | .flush chunkIo _ => chunkIo.Clean
  | .close chunkIo _ => chunkIo.Clean

def Event.ChunkClean : Event → Prop
  | .call c => c.ChunkClean
  | .drop flushIo chunkIo _ => flushIo.1.Clean ∧ chunkIo.Clean
  | .reopen chunkIo _ => chunkIo.Clean
  | .crash => True

variable {store store' : ChunkStore B} {s : Shape} {exit : Exit ChunkStoreError Unit}

theorem flush_stored {chunkIo manifestIo : Io} (stored : Stored crc32c store s)
    (clean : chunkIo.Clean)
    (ran : ChunkStore.flush chunkIo manifestIo store = (exit, store')) :
    (∃ s', Stored crc32c store' s') ∨ exit = .crashed ∧ ∃ s', Torn crc32c store' s' := by
  obtain ⟨_, rfl, _⟩ | ⟨log, interrupted, rfl, ending⟩ | ⟨inner, log, _, rfl, _⟩ :=
    flush_cases stored ran
  · exact .inl ⟨s, stored⟩
  · obtain rfl | ⟨_, _, settled⟩ := ending
    · exact .inr ⟨rfl, s, stored.torn_of (.inl rfl) interrupted⟩
    · obtain kept | kept := stored.settled (.inl (settled clean))
      · exact .inl ⟨s, kept⟩
      · exact .inl ⟨s.flush, kept⟩
  · have flushed := stored.flushed
    exact .inl ⟨s.flush, flushed.kind, flushed.log, flushed.chunks, flushed.indexes⟩

theorem call_stored {call : Call} (stored : Stored crc32c store s) (clean : call.ChunkClean)
    (ran : call.perform crc32c store = (exit, store')) :
    (∃ s', Stored crc32c store' s') ∨ exit = .crashed ∧ ∃ s', Torn crc32c store' s' := by
  cases call with
  | appendChunk record io =>
    have ended : ∃ inner, ChunkStore.appendChunk crc32c record io store = (inner, store') ∧
        (inner = .crashed → exit = .crashed) := by
      obtain ⟨a, _, first, rest⟩ | ⟨err, first, _⟩ | ⟨first, crashed⟩ := Faulty.bind_inv ran
      · rw [Faulty.run_pure, Prod.mk.injEq] at rest
        exact ⟨_, rest.2 ▸ first, by simp⟩
      · exact ⟨_, first, by simp⟩
      · exact ⟨_, first, fun _ => crashed⟩
    obtain ⟨inner, appended, crashes⟩ := ended
    obtain ⟨rfl, _⟩ | ⟨log, s', which, interrupted, rfl, ending⟩ | ⟨valid, anchor, rfl, _⟩ :=
      appendChunk_cases stored appended
    · exact .inl ⟨s, stored⟩
    · obtain crashed | ⟨_, settled⟩ := ending
      · exact .inr ⟨crashes crashed, s', stored.torn_of which interrupted⟩
      · obtain kept | kept := stored.settled (settled clean)
        · exact .inl ⟨s, kept⟩
        · exact .inl ⟨s.flush, kept⟩
    · exact .inl ⟨_, stored.push valid anchor⟩
  | appendManifest record io =>
    obtain ⟨rfl, _⟩ | ⟨_, inner, log, _, rfl, _⟩ := appendManifest_cases ran
    · exact .inl ⟨s, stored⟩
    · exact .inl ⟨s, stored.kind, stored.log, stored.chunks, stored.indexes⟩
  | flush chunkIo manifestIo => exact flush_stored stored clean ran
  | close chunkIo manifestIo =>
    rw [Call.perform, ChunkStore.close, Faulty.read_bind] at ran
    by_cases closed : store.closed = true
    · rw [if_pos closed, Faulty.run_pure, Prod.mk.injEq] at ran
      exact .inl ⟨s, ran.2 ▸ stored⟩
    rw [if_neg closed] at ran
    obtain ⟨_, next, first, rest⟩ | ⟨err, first, _⟩ | ⟨first, rfl⟩ := Faulty.bind_inv ran
    · rw [Faulty.run_modify, Prod.mk.injEq] at rest
      obtain ⟨s', kept⟩ | ⟨crashed, _⟩ := flush_stored stored clean first
      · rw [← rest.2]
        exact .inl ⟨s', kept.kind, kept.log, kept.chunks, kept.indexes⟩
      · cases crashed
    · obtain kept | ⟨crashed, _⟩ := flush_stored stored clean first
      · exact .inl kept
      · cases crashed
    · exact flush_stored stored clean first

theorem drop_stored {flushIo : Io × Io} {chunkIo manifestIo : Io} (stored : Stored crc32c store s)
    (clean : flushIo.1.Clean ∧ chunkIo.Clean)
    (ran : ChunkStore.drop flushIo chunkIo manifestIo store = (exit, store')) :
    (∃ s', Stored crc32c store' s') ∨ exit = .crashed ∧ ∃ s', Torn crc32c store' s' := by
  obtain ⟨rfl, flushed⟩ | ⟨store₁, tried, inner, log, dropped, ending⟩ := drop_cases ran
  · exact flush_stored stored clean.1 flushed
  have before : ∃ s₁, Stored crc32c store₁ s₁ := by
    obtain ⟨_, rfl⟩ | ⟨first, flushed, going⟩ := tried
    · exact ⟨s, stored⟩
    · obtain kept | ⟨crashed, _⟩ := flush_stored stored clean.1 flushed
      · exact kept
      · exact absurd crashed going
  obtain ⟨s₁, kept⟩ := before
  rw [kept.log] at dropped
  obtain ⟨rfl, rfl⟩ | ⟨interrupted, cut⟩ := dropWal_cases dropped
  · obtain ⟨crashed, _⟩ | ⟨_, last, manifestLog, _, rfl, _⟩ := ending
    · cases crashed
    · have flushed := kept.flushed
      exact .inl ⟨_, flushed.kind, flushed.log, flushed.chunks, flushed.indexes⟩
  · obtain rfl | ⟨rfl, _, settled⟩ := cut
    · obtain ⟨_, rfl, rfl⟩ | ⟨returned, _⟩ := ending
      · exact .inr ⟨rfl, s₁, kept.torn_of (.inl rfl) interrupted⟩
      · cases returned
    · obtain ⟨crashed, _⟩ | ⟨_, last, manifestLog, _, rfl, _⟩ := ending
      · cases crashed
      · rw [settled clean.2]
        exact .inl ⟨s₁, kept.kind, rfl, kept.chunks, kept.indexes⟩

/-! ## Runs -/

variable (crc32c) in
/-- What every run keeps: a running store is `Stored`, and what a dead one left holds
the synced records and of the later ones the first. -/
def Sound : Machine B → Prop
  | .up store => ∃ s, Stored crc32c store s
  | .down disks flushed batch =>
    ∃ durable written, Residue crc32c .chunkLog disks.chunk durable written ∧
      flushed <+: durable.map Place.record ∧
      written.map Place.record <+: flushed ++ batch ∧ ∀ p ∈ written, IsChunk p.record

theorem places_map_record (s : Shape) : s.places.map Place.record = recordsOf s.files ++ s.batch := by
  rw [Shape.places, Wal.places_records, Shape.recordsOf_snoc, Shape.files, Shape.recordsOf_snoc,
    List.append_assoc]

theorem Interrupted.ghosts {log : Log} (interrupted : Interrupted crc32c s log) :
    log.flushed = recordsOf s.files ∧ log.batch = s.batch := by
  cases interrupted <;> exact ⟨rfl, rfl⟩

/-- A crash leaves a sound machine of a torn log. -/
theorem Torn.gone (torn : Torn crc32c store s) {left : Disks} (survive : store.disks.Survive left) :
    Sound crc32c (store.gone left) := by
  obtain ⟨flushed, batch⟩ := Interrupted.ghosts torn.log
  have residue := torn.log.residue survive.1
  rw [torn.kind] at residue
  refine ⟨_, _, residue, ?_, ?_, torn.chunks⟩
  · exact ⟨[], by rw [List.append_nil, flushed, Wal.places_records]⟩
  · exact ⟨[], by rw [List.append_nil, flushed, batch, places_map_record]⟩

/-- So does the orderly end of a process. -/
theorem Stored.gone (stored : Stored crc32c store s) : Sound crc32c (store.gone store.disks) := by
  have residue := @Residue.of_shape crc32c s
  rw [stored.kind] at residue
  refine ⟨Wal.places s.files, s.places, ?_, ?_, ?_, stored.chunks⟩
  · rw [ChunkStore.disks, stored.log]
    exact residue
  · rw [stored.log, Wal.places_records]
    exact List.prefix_rfl
  · rw [stored.log, places_map_record]
    exact List.prefix_rfl

/-- The index that is rebuilt from a recovered log knows what was found there. -/
theorem rebuild_recovered {left : Disk} {records : List Wal.Record} {found : List Place} {n : Nat}
    {index : RecoveredChunkIndex B} (recovered : Recovered crc32c .chunkLog left records found)
    (chunks : ∀ p ∈ found, IsChunk p.record)
    (rebuilt : rebuildChunkIndex crc32c left n = .ok index) : index.Knows found := by
  generalize sameLog : Wal.LogKind.chunkLog = kind at recovered
  cases recovered with
  | none => exact @rebuild_image B crc32c [] List.Pairwise.nil (by simp [recordsOf]) n index rebuilt
  | log s sameKind flushed =>
    have disk : s.diskWith crc32c [] = image crc32c .chunkLog s.files := by
      rw [sameLog, ← sameKind]
      exact Wal.diskWith_nil s
    rw [disk] at rebuilt
    have known := rebuild_image crc32c s.ascending (fun r member => by
      rw [← Wal.places_records] at member
      obtain ⟨p, inPlaces, rfl⟩ := List.mem_map.mp member
      exact chunks p (s.files_places.subset inPlaces)) rebuilt
    have same : places (s.sealedFiles ++ [(s.active, s.records)]) = s.places :=
      Shape.places_files flushed
    rwa [same] at known

theorem Opened.stored {chunkIo manifestIo : Io} {disks : Disks} {store : ChunkStore B}
    {durable written : List Place} (opened : Opened crc32c chunkIo manifestIo disks store)
    (residue : Residue crc32c .chunkLog disks.chunk durable written)
    (chunks : ∀ p ∈ written, IsChunk p.record) :
    ∃ s, Stored crc32c store s ∧ s.batch = [] ∧ durable <+: s.places ∧ s.places <+: written := by
  obtain ⟨outcome, left, wal, replayed, writer, log, index, rebuilt, memtable, _⟩ := opened.chunk
  obtain ⟨err, refused⟩ | ⟨outcome', left', found, ran, recovered, early, late⟩ := residue.replay
  · rw [refused] at replayed
    cases replayed
  rw [ran] at replayed
  obtain ⟨⟨⟩, rfl⟩ := Prod.mk.inj replayed
  obtain ⟨s, kind, flushed, records, rfl, done⟩ | ⟨inner, after, cut, stopped, _⟩ :=
    Wal.open_recovered recovered chunkIo
  · rw [done] at writer
    obtain ⟨⟨⟩, disk⟩ := Prod.mk.inj writer
    have known : ∀ p ∈ s.places, IsChunk p.record := fun p member => chunks p (late.subset member)
    have knows := rebuild_recovered recovered known rebuilt
    refine ⟨s, ⟨kind, ?_, known, ?_⟩, flushed, early, late⟩
    · rw [log, ← disk, ← records, Shape.log, flushed]
    · rw [memtable]
      exact knows.indexes
  · rw [cut] at writer
    obtain ⟨rfl, _⟩ := Prod.mk.inj writer
    obtain crashed | ⟨_, raised⟩ := stopped
    · cases crashed
    · cases raised

theorem step_sound {m m' : Machine B} {event : Event} (sound : Sound crc32c m)
    (clean : event.ChunkClean) (step : Step crc32c m event m') : Sound crc32c m' := by
  cases step with
  | answered ran going =>
    obtain ⟨s, stored⟩ := sound
    obtain kept | ⟨crashed, _⟩ := call_stored stored clean ran
    · exact kept
    · exact absurd crashed going
  | stopped ran survive =>
    obtain ⟨s, stored⟩ := sound
    obtain ⟨s', kept⟩ | ⟨_, s', torn⟩ := call_stored stored clean ran
    · exact kept.torn.gone survive
    · exact torn.gone survive
  | dropped ran =>
    obtain ⟨s, stored⟩ := sound
    obtain ⟨s', kept⟩ | ⟨crashed, _⟩ := drop_stored stored clean ran
    · exact kept.gone
    · cases crashed
  | dropStopped ran survive =>
    obtain ⟨s, stored⟩ := sound
    obtain ⟨s', kept⟩ | ⟨_, s', torn⟩ := drop_stored stored clean ran
    · exact kept.torn.gone survive
    · exact torn.gone survive
  | crashed survive =>
    obtain ⟨s, stored⟩ := sound
    exact stored.torn.gone survive
  | opened ran =>
    obtain ⟨durable, written, residue, _, _, chunks⟩ := sound
    obtain ⟨s, stored, _⟩ := ((open_cases ran).2 _ rfl).1.stored residue chunks
    exact ⟨s, stored⟩
  | refused ran =>
    obtain ⟨durable, written, residue, early, late, chunks⟩ := sound
    obtain ⟨cut, _, opening, _, going⟩ := (open_cases ran).1
    obtain ⟨durable', written', more, less, _, settled⟩ := opening.residue residue
    exact ⟨durable', written', settled clean (going (by simp)).1, early.trans (more.map _),
      (less.map _).trans late, fun p member => chunks p (less.subset member)⟩
  | openStopped ran survive =>
    obtain ⟨durable, written, residue, early, late, chunks⟩ := sound
    obtain ⟨cut, _, opening, _, _⟩ := (open_cases ran).1
    obtain ⟨durable', written', more, less, survivors, _⟩ := opening.residue residue
    exact ⟨durable', written', survivors _ survive.1, early.trans (more.map _),
      (less.map _).trans late, fun p member => chunks p (less.subset member)⟩
  | crashedAgain survive =>
    obtain ⟨durable, written, residue, rest⟩ := sound
    rw [← residue.survivor survive.1] at residue
    exact ⟨durable, written, residue, rest⟩

theorem reached_sound {m : Machine B}
    (reached : Reached crc32c (fun _ event => event.ChunkClean) m) : Sound crc32c m := by
  refine reached.invariant ?_ fun m event m' sound clean step => step_sound sound clean step
  exact ⟨[], [], .empty, List.prefix_rfl, List.prefix_rfl, by simp⟩

/-! ## What is read -/

/-- The chunk records that are flushed or wait for a flush. -/
def ChunkStore.stored (store : ChunkStore B) : List Wal.Record :=
  store.chunkLog.flushed ++ store.chunkLog.batch

variable (crc32c) in
/-- Appending adds the record to those stored; after a flush the store answers by all
of them, and after an opening by those that survived. -/
def ReadsStored : Machine B → Prop
  | .up store =>
    (∀ record io offset store',
      ChunkStore.appendChunk crc32c record io store = (.returned offset, store') →
      store'.stored = store.stored ++ [record.wal] ∧ chunkOf record.wal = some record) ∧
    ∀ chunkIo manifestIo store',
      ChunkStore.flush chunkIo manifestIo store = (.returned (), store') →
      AnswersBy crc32c store' store.stored
  | .down disks flushed batch =>
    ∀ chunkIo manifestIo store disks',
      ChunkStore.open crc32c B chunkIo manifestIo disks = (.returned store, disks') →
      ∃ survivors, flushed <+: survivors ∧ survivors <+: flushed ++ batch ∧
        store.stored = survivors ∧ AnswersBy crc32c store survivors

/-- Whatever sequence of calls, closes, crashes and reopenings came before: a chunk
is there exactly if a surviving record carries its id, and what is read is the last
such record. -/
theorem reads_what_was_stored {m : Machine B}
    (reached : Reached crc32c (fun _ event => event.ChunkClean) m) : ReadsStored crc32c m := by
  have sound := reached_sound reached
  cases m with
  | up store =>
    obtain ⟨s, stored⟩ := sound
    have all : store.stored = recordsOf s.files ++ s.batch := by
      rw [ChunkStore.stored, stored.log]
      rfl
    constructor
    · intro record io offset store' ran
      obtain ⟨_, _, raised⟩ | ⟨_, _, _, _, _, crashed | ⟨⟨_, raised⟩, _⟩⟩ |
        ⟨valid, anchor, rfl, _⟩ := appendChunk_cases stored ran
      · cases raised
      · cases crashed
      · cases raised
      · refine ⟨?_, chunkOf_wal valid⟩
        rw [all, ← places_map_record, ChunkStore.stored]
        show recordsOf ((s.room crc32c record.wal).push record.wal valid.fits).files ++
          ((s.room crc32c record.wal).push record.wal valid.fits).batch = _
        rw [← places_map_record, Wal.places_push crc32c, Wal.places_room, List.map_append]
        rfl
    · intro chunkIo manifestIo store' ran
      obtain ⟨_, _, _, raised⟩ | ⟨_, _, _, crashed | ⟨⟨_, raised⟩, _⟩⟩ | ⟨inner, log, _, rfl, _⟩ :=
        flush_cases stored ran
      · cases raised
      · cases crashed
      · cases raised
      · have flushed := stored.flushed
        have kept : Stored crc32c
            { store with chunkLog := s.flush.log crc32c, manifestLog := log } s.flush :=
          ⟨flushed.kind, flushed.log, flushed.chunks, flushed.indexes⟩
        have answers := kept.answers rfl
        rw [← Wal.places_records, Shape.places_files rfl, Wal.places_flush, places_map_record,
          ← all] at answers
        exact answers
  | down disks flushed batch =>
    intro chunkIo manifestIo store disks' ran
    obtain ⟨durable, written, residue, early, late, chunks⟩ := sound
    obtain ⟨s, stored, none, more, less⟩ := ((open_cases ran).2 _ rfl).1.stored residue chunks
    have records : recordsOf s.files = s.places.map Place.record := by
      rw [places_map_record, none, List.append_nil]
    refine ⟨recordsOf s.files, ?_, ?_, ?_, stored.answers none⟩
    · rw [records]
      exact early.trans (more.map _)
    · rw [records]
      exact (less.map _).trans late
    · rw [ChunkStore.stored, stored.log, Shape.log, none, List.append_nil]

end Crc

/-- A filter without false positives. -/
def exactFilter : BloomFilter where
  Filter := List ChunkId
  make _ := some []
  set filter id := id :: filter
  check filter id := id ∈ filter
  check_set := by simp
  check_keeps := by simp +contextual

/-- A chunk of no bytes. -/
def sampleChunk : ChunkRecord where
  kind := .tombstoneRef
  addressKind := .raw
  aeadKind := .aesGcm256
  compressed := false
  formatAware := false
  lengthPlaintext := 0
  chunkId := filled 32 7
  ratchetKeyId := filled 16 0
  stripeDescriptor := .standalone
  ciphertext := []

/-- A store opened on empty directories, and one chunk appended. -/
theorem reads_what_was_stored_one :
    ∃ store : ChunkStore exactFilter, store.stored = [sampleChunk.wal] ∧
      ReadsStored crc32c (.up store) := by
  have clean : ({} : Io).Clean := Io.clean_of_working (by decide)
  have fresh := @Reached.step exactFilter crc32c (fun _ event => event.ChunkClean) _ _
    (.reopen {} {}) .start clean (.opened rfl)
  have full := @Reached.step exactFilter crc32c (fun _ event => event.ChunkClean) _ _
    (.call (.appendChunk sampleChunk {})) fresh clean (.answered rfl (fun same => nomatch same))
  exact ⟨_, rfl, reads_what_was_stored full⟩

end OneLink.ChunkStore
