/-
# ChunkStore.Calls — what each call of a store can do

One lemma a call, with every way it can end: it answers, it raises with the logs
as they were, or its I/O stops it in the middle of a log.  `Stored` is the store
whose chunk log has a given shape and whose memtable knows the places there.
-/
import OneLink.ChunkStore.Machine

namespace OneLink.ChunkStore

open Library
open OneLink.Wal (WalError Io Log LogM LogKind Place Shape Interrupted Residue Recovered Opening
  recordsOf replayLogDir)

set_option autoImplicit false

variable {B : BloomFilter} {α : Type}

theorem onChunkLog_run {store : ChunkStore B} {m : LogM α} {inner : Exit WalError α} {log : Log}
    (ran : m store.chunkLog = (inner, log)) :
    onChunkLog m store = (inner.wrap .wal, { store with chunkLog := log }) :=
  Faulty.onPart_run ran

theorem onManifestLog_run {store : ChunkStore B} {m : LogM α} {inner : Exit WalError α} {log : Log}
    (ran : m store.manifestLog = (inner, log)) :
    onManifestLog m store = (inner.wrap .wal, { store with manifestLog := log }) :=
  Faulty.onPart_run ran

theorem checkOpen_closed {store : ChunkStore B} (closed : store.closed = true) :
    checkOpen store = (.raised .closed, store) := by
  rw [checkOpen, Faulty.read_bind, if_pos closed]
  rfl

theorem checkOpen_open {store : ChunkStore B} (opened : ¬ store.closed = true) :
    checkOpen store = (.returned (), store) := by
  rw [checkOpen, Faulty.read_bind, if_neg opened]
  rfl

section Crc

variable (crc32c : Bytes → UInt32)

/-- The chunk log of the store has this shape, and its memtable knows the places. -/
structure Stored (store : ChunkStore B) (s : Shape) : Prop where
  kind : s.kind = .chunkLog
  log : store.chunkLog = s.log crc32c
  chunks : ∀ p ∈ s.places, IsChunk p.record
  indexes : Indexes store.memtable s.places

variable {crc32c} {store store' : ChunkStore B} {s : Shape}

theorem Stored.flushed (stored : Stored crc32c store s) :
    Stored crc32c { store with chunkLog := s.flush.log crc32c } s.flush where
  kind := stored.kind
  log := rfl
  chunks := by
    rw [Wal.places_flush]
    exact stored.chunks
  indexes := by
    rw [Wal.places_flush]
    exact stored.indexes

theorem Stored.settled (stored : Stored crc32c store s) {log : Log}
    (kept : log = s.log crc32c ∨ log = s.flush.log crc32c) :
    Stored crc32c { store with chunkLog := log } s ∨
      Stored crc32c { store with chunkLog := log } s.flush := by
  obtain rfl | rfl := kept
  · exact .inl ⟨stored.kind, rfl, stored.chunks, stored.indexes⟩
  · exact .inr stored.flushed

theorem Stored.push (stored : Stored crc32c store s) {record : ChunkRecord} (valid : record.Valid)
    (anchor : UInt64) :
    Stored crc32c
      { store with
        chunkLog := ((s.room crc32c record.wal).push record.wal valid.fits).log crc32c
        memtable := store.memtable.insert record.chunkId
          (locationOf record ((s.room crc32c record.wal).tip crc32c).fileId
            ((s.room crc32c record.wal).tip crc32c).offset (UInt32.ofNat record.ciphertext.length))
        lastChunkLogAnchor := anchor }
      ((s.room crc32c record.wal).push record.wal valid.fits) where
  kind := by rw [Wal.push_kind, Wal.room_kind, stored.kind]
  log := rfl
  chunks := by
    intro p member
    rw [Wal.places_push crc32c, Wal.places_room, List.mem_append, List.mem_singleton] at member
    obtain old | rfl := member
    · exact stored.chunks p old
    · exact ⟨record, valid, rfl⟩
  indexes := by
    rw [Wal.places_push crc32c, Wal.places_room]
    exact stored.indexes.push valid _

/-! ## Appending -/

theorem appendChunk_cases {record : ChunkRecord} {io : Io} {exit : Exit ChunkStoreError Nat}
    (stored : Stored crc32c store s)
    (ran : ChunkStore.appendChunk crc32c record io store = (exit, store')) :
    (store' = store ∧ ∃ err, exit = .raised err) ∨
      (∃ log s', (s' = s ∨ s' = s.flush) ∧ Interrupted crc32c s' log ∧
        store' = { store with chunkLog := log } ∧
        (exit = .crashed ∨ (∃ err, exit = .raised err) ∧
          (io.Clean → log = s.log crc32c ∨ log = s.flush.log crc32c))) ∨
      ∃ valid : record.Valid, ∃ anchor,
        store' = { store with
          chunkLog := ((s.room crc32c record.wal).push record.wal valid.fits).log crc32c
          memtable := store.memtable.insert record.chunkId
            (locationOf record ((s.room crc32c record.wal).tip crc32c).fileId
              ((s.room crc32c record.wal).tip crc32c).offset
              (UInt32.ofNat record.ciphertext.length))
          lastChunkLogAnchor := anchor } ∧
        ((∃ offset, exit = .returned offset ∧
            encodeChunkLogAnchor ((s.room crc32c record.wal).tip crc32c).fileId
              ((s.room crc32c record.wal).tip crc32c).offset = .ok anchor) ∨
          (∃ err, exit = .raised err) ∧ anchor = store.lastChunkLogAnchor) := by
  rw [ChunkStore.appendChunk] at ran
  by_cases closed : store.closed = true
  · rw [Faulty.bind_raised (checkOpen_closed closed), Prod.mk.injEq] at ran
    exact .inl ⟨ran.2.symm, _, ran.1.symm⟩
  · rw [Faulty.bind_returned (checkOpen_open closed)] at ran
    cases checked : record.validate with
    | error err =>
      rw [checked, Faulty.ofExcept_error, Faulty.raise_bind, Prod.mk.injEq] at ran
      exact .inl ⟨ran.2.symm, _, ran.1.symm⟩
    | ok _ =>
      have valid : record.Valid := checked
      have small : record.ciphertext.length ≤ u32Max := by
        have bound := valid.ciphertext
        simp only [maxChunkCiphertextLen, Wal.maxPayloadLen, chunkRecordHeaderLen] at bound
        simp only [u32Max]
        omega
      have length := @indexLength_eq_ok record 0 _ |>.mpr ⟨small, rfl⟩
      have encoded : record.encode = .ok record.wal := by
        rw [ChunkRecord.encode, checked]
        rfl
      rw [checked, Faulty.ofExcept_ok, Faulty.pure_bind_run, length, Faulty.ofExcept_ok,
        Faulty.pure_bind_run, encoded, Faulty.ofExcept_ok, Faulty.pure_bind_run] at ran
      obtain ⟨oversized, _⟩ | ⟨_, appended⟩ | ⟨log, exit, interrupted, stopped, cut⟩ :=
        @Wal.append_shape crc32c s record.wal io
      · exact absurd valid.fits oversized
      · rw [← stored.log] at appended
        rw [Faulty.bind_returned (onChunkLog_run appended), Faulty.modify_bind] at ran
        refine .inr (.inr ⟨valid, ?_⟩)
        cases encoded : encodeChunkLogAnchor ((s.room crc32c record.wal).tip crc32c).fileId
            ((s.room crc32c record.wal).tip crc32c).offset with
        | error err =>
          rw [ChunkLocation.manifestAnchor, locationOf, encoded, Faulty.ofExcept_error,
            Faulty.raise_bind, Prod.mk.injEq] at ran
          exact ⟨_, ran.2.symm, .inr ⟨⟨_, ran.1.symm⟩, rfl⟩⟩
        | ok anchor =>
          rw [ChunkLocation.manifestAnchor, locationOf, encoded, Faulty.ofExcept_ok,
            Faulty.pure_bind_run, Faulty.modify_bind, Faulty.run_pure, Prod.mk.injEq] at ran
          exact ⟨anchor, ran.2.symm, .inl ⟨_, ran.1.symm, rfl⟩⟩
      · right
        left
        rw [← stored.log] at cut
        obtain ⟨s', which, interrupted⟩ : ∃ s', (s' = s ∨ s' = s.flush) ∧
            Interrupted crc32c s' log :=
          interrupted.elim (fun early => ⟨s, .inl rfl, early⟩)
            fun late => ⟨s.flush, .inr rfl, late⟩
        refine ⟨log, s', which, interrupted, ?_⟩
        obtain rfl | ⟨_, rfl⟩ := stopped
        · rw [Faulty.bind_crashed (onChunkLog_run cut), Prod.mk.injEq] at ran
          exact ⟨ran.2.symm, .inl ran.1.symm⟩
        · rw [Faulty.bind_raised (onChunkLog_run cut), Prod.mk.injEq] at ran
          rw [stored.log] at cut
          exact ⟨ran.2.symm, .inr ⟨⟨_, ran.1.symm⟩, fun clean => Wal.append_clean clean cut⟩⟩

theorem appendManifest_cases {record : ManifestRecord} {io : Io} {exit : Exit ChunkStoreError Unit}
    (ran : ChunkStore.appendManifest crc32c record io store = (exit, store')) :
    (store' = store ∧ ∃ err, exit = .raised err) ∨
      (store.anchored record).Valid ∧
        ∃ inner log, Wal.append crc32c (store.anchored record).wal io store.manifestLog =
          (inner, log) ∧ store' = { store with manifestLog := log } ∧
          ((∃ position, inner = .returned position ∧ exit = .returned ()) ∨
            (∃ err, inner = .raised err ∧ exit = .raised (.wal err)) ∨
            inner = .crashed ∧ exit = .crashed) := by
  rw [ChunkStore.appendManifest] at ran
  by_cases closed : store.closed = true
  · rw [Faulty.bind_raised (checkOpen_closed closed), Prod.mk.injEq] at ran
    exact .inl ⟨ran.2.symm, _, ran.1.symm⟩
  rw [Faulty.bind_returned (checkOpen_open closed), Faulty.read_bind] at ran
  cases checked : (store.anchored record).validate with
  | error err =>
    rw [ManifestRecord.encode, checked, error_bind, Faulty.ofExcept_error, Faulty.raise_bind,
      Prod.mk.injEq] at ran
    exact .inl ⟨ran.2.symm, _, ran.1.symm⟩
  | ok _ =>
    have encoded : (store.anchored record).encode = .ok (store.anchored record).wal := by
      rw [ManifestRecord.encode, checked]
      rfl
    rw [encoded, Faulty.ofExcept_ok, Faulty.pure_bind_run] at ran
    refine .inr ⟨checked, ?_⟩
    cases appended : Wal.append crc32c (store.anchored record).wal io store.manifestLog with
    | mk inner log =>
      refine ⟨inner, log, rfl, ?_⟩
      cases inner with
      | returned position =>
        rw [Faulty.bind_returned (onManifestLog_run appended), Faulty.run_pure,
          Prod.mk.injEq] at ran
        exact ⟨ran.2.symm, .inl ⟨_, rfl, ran.1.symm⟩⟩
      | raised err =>
        rw [Faulty.bind_raised (onManifestLog_run appended), Prod.mk.injEq] at ran
        exact ⟨ran.2.symm, .inr (.inl ⟨_, rfl, ran.1.symm⟩)⟩
      | crashed =>
        rw [Faulty.bind_crashed (onManifestLog_run appended), Prod.mk.injEq] at ran
        exact ⟨ran.2.symm, .inr (.inr ⟨rfl, ran.1.symm⟩)⟩

/-! ## Flushing, closing and dropping -/

theorem flush_cases {chunkIo manifestIo : Io} {exit : Exit ChunkStoreError Unit}
    (stored : Stored crc32c store s)
    (ran : ChunkStore.flush chunkIo manifestIo store = (exit, store')) :
    (store.closed = true ∧ store' = store ∧ ∃ err, exit = .raised err) ∨
      (∃ log, Interrupted crc32c s log ∧ store' = { store with chunkLog := log } ∧
        (exit = .crashed ∨ (∃ err, exit = .raised err) ∧ chunkIo.Faulty ∧
          (chunkIo.Clean → log = s.log crc32c))) ∨
      ∃ inner log, Wal.flush manifestIo store.manifestLog = (inner, log) ∧
        store' = { store with chunkLog := s.flush.log crc32c, manifestLog := log } ∧
        exit = inner.wrap .wal := by
  rw [ChunkStore.flush] at ran
  by_cases closed : store.closed = true
  · rw [Faulty.bind_raised (checkOpen_closed closed), Prod.mk.injEq] at ran
    exact .inl ⟨closed, ran.2.symm, _, ran.1.symm⟩
  rw [Faulty.bind_returned (checkOpen_open closed)] at ran
  right
  obtain flushed | ⟨part, isPrefix, inner, stopped, cut⟩ := @Wal.flush_shape crc32c s chunkIo
  · right
    rw [← stored.log] at flushed
    rw [Faulty.bind_returned (onChunkLog_run flushed)] at ran
    obtain ⟨inner, log, second, rfl, rfl⟩ := Faulty.onPart_inv ran
    exact ⟨inner, log, second, rfl, rfl⟩
  · left
    refine ⟨_, .inBatch isPrefix, ?_⟩
    have cutThere := cut
    rw [← stored.log] at cut
    obtain rfl | ⟨faulty, rfl⟩ := stopped
    · rw [Faulty.bind_crashed (onChunkLog_run cut), Prod.mk.injEq] at ran
      rw [stored.log] at ran
      exact ⟨ran.2.symm, .inl ran.1.symm⟩
    · rw [Faulty.bind_raised (onChunkLog_run cut), Prod.mk.injEq] at ran
      rw [stored.log] at ran
      exact ⟨ran.2.symm, .inr ⟨⟨_, ran.1.symm⟩, faulty, fun clean => Wal.flush_clean clean cutThere⟩⟩

theorem dropWal_cases {io : Io} {exit : Exit WalError Unit} {log : Log}
    (ran : Wal.dropWal io (s.log crc32c) = (exit, log)) :
    exit = .returned () ∧ log = s.flush.log crc32c ∨
      Interrupted crc32c s log ∧ (exit = .crashed ∨
        exit = .returned () ∧ io.Faulty ∧ (io.Clean → log = s.log crc32c)) := by
  rw [Wal.dropWal] at ran
  obtain flushed | ⟨part, isPrefix, inner, stopped, cut⟩ := @Wal.flush_shape crc32c s io
  · rw [flushed, Prod.mk.injEq] at ran
    exact .inl ⟨ran.1.symm, ran.2.symm⟩
  · right
    have cutThere := cut
    obtain rfl | ⟨faulty, rfl⟩ := stopped
    · rw [cut, Prod.mk.injEq] at ran
      exact ⟨ran.2 ▸ .inBatch isPrefix, .inl ran.1.symm⟩
    · rw [cut, Prod.mk.injEq] at ran
      rw [ran.2] at cutThere
      exact ⟨ran.2 ▸ .inBatch isPrefix, .inr ⟨ran.1.symm, faulty, fun clean =>
        Wal.flush_clean clean cutThere⟩⟩

/-- The flush that `Drop` begins with is over, whatever came of it. -/
def FlushTried (flushIo : Io × Io) (store store' : ChunkStore B) : Prop :=
  store.closed = true ∧ store' = store ∨
    ∃ exit, ChunkStore.flush flushIo.1 flushIo.2 store = (exit, store') ∧ exit ≠ .crashed

theorem drop_cases {flushIo : Io × Io} {chunkIo manifestIo : Io}
    {exit : Exit ChunkStoreError Unit}
    (ran : ChunkStore.drop flushIo chunkIo manifestIo store = (exit, store')) :
    (exit = .crashed ∧ ChunkStore.flush flushIo.1 flushIo.2 store = (.crashed, store')) ∨
      ∃ store₁, FlushTried flushIo store store₁ ∧
        ∃ inner chunkLog, Wal.dropWal chunkIo store₁.chunkLog = (inner, chunkLog) ∧
          (inner = .crashed ∧ exit = .crashed ∧ store' = { store₁ with chunkLog } ∨
            inner = .returned () ∧ ∃ last manifestLog,
              Wal.dropWal manifestIo store₁.manifestLog = (last, manifestLog) ∧
              store' = { store₁ with chunkLog, manifestLog } ∧ exit = last.wrap .wal) := by
  rw [ChunkStore.drop, Faulty.read_bind] at ran
  have writers {store₁ : ChunkStore B} (tried : FlushTried flushIo store store₁)
      (ran : (onChunkLog (Wal.dropWal chunkIo) >>= fun _ =>
        onManifestLog (Wal.dropWal manifestIo)) store₁ = (exit, store')) :
      ∃ store₁, FlushTried flushIo store store₁ ∧
        ∃ inner chunkLog, Wal.dropWal chunkIo store₁.chunkLog = (inner, chunkLog) ∧
          (inner = .crashed ∧ exit = .crashed ∧ store' = { store₁ with chunkLog } ∨
            inner = .returned () ∧ ∃ last manifestLog,
              Wal.dropWal manifestIo store₁.manifestLog = (last, manifestLog) ∧
              store' = { store₁ with chunkLog, manifestLog } ∧ exit = last.wrap .wal) := by
    refine ⟨store₁, tried, ?_⟩
    cases chunk : Wal.dropWal chunkIo store₁.chunkLog with
    | mk inner chunkLog =>
      refine ⟨inner, chunkLog, rfl, ?_⟩
      cases inner with
      | returned a =>
        rw [Faulty.bind_returned (onChunkLog_run chunk)] at ran
        obtain ⟨last, manifestLog, second, rfl, rfl⟩ := Faulty.onPart_inv ran
        exact .inr ⟨rfl, last, manifestLog, second, rfl, rfl⟩
      | crashed =>
        rw [Faulty.bind_crashed (onChunkLog_run chunk), Prod.mk.injEq] at ran
        exact .inl ⟨rfl, ran.1.symm, ran.2.symm⟩
      | raised err =>
        -- the error of a writer's own flush is swallowed
        rw [Wal.dropWal] at chunk
        cases flushed : Wal.flush chunkIo store₁.chunkLog with
        | mk exit log =>
          rw [flushed] at chunk
          cases exit <;> cases chunk
  by_cases closed : store.closed = true
  · rw [if_pos closed] at ran
    exact .inr (writers (.inl ⟨closed, rfl⟩) ran)
  · rw [if_neg closed] at ran
    cases flushed : ChunkStore.flush flushIo.1 flushIo.2 store with
    | mk first store₁ =>
      cases first with
      | crashed =>
        have ignored : ChunkStore.ignoring (ChunkStore.flush flushIo.1 flushIo.2) store =
            (.crashed, store₁) := by rw [ChunkStore.ignoring, flushed]
        rw [Faulty.bind_crashed ignored, Prod.mk.injEq] at ran
        exact .inl ⟨ran.1.symm, by rw [ran.2]⟩
      | returned a =>
        have ignored : ChunkStore.ignoring (ChunkStore.flush flushIo.1 flushIo.2) store =
            (.returned (), store₁) := by rw [ChunkStore.ignoring, flushed]
        rw [Faulty.bind_returned ignored] at ran
        exact .inr (writers (.inr ⟨_, flushed, by simp⟩) ran)
      | raised err =>
        have ignored : ChunkStore.ignoring (ChunkStore.flush flushIo.1 flushIo.2) store =
            (.returned (), store₁) := by rw [ChunkStore.ignoring, flushed]
        rw [Faulty.bind_returned ignored] at ran
        exact .inr (writers (.inr ⟨_, flushed, by simp⟩) ran)

/-! ## Opening -/

theorem replayOp_inv {kind : LogKind} {disk left : Disk} {exit : Exit WalError Wal.ReplayOutcome}
    (ran : replayOp crc32c kind disk = (exit, left)) :
    ∃ result, replayLogDir crc32c disk kind = (result, left) ∧
      ∀ outcome, exit = .returned outcome → result = .ok outcome := by
  rw [replayOp] at ran
  cases replayed : replayLogDir crc32c disk kind with
  | mk result after =>
    rw [replayed] at ran
    cases result <;> obtain ⟨rfl, rfl⟩ := Prod.mk.inj ran <;> exact ⟨_, rfl, by simp⟩

theorem Exit.wrap_returned {δ ε α : Type} {wrap : δ → ε} {inner : Exit δ α} {a : α}
    (returned : Exit.returned a = inner.wrap wrap) : inner = .returned a := by
  cases inner <;> cases returned
  rfl

/-- What an opening that succeeds has found, log by log. -/
structure Opened (crc32c : Bytes → UInt32) (chunkIo manifestIo : Io) (disks : Disks)
    (store : ChunkStore B) : Prop where
  chunk : ∃ outcome left wal, replayLogDir crc32c disks.chunk .chunkLog = (.ok outcome, left) ∧
    Wal.Wal.open .chunkLog chunkIo left = (.returned wal, store.chunkLog.disk) ∧
    store.chunkLog = ⟨store.chunkLog.disk, wal, outcome.records, []⟩ ∧
    ∃ index : RecoveredChunkIndex B,
      rebuildChunkIndex crc32c left outcome.records.length = .ok index ∧
      store.memtable = index.memtable ∧ store.lastChunkLogAnchor = index.lastAnchor ∧
      ∃ manifests mleft mwal,
        replayLogDir crc32c disks.manifest .manifestLog = (.ok manifests, mleft) ∧
        Wal.Wal.open .manifestLog manifestIo mleft = (.returned mwal, store.manifestLog.disk) ∧
        store.manifestLog = ⟨store.manifestLog.disk, mwal, manifests.records, []⟩ ∧
        store.stats.orphanedManifestRecords = manifests.records.length -
          manifests.records.countP (acceptsManifest index.coordinates)

/-- How an opening can end: with a store, or somewhere on the way through the two
logs. -/
theorem open_cases {chunkIo manifestIo : Io} {disks disks' : Disks}
    {exit : Exit ChunkStoreError (ChunkStore B)}
    (ran : ChunkStore.open crc32c B chunkIo manifestIo disks = (exit, disks')) :
    (∃ cutChunk cutManifest,
      Opening crc32c .chunkLog chunkIo disks.chunk cutChunk disks'.chunk ∧
      Opening crc32c .manifestLog manifestIo disks.manifest cutManifest disks'.manifest ∧
      (exit ≠ .crashed → cutChunk = false ∧ cutManifest = false)) ∧
    ∀ store, exit = .returned store →
      Opened crc32c chunkIo manifestIo disks store ∧ disks' = store.disks := by
  rw [ChunkStore.open] at ran
  obtain ⟨chunkReplay, _, first, ran⟩ | ⟨err, first, rfl⟩ | ⟨first, rfl⟩ := Faulty.bind_inv ran
  rotate_left
  · obtain ⟨inner, left, replayed, rfl, _⟩ := Faulty.onPart_inv first
    obtain ⟨result, chunk, _⟩ := replayOp_inv replayed
    exact ⟨⟨false, false, .replayed chunk, .untouched, fun _ => ⟨rfl, rfl⟩⟩, by simp⟩
  · obtain ⟨inner, left, replayed, rfl, _⟩ := Faulty.onPart_inv first
    obtain ⟨result, chunk, _⟩ := replayOp_inv replayed
    exact ⟨⟨false, false, .replayed chunk, .untouched, fun _ => ⟨rfl, rfl⟩⟩, by simp⟩
  obtain ⟨inner, left, replayed, rfl, returned⟩ := Faulty.onPart_inv first
  obtain ⟨result, chunk, same⟩ := replayOp_inv replayed
  obtain rfl := same _ (Exit.wrap_returned returned)
  rw [Faulty.read_bind] at ran
  cases rebuilt : (rebuildChunkIndex crc32c left chunkReplay.records.length :
      Except ChunkStoreError (RecoveredChunkIndex B)) with
  | error err =>
    rw [rebuilt, Faulty.ofExcept_error, Faulty.raise_bind, Prod.mk.injEq] at ran
    obtain ⟨rfl, rfl⟩ := ran
    exact ⟨⟨false, false, .replayed chunk, .untouched, fun _ => ⟨rfl, rfl⟩⟩, by simp⟩
  | ok index =>
  rw [rebuilt, Faulty.ofExcept_ok, Faulty.pure_bind_run] at ran
  obtain ⟨manifests, _, second, ran⟩ | ⟨err, second, rfl⟩ | ⟨second, rfl⟩ := Faulty.bind_inv ran
  rotate_left
  · obtain ⟨inner, mleft, replayed, rfl, _⟩ := Faulty.onPart_inv second
    obtain ⟨result, manifest, _⟩ := replayOp_inv replayed
    exact ⟨⟨false, false, .replayed chunk, .replayed manifest, fun _ => ⟨rfl, rfl⟩⟩, by simp⟩
  · obtain ⟨inner, mleft, replayed, rfl, _⟩ := Faulty.onPart_inv second
    obtain ⟨result, manifest, _⟩ := replayOp_inv replayed
    exact ⟨⟨false, false, .replayed chunk, .replayed manifest, fun _ => ⟨rfl, rfl⟩⟩, by simp⟩
  obtain ⟨inner, mleft, replayed, rfl, returned⟩ := Faulty.onPart_inv second
  obtain ⟨result, manifest, same⟩ := replayOp_inv replayed
  obtain rfl := same _ (Exit.wrap_returned returned)
  obtain ⟨wal, _, third, ran⟩ | ⟨err, third, rfl⟩ | ⟨third, rfl⟩ := Faulty.bind_inv ran
  rotate_left
  · obtain ⟨inner, after, opened, rfl, raised⟩ := Faulty.onPart_inv third
    refine ⟨⟨_, false, .writer chunk opened, .replayed manifest, fun _ => ⟨?_, rfl⟩⟩, by simp⟩
    cases inner <;> cases raised
    rfl
  · obtain ⟨inner, after, opened, rfl, crashed⟩ := Faulty.onPart_inv third
    exact ⟨⟨_, false, .writer chunk opened, .replayed manifest, by simp⟩, by simp⟩
  obtain ⟨inner, after, opened, rfl, returned⟩ := Faulty.onPart_inv third
  obtain rfl := Exit.wrap_returned returned
  obtain ⟨mwal, _, fourth, ran⟩ | ⟨err, fourth, rfl⟩ | ⟨fourth, rfl⟩ := Faulty.bind_inv ran
  rotate_left
  · obtain ⟨inner, last, mopened, rfl, raised⟩ := Faulty.onPart_inv fourth
    refine ⟨⟨_, _, .writer chunk opened, .writer manifest mopened, fun _ => ⟨rfl, ?_⟩⟩, by simp⟩
    cases inner <;> cases raised
    rfl
  · obtain ⟨inner, last, mopened, rfl, crashed⟩ := Faulty.onPart_inv fourth
    exact ⟨⟨_, _, .writer chunk opened, .writer manifest mopened, by simp⟩, by simp⟩
  obtain ⟨inner, last, mopened, rfl, returned⟩ := Faulty.onPart_inv fourth
  obtain rfl := Exit.wrap_returned returned
  rw [Faulty.read_bind, Faulty.run_pure, Prod.mk.injEq] at ran
  obtain ⟨rfl, rfl⟩ := ran
  refine ⟨⟨_, _, .writer chunk opened, .writer manifest mopened, fun _ => ⟨rfl, rfl⟩⟩, ?_⟩
  rintro store ⟨⟩
  exact ⟨⟨_, _, _, chunk, opened, rfl, index, rebuilt, rfl, rfl, _, _, _, manifest, mopened, rfl,
    rfl⟩, rfl⟩

end Crc

end OneLink.ChunkStore
