/-
# Wal.FlushFailure — a flush that fails after some of its bytes

After a failed flush the batch stays pending and the next flush writes it again,
but behind whatever the failed one has left in the file: the writer never looks
back.  `flush_retry_iff` says that this is right exactly when no failed flush of
the run wrote a byte.

The argument counts.  `Steady` keeps how many bytes stand on disk beyond headers
and flushed records; a failed flush adds what it wrote and nothing ever takes it
away.  A replay that returns the flushed records and cuts nothing accounts for
every byte, so there must be no excess.
-/
import OneLink.Library.Run
import OneLink.Wal.Recovery

namespace OneLink.Wal

open Library

set_option autoImplicit false

/-- Nothing crashes, and only the I/O calls of a flush may fail. -/
def Io.OnlyFlushFails (io : Io) : Prop :=
  (∀ n, io.write ≠ .crashes n) ∧ (∀ n, io.sync ≠ .crashes n) ∧
    io.create = .done ∧ io.header = .done ∧ io.headerSync = .done

/-- The bytes that a flush with this I/O leaves in the file when it fails. -/
def flushLeftover (wal : Wal) (io : Io) : Nat :=
  match io.write with
  | .fails n => min n wal.pending.length
  | .crashes n => min n wal.pending.length
  | .done => if io.sync = .done then 0 else wal.pending.length

/-- The bytes that a failed flush of this operation leaves in the file. -/
def leftover (log : Log) : Op × Io → Nat
  | (.append r, io) =>
    if r.Fits ∧ log.wal.fileSize + log.wal.pending.length + r.onDiskLen > rotationSize then
      flushLeftover log.wal io
    else 0
  | (_, io) => flushLeftover log.wal io

/-- All bytes on disk. -/
def held (disk : Disk) : Nat := (disk.map fun f => f.contents.length).sum

theorem held_append (early late : Disk) : held (early ++ late) = held early + held late := by
  simp [held]

theorem held_singleton (f : DiskFile) : held [f] = f.contents.length := by simp [held]

section Crc

variable (crc32c : Bytes → UInt32)

def Op.step (log : Log) (p : Op × Io) : Log := (p.1.perform crc32c p.2 log).2

/-! ## Replay accounts for every byte -/

variable {crc32c} in
theorem replayFile_accounts {path : Nat} {file : Bytes} {kind : LogKind} {allow : Bool}
    {outcome : ReplayOutcome} {finalLen : Nat}
    (replayed : replayLogFileWithPolicy crc32c path file kind allow = .ok (outcome, finalLen))
    (uncut : outcome.truncated = []) :
    file.length = fileHeaderLen + (frames (Record.bytes crc32c) outcome.records).length := by
  simp only [replayLogFileWithPolicy, bind_eq_ok, require_eq_ok, exists_const, pure_eq_ok_iff]
    at replayed
  obtain ⟨long, _, _, rfl, scan, scanned, done⟩ := replayed
  cases cut : scan.truncatedAt with
  | some position =>
    simp only [Scan.outcome, cut, Prod.mk.injEq] at done
    rw [← done.1] at uncut
    cases uncut
  | none =>
    simp only [Scan.outcome, cut, Prod.mk.injEq] at done
    have accounted := scan_accounts crc32c _ _ _ scanned cut
    rw [List.length_drop] at accounted
    rw [← done.1]
    dsimp only
    omega

theorem replayFiles_accounts {kind : LogKind} {files : List DiskFile} {disk left : Disk}
    {combined outcome : ReplayOutcome}
    (replayed : replayFiles crc32c kind files disk combined = (.ok outcome, left))
    (uncut : outcome.truncated = []) :
    combined.truncated = [] ∧
      (frames (Record.bytes crc32c) outcome.records).length + fileHeaderLen * files.length =
        (frames (Record.bytes crc32c) combined.records).length +
          (files.map fun f => f.contents.length).sum := by
  induction files generalizing disk combined with
  | nil =>
    simp only [replayFiles, Prod.mk.injEq, Except.ok.injEq] at replayed
    obtain ⟨rfl, rfl⟩ := replayed
    simp [uncut]
  | cons f files ih =>
    rw [replayFiles] at replayed
    cases file : replayLogFileWithPolicy crc32c f.id f.contents kind files.isEmpty with
    | error err => simp [file] at replayed
    | ok result =>
      obtain ⟨own, finalLen⟩ := result
      rw [file] at replayed
      obtain ⟨none, accounted⟩ := ih replayed
      obtain ⟨before, ownUncut⟩ := List.append_eq_nil_iff.mp none
      have ownAccounted := replayFile_accounts file ownUncut
      refine ⟨before, ?_⟩
      simp only [ReplayOutcome.extend, frames_append, List.length_append] at accounted
      simp only [List.length_cons, List.map_cons, List.sum_cons, ownAccounted]
      rw [Nat.mul_add]
      omega

/-- A replay that cuts nothing has read every byte as header or record. -/
theorem replayLogDir_accounts {kind : LogKind} {disk left : Disk} {outcome : ReplayOutcome}
    (replayed : replayLogDir crc32c disk kind = (.ok outcome, left))
    (uncut : outcome.truncated = []) :
    held disk =
      fileHeaderLen * disk.length + (frames (Record.bytes crc32c) outcome.records).length := by
  have accounted := (replayFiles_accounts crc32c replayed uncut).2
  have perm : (sortedLogFiles disk).Perm disk := List.perm_insertionSort _ _
  rw [perm.length_eq, (perm.map _).sum_nat] at accounted
  simp only [frames_nil, List.length_nil, Nat.zero_add] at accounted
  unfold held
  omega

/-! ## What failed flushes leave stays -/

/-- The writer is at the end of the newest file, and beyond headers and flushed
records there are this many bytes on disk. -/
structure Steady (log : Log) (excess : Nat) : Prop where
  newest : ∃ before last, log.disk = before ++ [last] ∧ last.id = log.wal.fileId ∧
    ∀ f ∈ before, f.id < log.wal.fileId
  pending : log.wal.pending = frames (Record.bytes crc32c) log.batch
  balance : held log.disk = fileHeaderLen * log.disk.length +
    (frames (Record.bytes crc32c) log.flushed).length + excess

variable {crc32c} {log : Log} {excess : Nat} {io : Io}

theorem Steady.modify (steady : Steady crc32c log excess) (change : DiskFile → DiskFile)
    (keeps : ∀ f, (change f).id = f.id) {more : Nat}
    (grows : ∀ f, (change f).contents.length = f.contents.length + more) :
    Steady crc32c { log with disk := log.disk.modifyFile log.wal.fileId change } (excess + more) := by
  obtain ⟨before, last, disk, active, older⟩ := steady.newest
  have changed : log.disk.modifyFile log.wal.fileId change = before ++ [change last] := by
    rw [disk]
    exact Disk.modifyFile_append (fun f member => Nat.ne_of_lt (older f member)) active
  refine ⟨⟨before, change last, changed, by rw [keeps, active], older⟩, steady.pending, ?_⟩
  have balance := steady.balance
  rw [disk, held_append, held_singleton] at balance
  simp only [changed, held_append, held_singleton, grows, List.length_append,
    List.length_singleton] at balance ⊢
  omega

theorem contents_write (bytes : Bytes) (f : DiskFile) :
    (f.write bytes).contents.length = f.contents.length + bytes.length := by
  simp [DiskFile.write, DiskFile.contents, Nat.add_assoc]

theorem flush_steady (steady : Steady crc32c log excess) (only : io.OnlyFlushFails) :
    ∃ log', Steady crc32c log' (excess + flushLeftover log.wal io) ∧
      log'.wal.kind = log.wal.kind ∧
      (flush io log = (.returned (), log') ∧ flushLeftover log.wal io = 0 ∨
        flush io log = (.raised .io, log')) := by
  rw [flush, Faulty.read_bind]
  by_cases none : log.wal.pending = []
  · have nothing : flushLeftover log.wal io = 0 := by
      rw [flushLeftover, none]
      cases io.write <;> simp
    rw [if_pos none]
    exact ⟨log, by simpa [nothing] using steady, rfl, .inl ⟨rfl, nothing⟩⟩
  rw [if_neg none]
  cases write : io.write with
  | crashes n => exact absurd write (only.1 n)
  | fails n =>
    have torn := steady.modify (·.write (log.wal.pending.take n)) (fun _ => rfl)
      (contents_write _)
    have left : flushLeftover log.wal io = (log.wal.pending.take n).length := by
      rw [flushLeftover, write, List.length_take]
    have wrote : writeAll WalError.io log.wal.fileId (.fails n) log.wal.pending log.disk =
      (.raised .io, log.disk.modifyFile log.wal.fileId (·.write (log.wal.pending.take n))) := rfl
    rw [left]
    exact ⟨_, torn, rfl, .inr (Faulty.bind_raised (onDisk_raised wrote))⟩
  | done =>
    have written := steady.modify (·.write log.wal.pending) (fun _ => rfl) (contents_write _)
    have wrote : writeAll WalError.io log.wal.fileId .done log.wal.pending log.disk =
      (.returned (), log.disk.modifyFile log.wal.fileId (·.write log.wal.pending)) := rfl
    generalize log.disk.modifyFile log.wal.fileId (·.write log.wal.pending) = disk at written wrote
    rw [Faulty.bind_returned (onDisk_returned wrote)]
    cases sync : io.sync with
    | crashes n => exact absurd sync (only.2.1 n)
    | fails n =>
      have left : flushLeftover log.wal io = log.wal.pending.length := by
        simp [flushLeftover, write, sync]
      have unsynced : syncData WalError.io log.wal.fileId (.fails n) disk =
        (.raised .io, disk) := rfl
      rw [left]
      exact ⟨_, written, rfl, .inr (Faulty.bind_raised (onDisk_raised unsynced))⟩
    | done =>
      have nothing : flushLeftover log.wal io = 0 := by
        simp [flushLeftover, write, sync]
      have same (f : DiskFile) : f.sync.contents.length = f.contents.length + 0 := by
        simp [DiskFile.sync, DiskFile.contents]
      have synced := written.modify (·.sync) (fun _ => rfl) same
      have done : syncData WalError.io log.wal.fileId .done disk =
        (.returned (), disk.modifyFile log.wal.fileId (·.sync)) := rfl
      have balance := synced.balance
      rw [nothing, Faulty.bind_returned (onDisk_returned done), Faulty.run_modify]
      refine ⟨⟨disk.modifyFile log.wal.fileId (·.sync),
        ⟨log.wal.kind, log.wal.fileId, log.wal.fileSize + log.wal.pending.length, []⟩,
        log.flushed ++ log.batch, []⟩, ⟨synced.newest, rfl, ?_⟩, rfl, .inl ⟨rfl, rfl⟩⟩
      dsimp only at balance ⊢
      rw [frames_append, List.length_append, ← steady.pending]
      omega

theorem createFile_steady (steady : Steady crc32c log excess) (only : io.OnlyFlushFails) :
    ∃ disk, createFile log.wal.kind (log.wal.fileId + 1) io log.disk = (.returned (), disk) ∧
      Steady crc32c { log with
        disk
        wal := { log.wal with fileId := log.wal.fileId + 1, fileSize := fileHeaderLen } } excess := by
  obtain ⟨before, last, disk, active, older⟩ := steady.newest
  obtain ⟨_, _, create, header, headerSync⟩ := only
  have ids : ∀ f ∈ log.disk, f.id < log.wal.fileId + 1 := by
    intro f member
    rw [disk] at member
    obtain old | new := List.mem_append.mp member
    · exact Nat.lt_succ_of_lt (older f old)
    · rw [List.mem_singleton.mp new, active]
      exact Nat.lt_succ_self _
  have fresh : ¬ ∃ f ∈ log.disk, f.id = log.wal.fileId + 1 :=
    fun ⟨f, member, same⟩ => Nat.ne_of_lt (ids f member) same
  have others : ∀ f ∈ log.disk, f.id ≠ log.wal.fileId + 1 :=
    fun f member => Nat.ne_of_lt (ids f member)
  have made : createNew WalError.io (log.wal.fileId + 1) io.create log.disk =
      (.returned (), log.disk ++ [⟨log.wal.fileId + 1, [], []⟩]) := by
    simp only [createNew, create, if_neg fresh]
  refine ⟨log.disk ++ [⟨log.wal.fileId + 1, fileHeader log.wal.kind, []⟩], ?_, ?_⟩
  · rw [createFile, Faulty.bind_returned made, header]
    have wrote : writeAll WalError.io (log.wal.fileId + 1) .done (fileHeader log.wal.kind)
        (log.disk ++ [⟨log.wal.fileId + 1, [], []⟩]) =
        (.returned (), log.disk ++ [⟨log.wal.fileId + 1, [], fileHeader log.wal.kind⟩]) := by
      simp only [writeAll, Disk.modifyFile_append others]
      rfl
    rw [Faulty.bind_returned wrote, headerSync]
    simp only [syncData, Disk.modifyFile_append others]
    rfl
  · refine ⟨⟨log.disk, _, rfl, rfl, ids⟩, steady.pending, ?_⟩
    have balance := steady.balance
    have header := length_fileHeader log.wal.kind
    simp only [held_append, held_singleton, DiskFile.contents, List.append_nil,
      List.length_append, List.length_singleton, header, Nat.mul_add, Nat.mul_one]
    omega

/-- What an operation comes to: it returns or raises, and what its failed flush has
left in the file stays there. -/
theorem rotate_steady (steady : Steady crc32c log excess) (only : io.OnlyFlushFails) :
    ∃ log', Steady crc32c log' (excess + flushLeftover log.wal io) ∧
      (rotate io log = (.returned (), log') ∨ rotate io log = (.raised .io, log')) := by
  obtain ⟨log', settled, _, ⟨ran, nothing⟩ | ran⟩ := flush_steady steady only
  · obtain ⟨disk, made, settled'⟩ := createFile_steady settled only
    refine ⟨_, settled', .inl ?_⟩
    rw [rotate, Faulty.bind_returned ran, Faulty.read_bind,
      Faulty.bind_returned (onDisk_returned made), Faulty.run_modify]
  · exact ⟨log', settled, .inr (Faulty.bind_raised ran)⟩

theorem reserve_steady (steady : Steady crc32c log excess) (r : Record) :
    ∃ log' position, Steady crc32c log' excess ∧
      reserve r (r.bytes crc32c) log = (.returned position, log') := by
  refine ⟨⟨log.disk, { log.wal with pending := log.wal.pending ++ r.bytes crc32c }, log.flushed,
    log.batch ++ [r]⟩, _, ⟨steady.newest, ?_, steady.balance⟩, rfl⟩
  simp only [frames_append, frames_cons, frames_nil, List.append_nil, steady.pending]

theorem step_steady (steady : Steady crc32c log excess) {p : Op × Io}
    (only : p.2.OnlyFlushFails) :
    Steady crc32c (Op.step crc32c log p) (excess + leftover log p) := by
  obtain ⟨op, io⟩ := p
  cases op with
  | flush =>
    obtain ⟨log', settled, _, ⟨ran, _⟩ | ran⟩ := flush_steady steady only <;>
    · rw [Op.step, Op.perform, ran]
      exact settled
  | rotate =>
    obtain ⟨log', settled, ran | ran⟩ := rotate_steady steady only <;>
    · rw [Op.step, Op.perform, ran]
      exact settled
  | append r =>
    by_cases fits : r.Fits
    · have ran := @append_fits crc32c _ fits io log
      by_cases rotates :
          log.wal.fileSize + log.wal.pending.length + r.onDiskLen > rotationSize
      · rw [if_pos rotates] at ran
        rw [leftover, if_pos ⟨fits, rotates⟩]
        obtain ⟨log', settled, rotated | failed⟩ := rotate_steady steady only
        · obtain ⟨log'', position, settled', reserved⟩ := reserve_steady settled r
          rw [Faulty.bind_returned rotated, reserved] at ran
          rw [Op.step, Op.perform, Faulty.bind_returned ran]
          exact settled'
        · rw [Faulty.bind_raised failed] at ran
          rw [Op.step, Op.perform, Faulty.bind_raised ran]
          exact settled
      · rw [if_neg rotates] at ran
        obtain ⟨log', position, settled, reserved⟩ := reserve_steady steady r
        rw [reserved] at ran
        rw [Op.step, Op.perform, Faulty.bind_returned ran, leftover,
          if_neg fun both => rotates both.2]
        exact settled
    · rw [Op.step, Op.perform, Faulty.bind_raised (append_oversized fits io log), leftover,
        if_neg fun both => fits both.1]
      exact steady

/-! ## Without leftovers the log stays in order -/

theorem held_image (kind : LogKind) (files : List (Nat × List Record)) :
    held (image crc32c kind files) =
      fileHeaderLen * files.length + (frames (Record.bytes crc32c) (recordsOf files)).length := by
  induction files with
  | nil => rfl
  | cons f files ih =>
    have split : image crc32c kind (f :: files) =
        [⟨f.1, fileHeader kind ++ frames (Record.bytes crc32c) f.2, []⟩] ++
          image crc32c kind files := rfl
    rw [split, held_append, held_singleton, ih]
    simp [DiskFile.contents, recordsOf, Nat.mul_add]
    omega

theorem held_diskWith (s : Shape) (part : Bytes) :
    held (s.diskWith crc32c part) = held (s.diskWith crc32c []) + part.length := by
  simp [Shape.diskWith, held_append, held_singleton, DiskFile.contents, Nat.add_assoc]

theorem steady_shape (s : Shape) : Steady crc32c (s.log crc32c) 0 := by
  refine ⟨⟨_, _, rfl, rfl, fun f member => ?_⟩, rfl, ?_⟩
  · obtain ⟨g, older, rfl⟩ := List.mem_map.mp member
    exact s.older older
  · show held (s.diskWith crc32c []) = fileHeaderLen * (s.diskWith crc32c []).length +
      (frames (Record.bytes crc32c) (recordsOf s.files)).length + 0
    rw [diskWith_nil, held_image]
    simp [image]

theorem flush_settled (s : Shape) (only : io.OnlyFlushFails)
    (nothing : flushLeftover (s.wal crc32c) io = 0) :
    flush io (s.log crc32c) = (.returned (), s.flush.log crc32c) ∨
      flush io (s.log crc32c) = (.raised .io, s.log crc32c) := by
  obtain done | ⟨part, _, exit, stopped, ran⟩ := @flush_shape crc32c s io
  · exact .inl done
  right
  obtain ⟨log', settled, _, outcome⟩ := flush_steady (steady_shape s) only
  have same : log' = { s.log crc32c with disk := s.diskWith crc32c part } := by
    obtain ⟨returned, _⟩ | raised := outcome
    · exact congrArg Prod.snd (returned.symm.trans ran)
    · exact congrArg Prod.snd (raised.symm.trans ran)
  have none : part = [] := by
    have before := (@steady_shape crc32c s).balance
    have after := settled.balance
    have length : (s.diskWith crc32c part).length = (s.diskWith crc32c []).length := by
      simp [Shape.diskWith]
    rw [show flushLeftover (s.log crc32c).wal io = 0 from nothing, same] at after
    simp only [Shape.log, held_diskWith s part, length] at before after
    rw [← List.length_eq_zero_iff]
    omega
  rw [none] at ran
  obtain rfl | ⟨_, rfl⟩ := stopped
  · obtain ⟨returned, _⟩ | raised := outcome
    · cases returned.symm.trans ran
    · cases raised.symm.trans ran
  · exact ran

theorem rotate_settled (s : Shape) (only : io.OnlyFlushFails)
    (nothing : flushLeftover (s.wal crc32c) io = 0) :
    rotate io (s.log crc32c) = (.returned (), s.rotate.log crc32c) ∨
      rotate io (s.log crc32c) = (.raised .io, s.log crc32c) := by
  obtain flushed | failed := flush_settled s only nothing
  · obtain rotated | ⟨log, exit, _, stopped, ran⟩ := @rotate_shape crc32c s io
    · exact .inl rotated
    · -- the flush went through, and nothing else may fail
      obtain ⟨disk, made, _⟩ := createFile_steady (@steady_shape crc32c s.flush) only
      rw [rotate, Faulty.bind_returned flushed, Faulty.read_bind,
        Faulty.bind_returned (onDisk_returned made), Faulty.run_modify] at ran
      obtain rfl | ⟨_, rfl⟩ := stopped <;> cases ran
  · exact .inr (Faulty.bind_raised failed)

theorem step_settled (s : Shape) {p : Op × Io} (only : p.2.OnlyFlushFails)
    (nothing : leftover (s.log crc32c) p = 0) :
    ∃ s' : Shape, s'.kind = s.kind ∧ Op.step crc32c (s.log crc32c) p = s'.log crc32c := by
  obtain ⟨op, io⟩ := p
  cases op with
  | flush =>
    obtain ran | ran := flush_settled s only nothing
    · exact ⟨s.flush, rfl, by rw [Op.step, Op.perform, ran]⟩
    · exact ⟨s, rfl, by rw [Op.step, Op.perform, ran]⟩
  | rotate =>
    obtain ran | ran := rotate_settled s only nothing
    · exact ⟨s.rotate, rfl, by rw [Op.step, Op.perform, ran]⟩
    · exact ⟨s, rfl, by rw [Op.step, Op.perform, ran]⟩
  | append r =>
    by_cases fits : r.Fits
    · have ran : append crc32c r io (s.log crc32c) =
          if (s.tip crc32c).offset + r.onDiskLen > rotationSize then
            (rotate io >>= fun _ => reserve r (r.bytes crc32c)) (s.log crc32c)
          else reserve r (r.bytes crc32c) (s.log crc32c) := append_fits fits io _
      by_cases rotates : (s.tip crc32c).offset + r.onDiskLen > rotationSize
      · have flushes : flushLeftover (s.wal crc32c) io = 0 := by
          rw [leftover] at nothing
          rwa [if_pos ⟨fits, rotates⟩] at nothing
        rw [if_pos rotates] at ran
        obtain rotated | failed := rotate_settled s only flushes
        · rw [Faulty.bind_returned rotated, reserve_shape _ fits] at ran
          exact ⟨s.rotate.push r fits, rfl, by rw [Op.step, Op.perform, Faulty.bind_returned ran]; rfl⟩
        · rw [Faulty.bind_raised failed] at ran
          exact ⟨s, rfl, by rw [Op.step, Op.perform, Faulty.bind_raised ran]⟩
      · rw [if_neg rotates, reserve_shape _ fits] at ran
        exact ⟨s.push r fits, rfl, by rw [Op.step, Op.perform, Faulty.bind_returned ran]; rfl⟩
    · have ran := @append_oversized crc32c r fits io (s.log crc32c)
      exact ⟨s, rfl, by rw [Op.step, Op.perform, Faulty.bind_raised ran]⟩

/-! ## Whole runs -/

theorem run_steady {ops : List (Op × Io)} (only : ∀ p ∈ ops, p.2.OnlyFlushFails)
    (steady : Steady crc32c log excess) :
    ∃ more, Steady crc32c (run (Op.step crc32c) log ops) (excess + more) ∧
      (more = 0 → EachStep (Op.step crc32c) (fun log p => leftover log p = 0) log ops) := by
  induction ops generalizing log excess with
  | nil => exact ⟨0, steady, fun _ => trivial⟩
  | cons p ops ih =>
    rw [List.forall_mem_cons] at only
    obtain ⟨more, settled, each⟩ := ih only.2 (step_steady steady only.1)
    refine ⟨leftover log p + more, by rw [← Nat.add_assoc]; exact settled, fun none => ?_⟩
    exact ⟨by omega, each (by omega)⟩

theorem run_settled (s : Shape) {ops : List (Op × Io)} (only : ∀ p ∈ ops, p.2.OnlyFlushFails)
    (each : EachStep (Op.step crc32c) (fun log p => leftover log p = 0) (s.log crc32c) ops) :
    ∃ s' : Shape, s'.kind = s.kind ∧ run (Op.step crc32c) (s.log crc32c) ops = s'.log crc32c := by
  induction ops generalizing s with
  | nil => exact ⟨s, rfl, rfl⟩
  | cons p ops ih =>
    rw [List.forall_mem_cons] at only
    obtain ⟨s', kind, stepped⟩ := step_settled s only.1 each.1
    have rest := each.2
    rw [stepped] at rest
    obtain ⟨s'', kind', ran⟩ := ih s' only.2 rest
    exact ⟨s'', kind'.trans kind, by rw [run_cons, stepped, ran]⟩

/-- A flush that succeeds leaves a log that replays to exactly the flushed records,
with nothing torn, precisely if no flush that failed before it wrote a byte. -/
theorem flush_retry_iff (s : Shape) {ops : List (Op × Io)} {last : Io} {log : Log}
    (only : ∀ p ∈ ops, p.2.OnlyFlushFails) (onlyLast : last.OnlyFlushFails)
    (succeeds : flush last (run (Op.step crc32c) (s.log crc32c) ops) = (.returned (), log)) :
    (∃ outcome, replayLogDir crc32c log.disk s.kind = (.ok outcome, log.disk) ∧
        outcome.records = log.flushed ∧ outcome.truncated = []) ↔
      EachStep (Op.step crc32c) (fun log p => leftover log p = 0) (s.log crc32c) ops := by
  constructor
  · rintro ⟨outcome, replayed, records, uncut⟩
    obtain ⟨more, steady, each⟩ := run_steady only (steady_shape s)
    apply each
    obtain ⟨log', settled, _, ⟨ran, _⟩ | ran⟩ := flush_steady steady onlyLast
    · obtain rfl : log' = log := congrArg Prod.snd (ran.symm.trans succeeds)
      have accounted := replayLogDir_accounts crc32c replayed uncut
      rw [records] at accounted
      have balance := settled.balance
      omega
    · cases ran.symm.trans succeeds
  · intro each
    obtain ⟨s', kind, ran⟩ := run_settled s only each
    rw [ran] at succeeds
    obtain flushed | ⟨_, _, exit, stopped, failed⟩ := @flush_shape crc32c s' last
    · obtain rfl : s'.flush.log crc32c = log := congrArg Prod.snd (flushed.symm.trans succeeds)
      have sameKind : s'.flush.kind = s.kind := kind
      rw [← sameKind]
      exact ⟨_, replay_shape crc32c s'.flush, rfl, rfl⟩
    · obtain rfl | ⟨_, rfl⟩ := stopped <;> cases failed.symm.trans succeeds

end Crc

/-- One record appended to a new log, a flush that fails after five bytes, and the
retry. -/
def retried : Exit WalError Unit × Log :=
  flush {} (run (Op.step crc32c) ((Shape.fresh .chunkLog).log crc32c)
    [(.append ⟨1, 0, [7]⟩, {}), (.flush, { write := .fails 5 })])

theorem retried_record_lost :
    retried.1 = .returned () ∧ retried.2.flushed = [⟨1, 0, [7]⟩] ∧
      ∃ outcome left, outcome.records = [] ∧
        replayLogDir crc32c retried.2.disk .chunkLog = (.ok outcome, left) := by
  refine ⟨by decide +kernel, by decide +kernel, ⟨[], 64, [(1, 64)]⟩,
    [⟨1, fileHeader .chunkLog, []⟩], rfl, ?_⟩
  decide +kernel

theorem flush_retry_nothing_written :
    ∃ outcome, replayLogDir crc32c (image crc32c .chunkLog [(1, [⟨1, 0, [7]⟩])]) .chunkLog =
        (.ok outcome, image crc32c .chunkLog [(1, [⟨1, 0, [7]⟩])]) ∧
      outcome.records = [⟨1, 0, [7]⟩] ∧ outcome.truncated = [] :=
  (@flush_retry_iff crc32c (Shape.fresh .chunkLog)
    [(.append ⟨1, 0, [7]⟩, {}), (.flush, { write := .fails 0 })] {}
    ⟨image crc32c .chunkLog [(1, [⟨1, 0, [7]⟩])], ⟨.chunkLog, 1, 77, []⟩, [⟨1, 0, [7]⟩], []⟩
    (by simp [Io.OnlyFlushFails]) (by simp [Io.OnlyFlushFails]) (by decide +kernel)).mpr
    (by decide +kernel)

end OneLink.Wal
