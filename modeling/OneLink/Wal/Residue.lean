/-
# Wal.Residue — what a dead process leaves of its log

`Residue` says what may lie in a log directory that no process has open: complete
files, a last file with a part of the batch, or one with a part of its header.
Replaying it either refuses the directory or leaves a log of complete records
(`Residue.replay`), and opening that log goes on where it ends (`open_recovered`).
Two lists of places frame what is found: those that were synced are all there, and
nothing is there that was not written.
-/
import OneLink.Wal.Recovery

namespace OneLink.Wal

open Library

set_option autoImplicit false

theorem places_grow (files : List (Nat × List Record)) (id : Nat) (rs more : List Record) :
    places (files ++ [(id, rs)]) <+: places (files ++ [(id, rs ++ more)]) := by
  have split := placesFrom_append (fun _ => 0) id fileHeaderLen rs more
  simp only [places, List.flatMap_append, List.flatMap_cons, List.flatMap_nil, List.append_nil,
    split, ← List.append_assoc]
  exact List.prefix_append _ _

theorem Shape.places_files {s : Shape} (flushed : s.batch = []) : Wal.places s.files = s.places := by
  simp [Shape.places, Shape.files, flushed]

theorem Shape.files_places (s : Shape) : Wal.places s.files <+: s.places :=
  places_grow s.sealedFiles s.active s.records s.batch

section Crc

variable (crc32c : Bytes → UInt32)

/-- What lies in the directory of a log whose process is gone. -/
inductive Residue (kind : LogKind) : Disk → List Place → List Place → Prop
  | empty : Residue kind [] [] []
  | inBatch (s : Shape) {part : Bytes} (sameKind : s.kind = kind)
      (isPrefix : part <+: frames (Record.bytes crc32c) s.batch) :
      Residue kind (image crc32c s.kind s.sealedFiles ++
        [⟨s.active, fileHeader s.kind ++ frames (Record.bytes crc32c) s.records ++ part, []⟩])
        (Wal.places s.files) s.places
  | inHeader {files : List (Nat × List Record)} (ascending : Ascending files)
      (fits : ∀ r ∈ recordsOf files, r.Fits) {id : Nat} (newest : ∀ f ∈ files, f.1 < id)
      {part : Bytes} (isPrefix : part <+: fileHeader kind) :
      Residue kind (image crc32c kind files ++ [⟨id, part, []⟩]) (Wal.places files)
        (Wal.places files)

/-- A log directory after replay: no file yet, or complete files. -/
inductive Recovered (kind : LogKind) : Disk → List Record → List Place → Prop
  | none : Recovered kind [] [] []
  | log (s : Shape) (sameKind : s.kind = kind) (flushed : s.batch = []) :
      Recovered kind (s.diskWith crc32c []) (recordsOf s.files) s.places

variable {crc32c} {kind : LogKind} {disk : Disk} {durable written : List Place}

theorem Residue.synced (residue : Residue crc32c kind disk durable written) :
    ∀ f ∈ disk, f.cached = [] := by
  cases residue with
  | empty => simp
  | inBatch s _ _ =>
    intro f member
    obtain old | last := List.mem_append.mp member
    · exact synced_image f old
    · rw [List.mem_singleton.mp last]
  | inHeader _ _ _ _ =>
    intro f member
    obtain old | last := List.mem_append.mp member
    · exact synced_image f old
    · rw [List.mem_singleton.mp last]

/-- A further crash finds nothing to lose. -/
theorem Residue.survivor (residue : Residue crc32c kind disk durable written) {left : Disk}
    (survives : Survives disk left) : left = disk :=
  Survives.of_synced residue.synced survives

/-- What a crash leaves of a log whose operation was cut off. -/
theorem Interrupted.residue {s : Shape} {log : Log} (interrupted : Interrupted crc32c s log)
    {left : Disk} (survives : Survives log.disk left) :
    Residue crc32c s.kind left (Wal.places s.files) s.places := by
  cases interrupted with
  | @inBatch part isPrefix =>
    obtain ⟨kept, survived, rfl⟩ := survives.last_inv synced_image
    exact .inBatch s rfl (survived.trans isPrefix)
  | @inHeader part isPrefix flushed =>
    obtain ⟨kept, survived, rfl⟩ := survives.last_inv synced_image
    have residue := @Residue.inHeader crc32c s.kind s.files s.ascending s.files_fit (s.active + 1)
      (fun g inFiles => @files_older crc32c s _ (List.mem_map.mpr ⟨g, inFiles, rfl⟩)) kept
      (survived.trans isPrefix)
    rw [Shape.places_files flushed] at residue ⊢
    simpa using residue

variable (crc32c) in
/-- A log between two operations is cut off nowhere. -/
theorem interrupted_log (s : Shape) : Interrupted crc32c s (s.log crc32c) :=
  .inBatch List.nil_prefix

theorem Residue.of_shape (s : Shape) :
    Residue crc32c s.kind (s.diskWith crc32c []) (Wal.places s.files) s.places := by
  have residue := @Residue.inBatch crc32c s.kind s [] rfl List.nil_prefix
  rwa [List.append_nil] at residue

theorem kept_places (s : Shape) {whole : List Record} (first : whole <+: s.batch) :
    Wal.places s.files <+: (s.kept whole first).places ∧ (s.kept whole first).places <+: s.places := by
  obtain ⟨rest, split⟩ := first
  have early := places_grow s.sealedFiles s.active s.records whole
  have late := places_grow s.sealedFiles s.active (s.records ++ whole) rest
  rw [List.append_assoc, split] at late
  simpa [Shape.places, Shape.kept, Shape.files] using And.intro early late

/-- Replay refuses what is left and changes nothing, or it leaves a log that holds
the synced places and of the others the first. -/
theorem Residue.replay (residue : Residue crc32c kind disk durable written) :
    (∃ err, replayLogDir crc32c disk kind = (.error err, disk)) ∨
      ∃ outcome left found, replayLogDir crc32c disk kind = (.ok outcome, left) ∧
        Recovered crc32c kind left outcome.records found ∧ durable <+: found ∧ found <+: written := by
  cases residue with
  | empty => exact .inr ⟨{}, [], [], rfl, .none, List.prefix_rfl, List.prefix_rfl⟩
  | inBatch s sameKind isPrefix =>
    obtain ⟨whole, first, outcome, records, replayed⟩ := replay_part s isPrefix
    obtain ⟨early, late⟩ := kept_places s first
    subst sameKind
    refine .inr ⟨outcome, _, _, replayed, ?_, early, late⟩
    rw [records, ← recordsOf_kept s first]
    exact .log (s.kept whole first) rfl rfl
  | @inHeader files ascending fits id newest part isPrefix =>
    by_cases short : part.length < fileHeaderLen
    · left
      have read := @replayLogDir_last crc32c kind files ⟨id, part, []⟩ ascending newest fits
      rw [replay_tornHeader _ _ _ (by simpa [DiskFile.contents] using short)] at read
      exact ⟨_, read⟩
    · obtain rfl : part = fileHeader kind :=
        isPrefix.eq_of_length_le (by rw [length_fileHeader]; omega)
      let s : Shape :=
        { kind, sealedFiles := files, active := id, records := [], batch := []
          ascending := Shape.ascending_snoc.mpr ⟨ascending, newest⟩
          fits := by simpa [Shape.recordsOf_snoc] using fits }
      have whole : image crc32c kind files ++ [⟨id, fileHeader kind, []⟩] =
          s.diskWith crc32c [] := by
        simp [s, Shape.diskWith]
      have places : s.places = Wal.places files := by
        simp [s, Shape.places, Wal.places, placesFrom]
      right
      rw [whole, ← places]
      exact ⟨_, _, _, replay_shape crc32c s, .log s rfl rfl, List.prefix_rfl, List.prefix_rfl⟩

/-! ## Calls that fail and leave nothing -/

/-- The I/O calls that fail leave nothing behind: no byte and no file. -/
def Io.Clean (io : Io) : Prop :=
  (∀ n, io.write ≠ .fails (n + 1)) ∧ io.sync.isFault = false ∧ io.header.isFault = false ∧
    io.headerSync.isFault = false

theorem Io.clean_of_working {io : Io} (working : ¬ io.Faulty) : io.Clean := by
  simp only [Io.Faulty, not_or, Bool.not_eq_true] at working
  obtain ⟨write, sync, _, header, headerSync⟩ := working
  refine ⟨fun n same => ?_, sync, header, headerSync⟩
  rw [same] at write
  cases write

variable {io : Io} {s : Shape} {log : Log} {err : WalError}

theorem flush_clean (clean : io.Clean) (ran : flush io (s.log crc32c) = (.raised err, log)) :
    log = s.log crc32c := by
  obtain ⟨write, sync, create, header, headerSync⟩ := io
  obtain ⟨writeClean, syncClean, _, _⟩ := clean
  rw [flush, Faulty.read_bind] at ran
  by_cases none : (s.log crc32c).wal.pending = []
  · rw [if_pos none] at ran
    cases ran
  rw [if_neg none] at ran
  have wrote := @write_shape crc32c s write (frames (Record.bytes crc32c) s.batch)
  cases write with
  | crashes n =>
    rw [Faulty.bind_crashed (onDisk_crashed wrote)] at ran
    cases ran
  | fails n =>
    cases n with
    | succ n => exact absurd rfl (writeClean n)
    | zero =>
      rw [Faulty.bind_raised (onDisk_raised wrote)] at ran
      obtain ⟨-, rfl⟩ := Prod.mk.inj ran
      rfl
  | done =>
    rw [Faulty.bind_returned (onDisk_returned wrote)] at ran
    cases sync with
    | fails n => cases syncClean
    | crashes n => cases ran
    | done =>
      rw [Faulty.bind_returned (onDisk_returned (sync_shape s))] at ran
      cases ran

theorem createFile_clean (clean : io.Clean) {disk : Disk}
    (ran : createFile s.kind (s.active + 1) io (s.diskWith crc32c []) = (.raised err, disk)) :
    disk = s.diskWith crc32c [] := by
  obtain ⟨write, sync, create, header, headerSync⟩ := io
  obtain ⟨_, _, headerClean, headerSyncClean⟩ := clean
  have made := @createNew_shape crc32c s create
  rw [createFile] at ran
  cases create with
  | fails n =>
    rw [Faulty.bind_raised made] at ran
    exact (Prod.mk.inj ran).2.symm
  | crashes n =>
    rw [Faulty.bind_crashed made] at ran
    cases ran
  | done =>
    rw [Faulty.bind_returned made] at ran
    cases header with
    | fails n => cases headerClean
    | crashes n => cases ran
    | done =>
      cases headerSync with
      | fails n => cases headerSyncClean
      | crashes n => cases ran
      | done => cases ran

theorem rotate_clean (clean : io.Clean) (ran : rotate io (s.log crc32c) = (.raised err, log)) :
    log = s.log crc32c ∨ log = s.flush.log crc32c := by
  rw [rotate] at ran
  obtain flushed | ⟨part, _, exit, stopped, cut⟩ := @flush_shape crc32c s io
  · right
    rw [Faulty.bind_returned flushed, Faulty.read_bind] at ran
    cases made : createFile s.kind (s.active + 1) io (s.flush.diskWith crc32c []) with
    | mk exit disk =>
      cases exit with
      | returned a =>
        rw [Faulty.bind_returned (onDisk_returned made)] at ran
        cases ran
      | crashed =>
        rw [Faulty.bind_crashed (onDisk_crashed made)] at ran
        cases ran
      | raised err =>
        rw [Faulty.bind_raised (onDisk_raised made)] at ran
        obtain ⟨-, rfl⟩ := Prod.mk.inj ran
        rw [createFile_clean clean made]
        rfl
  · left
    obtain rfl | ⟨_, rfl⟩ := stopped
    · rw [Faulty.bind_crashed cut] at ran
      cases ran
    · rw [Faulty.bind_raised cut] at ran
      obtain ⟨-, rfl⟩ := Prod.mk.inj ran
      exact flush_clean clean cut

/-- An append whose I/O fails cleanly leaves the log as it was, flushed perhaps. -/
theorem append_clean {r : Record} (clean : io.Clean)
    (ran : append crc32c r io (s.log crc32c) = (.raised err, log)) :
    log = s.log crc32c ∨ log = s.flush.log crc32c := by
  by_cases fits : r.Fits
  · rw [append_fits fits] at ran
    by_cases full : (s.log crc32c).wal.fileSize + (s.log crc32c).wal.pending.length +
        r.onDiskLen > rotationSize
    · rw [if_pos full] at ran
      cases rotated : rotate io (s.log crc32c) with
      | mk exit after =>
        cases exit with
        | returned a =>
          rw [Faulty.bind_returned rotated] at ran
          cases ran
        | crashed =>
          rw [Faulty.bind_crashed rotated] at ran
          cases ran
        | raised err =>
          rw [Faulty.bind_raised rotated] at ran
          obtain ⟨-, rfl⟩ := Prod.mk.inj ran
          exact rotate_clean clean rotated
    · rw [if_neg full] at ran
      cases ran
  · rw [append_oversized fits] at ran
    exact .inl (Prod.mk.inj ran).2.symm

/-! ## Opening what was recovered -/

theorem open_shape (s : Shape) (flushed : s.batch = []) (io : Io) :
    Wal.open s.kind io (s.diskWith crc32c []) =
      (.returned (s.wal crc32c), s.diskWith crc32c []) := by
  have sorted : sortedLogFiles (s.diskWith crc32c []) = s.diskWith crc32c [] := by
    rw [diskWith_nil]
    exact sortedLogFiles_of_ascending (image_ascending crc32c s.kind s.ascending)
  have newest : highestFile (s.diskWith crc32c []) =
      some ⟨s.active, fileHeader s.kind ++ frames (Record.bytes crc32c) s.records, []⟩ := by
    rw [highestFile, sorted, Shape.diskWith, List.getLast?_concat]
  have header : (fileHeader s.kind ++ frames (Record.bytes crc32c) s.records).take fileHeaderLen =
      fileHeader s.kind := List.take_left' (length_fileHeader _)
  rw [Wal.open, Faulty.read_bind, newest]
  simp only [DiskFile.contents, List.append_nil, header, parseFileHeader_fileHeader,
    List.length_append, length_fileHeader]
  rw [require_of (Nat.le_add_right _ _)]
  show (Faulty.ofExcept (require (s.kind = s.kind) _) >>= fun _ => pure _) _ = _
  rw [require_of rfl]
  simp [Faulty.ofExcept, Shape.wal, flushed]

/-- Opening a recovered log. -/
theorem open_recovered {records : List Record} {found : List Place}
    (recovered : Recovered crc32c kind disk records found) (io : Io) :
    (∃ s : Shape, s.kind = kind ∧ s.batch = [] ∧ recordsOf s.files = records ∧ s.places = found ∧
        Wal.open kind io disk = (.returned (s.wal crc32c), s.diskWith crc32c [])) ∨
      ∃ exit disk', Wal.open kind io disk = (exit, disk') ∧ Stopped io exit ∧
        (exit ≠ .crashed → io.Clean → disk' = disk) ∧
        ∀ left, Survives disk' left → Residue crc32c kind left found found := by
  cases recovered with
  | log s sameKind flushed =>
    subst sameKind
    exact .inl ⟨s, rfl, flushed, rfl, rfl, open_shape s flushed io⟩
  | none =>
    have first (part : Bytes) (isPrefix : part <+: fileHeader kind) (left : Disk)
        (survives : Survives [⟨1, [], part⟩] left) : Residue crc32c kind left [] [] := by
      obtain ⟨kept, survived, rfl⟩ := @Survives.last_inv [] _ _ (by simp) survives
      exact @Residue.inHeader crc32c kind [] List.Pairwise.nil (by simp [recordsOf]) 1 (by simp)
        _ (survived.trans isPrefix)
    have nothing (left : Disk) (survives : Survives [] left) : Residue crc32c kind left [] [] := by
      cases survives
      exact .empty
    have created : Wal.open kind io [] = Wal.create kind io [] := rfl
    rw [created, Wal.create, createFile]
    obtain ⟨write, sync, create, header, headerSync⟩ := io
    cases create with
    | fails n => exact .inr ⟨_, _, rfl, .inr ⟨by simp [Io.Faulty, Fate.isFault], rfl⟩, by simp, nothing⟩
    | crashes n => exact .inr ⟨_, _, rfl, .inl rfl, by simp, nothing⟩
    | done =>
      cases header with
      | fails n =>
        refine .inr ⟨_, _, rfl, .inr ⟨by simp [Io.Faulty, Fate.isFault], rfl⟩, ?_,
          first _ (List.take_prefix n _)⟩
        rintro - ⟨_, _, clean, _⟩
        cases clean
      | crashes n =>
        exact .inr ⟨_, _, rfl, .inl rfl, by simp, first _ (List.take_prefix n _)⟩
      | done =>
        cases headerSync with
        | fails n =>
          refine .inr ⟨_, _, rfl, .inr ⟨by simp [Io.Faulty, Fate.isFault], rfl⟩, ?_,
            first _ List.prefix_rfl⟩
          rintro - ⟨_, _, _, clean⟩
          cases clean
        | crashes n => exact .inr ⟨_, _, rfl, .inl rfl, by simp, first _ List.prefix_rfl⟩
        | done =>
          refine .inl ⟨Shape.fresh kind, rfl, rfl, rfl, ?_, ?_⟩
          · rfl
          · cases kind <;> rfl

theorem Recovered.residue {records : List Record} {found : List Place}
    (recovered : Recovered crc32c kind disk records found) :
    Residue crc32c kind disk found found := by
  cases recovered with
  | none => exact .empty
  | log s sameKind flushed =>
    subst sameKind
    have residue := @Residue.of_shape crc32c s
    rwa [Shape.places_files flushed] at residue

variable (crc32c) in
/-- How far the opening of a log got, and whether it was cut off there. -/
inductive Opening (kind : LogKind) (io : Io) (disk : Disk) : Bool → Disk → Prop
  | untouched : Opening kind io disk false disk
  | replayed {result : Except WalError ReplayOutcome} {left : Disk}
      (ran : replayLogDir crc32c disk kind = (result, left)) : Opening kind io disk false left
  | writer {outcome : ReplayOutcome} {left disk' : Disk} {exit : Exit WalError Wal}
      (ran : replayLogDir crc32c disk kind = (.ok outcome, left))
      (opened : Wal.open kind io left = (exit, disk')) :
      Opening kind io disk (exit = .crashed) disk'

/-- However far it got, what is left is a residue again. -/
theorem Opening.residue {io : Io} {cut : Bool} {disk' : Disk}
    (opening : Opening crc32c kind io disk cut disk')
    (residue : Residue crc32c kind disk durable written) :
    ∃ durable' written', durable <+: durable' ∧ written' <+: written ∧
      (∀ left, Survives disk' left → Residue crc32c kind left durable' written') ∧
      (io.Clean → cut = false → Residue crc32c kind disk' durable' written') := by
  have stays {disk' : Disk} {durable' written' : List Place}
      (again : Residue crc32c kind disk' durable' written') {left : Disk}
      (survives : Survives disk' left) : Residue crc32c kind left durable' written' := by
    rwa [again.survivor survives]
  cases opening with
  | untouched =>
    exact ⟨_, _, List.prefix_rfl, List.prefix_rfl, fun _ => stays residue, fun _ _ => residue⟩
  | replayed ran =>
    obtain ⟨err, refused⟩ | ⟨outcome, left, found, replayed, recovered, early, late⟩ :=
      residue.replay
    · rw [refused] at ran
      obtain ⟨-, rfl⟩ := Prod.mk.inj ran
      exact ⟨_, _, List.prefix_rfl, List.prefix_rfl, fun _ => stays residue, fun _ _ => residue⟩
    · rw [replayed] at ran
      obtain ⟨-, rfl⟩ := Prod.mk.inj ran
      have again := recovered.residue
      exact ⟨_, _, early, late, fun _ => stays again, fun _ _ => again⟩
  | @writer outcome left disk' exit ran opened =>
    obtain ⟨err, refused⟩ | ⟨outcome', left', found, replayed, recovered, early, late⟩ :=
      residue.replay
    · rw [refused] at ran
      cases ran
    rw [replayed] at ran
    obtain ⟨-, rfl⟩ := Prod.mk.inj ran
    obtain ⟨s, sameKind, flushed, -, same, done⟩ | ⟨exit', after, cutOff, -, clean, survivors⟩ :=
      open_recovered recovered io
    · rw [done] at opened
      obtain ⟨-, rfl⟩ := Prod.mk.inj opened
      have again := (@Recovered.log crc32c kind s sameKind flushed).residue
      rw [same] at again
      exact ⟨_, _, early, late, fun _ => stays again, fun _ _ => again⟩
    · rw [cutOff] at opened
      obtain ⟨rfl, rfl⟩ := Prod.mk.inj opened
      refine ⟨_, _, early, late, survivors, fun isClean going => ?_⟩
      rw [clean (by simpa using going) isClean]
      exact recovered.residue

end Crc

end OneLink.Wal
