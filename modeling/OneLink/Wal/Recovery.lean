/-
# Wal.Recovery — what replay returns after a crash

The machine may stop at any I/O call of any operation, and of every file a crash
keeps what was synced and some prefix of the rest.  `crash_recovery` says what
replay makes of that: all records of completed flushes, then the first records of
the batch whose flush was cut off, and the same again when it is repeated.  A
crash that leaves the newest file with a part of its header is the exception:
replay refuses that directory and changes nothing.
-/
import OneLink.Wal.Shape

namespace OneLink.Wal

open Library

set_option autoImplicit false

section Crc

variable (crc32c : Bytes → UInt32)

/-- Replay succeeds with these records, and a second replay of what it leaves
returns them again. -/
def Replays (kind : LogKind) (disk : Disk) (records : List Record) : Prop :=
  ∃ outcome left, replayLogDir crc32c disk kind = (.ok outcome, left) ∧
    outcome.records = records ∧
    ∃ again, replayLogDir crc32c left kind = (.ok again, left) ∧ again.records = records

variable {crc32c}

variable (crc32c) in
/-- A log of complete records replays to them and stays as it is. -/
theorem replay_shape (s : Shape) :
    replayLogDir crc32c (s.diskWith crc32c []) s.kind =
      (.ok (imageOutcome crc32c s.files), s.diskWith crc32c []) := by
  rw [diskWith_nil]
  exact replayLogDir_image crc32c s.kind s.ascending s.files_fit

variable (crc32c) in
theorem replays_shape (s : Shape) :
    Replays crc32c s.kind (s.diskWith crc32c []) (recordsOf s.files) :=
  ⟨_, _, replay_shape crc32c s, rfl, _, replay_shape crc32c s, rfl⟩

/-- The log that keeps these first records of the batch. -/
def Shape.kept (s : Shape) (whole : List Record) (isPrefix : whole <+: s.batch) : Shape :=
  { s with
    records := s.records ++ whole
    batch := []
    ascending := Shape.ascending_snoc.mpr (Shape.ascending_snoc.mp s.ascending)
    fits := by
      intro r member
      rw [Shape.recordsOf_snoc, List.append_nil, ← List.append_assoc,
        ← Shape.recordsOf_snoc _ s.active, List.mem_append] at member
      obtain old | new := member
      · exact s.files_fit r old
      · exact s.batch_fits r (isPrefix.subset new) }

theorem recordsOf_kept (s : Shape) {whole : List Record} (isPrefix : whole <+: s.batch) :
    recordsOf (s.kept whole isPrefix).files = recordsOf s.files ++ whole := by
  simp only [Shape.kept, Shape.files, Shape.recordsOf_snoc, List.append_assoc]

theorem recordsOf_rotate (s : Shape) : recordsOf s.rotate.files = recordsOf s.files ++ s.batch := by
  simp [Shape.rotate, Shape.flush, Shape.files, recordsOf]

/-- Whatever part of the batch is on disk, replay keeps its complete records and
cuts the rest off. -/
theorem replay_part (s : Shape) {part : Bytes}
    (isPrefix : part <+: frames (Record.bytes crc32c) s.batch) :
    ∃ whole, ∃ first : whole <+: s.batch, ∃ outcome,
      outcome.records = recordsOf s.files ++ whole ∧
      replayLogDir crc32c (image crc32c s.kind s.sealedFiles ++
          [⟨s.active, fileHeader s.kind ++ frames (Record.bytes crc32c) s.records ++ part, []⟩])
          s.kind =
        (.ok outcome, (s.kept whole first).diskWith crc32c []) := by
  obtain ⟨whole, rest, tail, split, rfl, torn⟩ := prefix_frames isPrefix
  have first : whole <+: s.batch := ⟨rest, split.symm⟩
  have restFits : ∀ r ∈ rest, r.Fits :=
    fun r member => s.batch_fits r (by rw [split]; exact List.mem_append_right _ member)
  have keptFits : ∀ r ∈ s.records ++ whole, r.Fits := by
    intro r member
    apply (s.kept whole first).files_fit
    simp only [Shape.files, Shape.kept, Shape.recordsOf_snoc]
    exact List.mem_append_right _ member
  have sealedFit : ∀ r ∈ recordsOf s.sealedFiles, r.Fits := by
    intro r member
    apply s.files_fit
    rw [Shape.files, Shape.recordsOf_snoc]
    exact List.mem_append_left _ member
  -- the last file is its header, the complete records and the torn tail
  generalize holds : frames (Record.bytes crc32c) (s.records ++ whole) = complete
  have contents : fileHeader s.kind ++ frames (Record.bytes crc32c) s.records ++
      (frames (Record.bytes crc32c) whole ++ tail) = fileHeader s.kind ++ (complete ++ tail) := by
    rw [← holds]
    simp
  have scanned := scan_frames crc32c s.active fileHeaderLen true keptFits tail
  rw [holds, scan_tornTail crc32c _ _ restFits torn] at scanned
  have replayed := replayFile_body crc32c s.kind s.active true (complete ++ tail)
  rw [scanned] at replayed
  have ascending := Shape.ascending_snoc.mp s.ascending
  have final : (s.kept whole first).diskWith crc32c [] = image crc32c s.kind s.sealedFiles ++
      [⟨s.active, fileHeader s.kind ++ complete, []⟩] := by
    rw [← holds]
    rfl
  refine ⟨whole, first, ?_⟩
  rw [contents, final, replayLogDir_last crc32c s.kind ascending.1 ascending.2 sealedFit]
  simp only [DiskFile.contents, List.append_nil, replayed, Except.map, Scan.prepend, Scan.outcome]
  by_cases empty : tail = []
  · simp [empty, ReplayOutcome.extend, imageOutcome, Shape.files, Shape.recordsOf_snoc]
  · have cut : (fileHeader s.kind ++ (complete ++ tail)).take (fileHeaderLen + complete.length) =
        fileHeader s.kind ++ complete := by
      rw [← List.append_assoc]
      exact List.take_left' (by rw [List.length_append, length_fileHeader])
    simp [empty, ReplayOutcome.extend, imageOutcome, Shape.files, Shape.recordsOf_snoc,
      DiskFile.setLen, DiskFile.contents, cut]

theorem synced_image {kind : LogKind} {files : List (Nat × List Record)} :
    ∀ f ∈ image crc32c kind files, f.cached = [] := by
  intro f member
  obtain ⟨g, _, rfl⟩ := List.mem_map.mp member
  rfl

theorem image_long {kind : LogKind} {files : List (Nat × List Record)} :
    ∀ f ∈ image crc32c kind files, fileHeaderLen ≤ f.contents.length := by
  intro f member
  obtain ⟨g, _, rfl⟩ := List.mem_map.mp member
  simp [DiskFile.contents]

/-- A file too short for its header is refused. -/
theorem replay_tornHeader (path : Nat) {file : Bytes} (kind : LogKind) (allow : Bool)
    (short : file.length < fileHeaderLen) :
    replayLogFileWithPolicy crc32c path file kind allow = .error (.invalidHeaderReserved path) := by
  rw [replayLogFileWithPolicy, require_of_not (Nat.not_le_of_lt short)]
  rfl

variable (crc32c) in
/-- What the claims about crashes need of the disk that is left: with whole headers
it replays to the flushed records and the first of the batch; else replay refuses
it. -/
structure Recovers (kind : LogKind) (log : Log) (left : Disk) : Prop where
  whole : (∀ f ∈ left, fileHeaderLen ≤ f.contents.length) →
    ∃ kept, kept <+: log.batch ∧ Replays crc32c kind left (log.flushed ++ kept)
  torn : ∀ f ∈ left, f.contents.length < fileHeaderLen →
    replayLogDir crc32c left kind = (.error (.invalidHeaderReserved f.id), left)

/-- Whatever a crash leaves of an interrupted log. -/
theorem recovers_interrupted (s : Shape) {log : Log} (interrupted : Interrupted crc32c s log)
    {left : Disk} (survives : Survives log.disk left) :
    Recovers crc32c s.kind log left := by
  cases interrupted with
  | @inBatch part isPrefix =>
    obtain ⟨kept, survived, rfl⟩ := survives.last_inv synced_image
    obtain ⟨whole, first, outcome, records, replayed⟩ :=
      replay_part s (survived.trans isPrefix)
    have again := replay_shape crc32c (s.kept whole first)
    refine ⟨fun _ => ⟨whole, first, outcome, _, replayed, records, _, again,
      recordsOf_kept s first⟩, ?_⟩
    intro f member short
    obtain old | active := List.mem_append.mp member
    · exact absurd short (Nat.not_lt_of_le (image_long f old))
    · rw [List.mem_singleton.mp active] at short
      simp [DiskFile.contents] at short
  | @inHeader part isPrefix flushed =>
    obtain ⟨kept, survived, rfl⟩ := survives.last_inv synced_image
    have beginning : kept <+: fileHeader s.kind := survived.trans isPrefix
    constructor
    · intro long
      have whole : kept = fileHeader s.kind := by
        apply beginning.eq_of_length_le
        have last := long _ (List.mem_append_right _ (List.mem_singleton_self _))
        simpa [DiskFile.contents] using last
      have rotated : image crc32c s.kind s.files ++ [⟨s.active + 1, [] ++ kept, []⟩] =
          s.rotate.diskWith crc32c [] := by
        rw [whole]
        simp [Shape.diskWith, Shape.rotate, s.flush_of_empty flushed]
      have replays := replays_shape crc32c s.rotate
      rw [recordsOf_rotate, flushed] at replays
      exact ⟨[], List.nil_prefix, rotated ▸ replays⟩
    · intro f member short
      obtain old | new := List.mem_append.mp member
      · exact absurd short (Nat.not_lt_of_le (image_long f old))
      obtain rfl := List.mem_singleton.mp new
      have newest (g : Nat × List Record) (inFiles : g ∈ s.files) : g.1 < s.active + 1 :=
        @files_older crc32c s _ (List.mem_map.mpr ⟨g, inFiles, rfl⟩)
      have read := @replayLogDir_last crc32c s.kind s.files ⟨s.active + 1, [] ++ kept, []⟩
        s.ascending newest s.files_fit
      rw [replay_tornHeader _ _ _ short] at read
      exact read

/-! ## Runs -/

theorem Stopped.crashed_of {α : Type} {io : Io} {exit : Exit WalError α} (stopped : Stopped io exit)
    (working : ¬ io.Faulty) : exit = .crashed :=
  stopped.resolve_right fun faulty => working faulty.1

/-- An operation none of whose I/O calls fails takes a log to a log, or is cut off. -/
theorem perform_shape (s : Shape) (op : Op) {io : Io} (working : ¬ io.Faulty) :
    (∃ (s' : Shape) (exit : Exit WalError Unit), s'.kind = s.kind ∧ exit ≠ .crashed ∧
        op.perform crc32c io (s.log crc32c) = (exit, s'.log crc32c)) ∨
      ∃ (s' : Shape) (log : Log), s'.kind = s.kind ∧ Interrupted crc32c s' log ∧
        op.perform crc32c io (s.log crc32c) = (.crashed, log) := by
  cases op with
  | append r =>
    obtain ⟨_, ran⟩ | ⟨fits, ran⟩ | ⟨log, exit, interrupted, stopped, ran⟩ :=
      @append_shape crc32c s r io
    · exact .inl ⟨s, .raised _, rfl, by simp, Faulty.bind_raised ran⟩
    · refine .inl ⟨(s.room crc32c r).push r fits, .returned (), ?_, by simp,
        Faulty.bind_returned ran⟩
      simp only [Shape.push, Shape.room]
      split <;> rfl
    · obtain rfl := stopped.crashed_of working
      right
      obtain before | after := interrupted
      · exact ⟨s, log, rfl, before, Faulty.bind_crashed ran⟩
      · exact ⟨s.flush, log, rfl, after, Faulty.bind_crashed ran⟩
  | flush =>
    obtain ran | ⟨part, isPrefix, exit, stopped, ran⟩ := @flush_shape crc32c s io
    · exact .inl ⟨s.flush, .returned (), rfl, by simp, ran⟩
    · obtain rfl := stopped.crashed_of working
      exact .inr ⟨s, _, rfl, .inBatch isPrefix, ran⟩
  | rotate =>
    obtain ran | ⟨log, exit, interrupted, stopped, ran⟩ := @rotate_shape crc32c s io
    · exact .inl ⟨s.rotate, .returned (), rfl, by simp, ran⟩
    · obtain rfl := stopped.crashed_of working
      right
      obtain before | after := interrupted
      · exact ⟨s, log, rfl, before, ran⟩
      · exact ⟨s.flush, log, rfl, after, ran⟩

theorem performAll_shape (s : Shape) {ops : List (Op × Io)} (working : ∀ p ∈ ops, ¬ p.2.Faulty) :
    ∃ s', s'.kind = s.kind ∧ Interrupted crc32c s' (performAll crc32c ops (s.log crc32c)) := by
  induction ops generalizing s with
  | nil => exact ⟨s, rfl, .inBatch List.nil_prefix⟩
  | cons p ops ih =>
    obtain ⟨op, io⟩ := p
    rw [List.forall_mem_cons] at working
    obtain ⟨s', exit, kind, going, ran⟩ | ⟨s', log, kind, interrupted, ran⟩ :=
      @perform_shape crc32c s op _ working.1
    · obtain ⟨s'', kind', interrupted⟩ := ih s' working.2
      refine ⟨s'', kind'.trans kind, ?_⟩
      rw [performAll, ran]
      cases exit with
      | crashed => exact absurd rfl going
      | returned a => exact interrupted
      | raised err => exact interrupted
    · exact ⟨s', kind, by rw [performAll, ran]; exact interrupted⟩

/-- The log of a directory that was just created. -/
def Shape.fresh (kind : LogKind) : Shape where
  kind := kind
  sealedFiles := []
  active := 1
  records := []
  batch := []
  ascending := List.pairwise_singleton _ _
  fits := by simp [recordsOf]

/-- Creating the first file: its log is there, or a part of its header is. -/
theorem create_shape (kind : LogKind) {io : Io} (working : ¬ io.Faulty) :
    Wal.create kind io [] =
        (.returned ((Shape.fresh kind).wal crc32c), (Shape.fresh kind).diskWith crc32c []) ∨
      ∃ disk, Wal.create kind io [] = (.crashed, disk) ∧
        (disk = [] ∨ ∃ part, part <+: fileHeader kind ∧ disk = [⟨1, [], part⟩]) := by
  obtain ⟨write, sync, create, header, headerSync⟩ := io
  simp only [Io.Faulty, not_or] at working
  rw [Wal.create, createFile]
  cases create with
  | fails n => simp [Fate.isFault] at working
  | crashes n => exact .inr ⟨[], rfl, .inl rfl⟩
  | done =>
    cases header with
    | fails n => simp [Fate.isFault] at working
    | crashes n =>
      exact .inr ⟨[⟨1, [], (fileHeader kind).take n⟩], rfl,
        .inr ⟨_, List.take_prefix _ _, rfl⟩⟩
    | done =>
      cases headerSync with
      | fails n => simp [Fate.isFault] at working
      | crashes n => exact .inr ⟨[⟨1, [], fileHeader kind⟩], rfl, .inr ⟨_, List.prefix_rfl, rfl⟩⟩
      | done =>
        left
        cases kind <;> rfl

theorem replays_empty (kind : LogKind) : Replays crc32c kind [] [] :=
  ⟨{}, [], rfl, rfl, {}, rfl, rfl⟩

/-- A crash while the first file is made. -/
theorem recovers_first {kind : LogKind} {wal : Wal} {disk left : Disk}
    (survives : Survives disk left)
    (remains : disk = [] ∨ ∃ part, part <+: fileHeader kind ∧ disk = [⟨1, [], part⟩]) :
    Recovers crc32c kind { disk, wal } left := by
  obtain rfl | ⟨part, isPrefix, rfl⟩ := remains
  · cases survives
    exact ⟨fun _ => ⟨[], List.nil_prefix, replays_empty kind⟩, by simp⟩
  · obtain ⟨kept, survived, rfl⟩ := @Survives.last_inv [] _ _ (by simp) survives
    have beginning : kept <+: fileHeader kind := survived.trans isPrefix
    constructor
    · intro long
      have whole : kept = fileHeader kind := by
        apply beginning.eq_of_length_le
        simpa [DiskFile.contents] using long _ (List.mem_singleton_self _)
      have replays := replays_shape crc32c (Shape.fresh kind)
      rw [whole]
      refine ⟨[], List.nil_prefix, ?_⟩
      simpa [Shape.diskWith, Shape.fresh, Shape.files, recordsOf, image] using replays
    · intro f member short
      obtain rfl := List.mem_singleton.mp member
      have read := @replayLogDir_last crc32c kind [] ⟨1, [] ++ kept, []⟩ List.Pairwise.nil
        (by simp) (by simp [recordsOf])
      rw [replay_tornHeader _ _ _ short] at read
      exact read

/-- A crash at any I/O call of any run, with whatever then survives: when every file
has its whole header, replay returns the records of the completed flushes and the
first of the interrupted batch, and returns them again when repeated; when one has
not, replay refuses the directory and leaves it alone. -/
theorem crash_recovery (kind : LogKind) {created : Io} {ops : List (Op × Io)}
    (creation : ¬ created.Faulty) (working : ∀ p ∈ ops, ¬ p.2.Faulty) {left : Disk}
    (survives : Survives (session crc32c kind created ops).disk left) :
    Recovers crc32c kind (session crc32c kind created ops) left := by
  obtain ran | ⟨disk, ran, remains⟩ := @create_shape crc32c kind _ creation
  · have started : session crc32c kind created ops =
        performAll crc32c ops ((Shape.fresh kind).log crc32c) := by
      rw [session, ran]
      rfl
    obtain ⟨s, sameKind, interrupted⟩ := performAll_shape (Shape.fresh kind) working
    rw [started] at survives ⊢
    obtain rfl : s.kind = kind := sameKind
    exact recovers_interrupted s interrupted survives
  · have stopped : session crc32c kind created ops =
        { disk, wal := ⟨kind, 1, fileHeaderLen, []⟩ } := by
      rw [session, ran]
    rw [stopped] at survives ⊢
    exact recovers_first survives remains

end Crc

/-- One record, flushed, and a crash after three bytes of the next file's header. -/
def tornSession : Log :=
  session crc32c .chunkLog {}
    [(.append ⟨1, 0, [104, 105]⟩, {}), (.flush, {}), (.rotate, { header := .crashes 3 })]

theorem torn_header_refused :
    tornSession.flushed = [⟨1, 0, [104, 105]⟩] ∧
      ∃ left, Survives tornSession.disk left ∧
        ¬ ∃ kept, kept <+: tornSession.batch ∧
          Replays crc32c .chunkLog left (tornSession.flushed ++ kept) := by
  have disk : tornSession.disk = image crc32c .chunkLog [(1, [⟨1, 0, [104, 105]⟩])] ++
      [⟨2, [], (fileHeader .chunkLog).take 3⟩] := rfl
  refine ⟨rfl, image crc32c .chunkLog [(1, [⟨1, 0, [104, 105]⟩])] ++
    [⟨2, (fileHeader .chunkLog).take 3, []⟩], ?_, ?_⟩
  · rw [disk]
    exact .cons ⟨[], List.nil_prefix, by simp⟩ (.cons ⟨_, List.prefix_rfl, rfl⟩ .nil)
  · rintro ⟨kept, _, outcome, left, replayed, _⟩
    have short : ((fileHeader .chunkLog).take 3 ++ []).length < fileHeaderLen := by decide
    have read := @replayLogDir_last crc32c .chunkLog [(1, [⟨1, 0, [104, 105]⟩])]
      ⟨2, (fileHeader .chunkLog).take 3, []⟩ (by simp [Ascending]) (by simp) (by decide)
    rw [DiskFile.contents, replay_tornHeader _ _ _ short] at read
    rw [read] at replayed
    cases replayed

theorem crash_recovery_torn_batch :
    ∃ kept, kept <+: [(⟨2, 0, [7]⟩ : Record), ⟨3, 0, []⟩] ∧
      Replays crc32c .manifestLog
        [⟨1, fileHeader .manifestLog ++ frames (Record.bytes crc32c)
          [⟨1, 0, [5]⟩, ⟨2, 0, [7]⟩] ++ [3, 0, 0], []⟩]
        ([⟨1, 0, [5]⟩] ++ kept) := by
  have recovers := @crash_recovery crc32c .manifestLog {}
    [(.append ⟨1, 0, [5]⟩, {}), (.flush, {}), (.append ⟨2, 0, [7]⟩, {}),
      (.append ⟨3, 0, []⟩, {}), (.flush, { write := .crashes 20 })] (by decide) (by decide)
    [⟨1, fileHeader .manifestLog ++ frames (Record.bytes crc32c)
      [⟨1, 0, [5]⟩, ⟨2, 0, [7]⟩] ++ [3, 0, 0], []⟩]
    (.cons ⟨frames (Record.bytes crc32c) [⟨2, 0, [7]⟩] ++ [3, 0, 0], by decide +kernel,
      by decide +kernel⟩ .nil)
  exact recovers.whole (by decide +kernel)

end OneLink.Wal
