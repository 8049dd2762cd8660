/-
# Wal.Shape -- a log as the records it holds, and where each lies

A `Shape` is a log seen from above: sealed files of records, an active file and
the batch that waits for its flush.  `Shape.log` is the writer and disk it stands
for.  Between operations a writer that no I/O call failed is always such a log,
and the operations act on it by the records (`flush_shape`, `rotate_shape`,
`append_shape`).  When an operation is cut off, `Interrupted` says what the disk
may hold: a part of the batch, or a part of a new file's header.

`places` lists the records of a log's files with their coordinates.  Appending
adds a place at the coordinate the writer returns (`places_push`), flushing and
rotating move none, and at its place a record can be read back
(`contents_place`).
-/
import OneLink.Wal.Writer

namespace OneLink.Wal

open Library

set_option autoImplicit false

structure Shape where
  kind : LogKind
  sealedFiles : List (Nat × List Record)
  active : Nat
  records : List Record
  batch : List Record
  ascending : Ascending (sealedFiles ++ [(active, records)])
  fits : ∀ r ∈ recordsOf (sealedFiles ++ [(active, records)]) ++ batch, r.Fits

namespace Shape

/-- All files, the active one last. -/
def files (s : Shape) : List (Nat × List Record) := s.sealedFiles ++ [(s.active, s.records)]

theorem older (s : Shape) {f : Nat × List Record} (member : f ∈ s.sealedFiles) : f.1 < s.active :=
  (List.pairwise_append.mp s.ascending).2.2 f member _ (List.mem_singleton_self _)

theorem batch_fits (s : Shape) : ∀ r ∈ s.batch, r.Fits :=
  fun r member => s.fits r (List.mem_append_right _ member)

theorem files_fit (s : Shape) : ∀ r ∈ recordsOf s.files, r.Fits :=
  fun r member => s.fits r (List.mem_append_left _ member)

theorem recordsOf_snoc (files : List (Nat × List Record)) (id : Nat) (rs : List Record) :
    recordsOf (files ++ [(id, rs)]) = recordsOf files ++ rs := by
  simp [recordsOf]

theorem ascending_snoc {files : List (Nat × List Record)} {id : Nat} {rs : List Record} :
    Ascending (files ++ [(id, rs)]) ↔ Ascending files ∧ ∀ f ∈ files, f.1 < id := by
  simp [Ascending, List.pairwise_append]

/-! ### What the operations do to the records -/

/-- The batch becomes part of the active file. -/
def flush (s : Shape) : Shape :=
  { s with
    records := s.records ++ s.batch
    batch := []
    ascending := ascending_snoc.mpr (ascending_snoc.mp s.ascending)
    fits := by
      have fits := s.fits
      simpa only [recordsOf_snoc, List.append_assoc, List.append_nil] using fits }

/-- The active file is sealed and the next one begun. -/
def rotate (s : Shape) : Shape where
  kind := s.kind
  sealedFiles := s.flush.files
  active := s.active + 1
  records := []
  batch := []
  ascending := by
    refine ascending_snoc.mpr ⟨s.flush.ascending, fun f member => ?_⟩
    obtain older | rfl : f ∈ s.sealedFiles ∨ f = (s.active, s.records ++ s.batch) := by
      simpa [files, flush] using member
    · exact Nat.lt_succ_of_lt (s.older older)
    · exact Nat.lt_succ_self _
  fits := by
    intro r member
    rw [List.append_nil, recordsOf_snoc, List.append_nil] at member
    exact s.flush.fits r (List.mem_append_left _ member)

def push (s : Shape) (r : Record) (fits : r.Fits) : Shape :=
  { s with
    batch := s.batch ++ [r]
    fits := by
      intro other member
      rw [← List.append_assoc, List.mem_append, List.mem_singleton] at member
      obtain earlier | rfl := member
      · exact s.fits other earlier
      · exact fits }

end Shape

section Crc

variable (crc32c : Bytes → UInt32)

/-- The active file with a part of what came behind its records. -/
def Shape.diskWith (s : Shape) (part : Bytes) : Disk :=
  image crc32c s.kind s.sealedFiles ++
    [⟨s.active, fileHeader s.kind ++ frames (Record.bytes crc32c) s.records, part⟩]

def Shape.wal (s : Shape) : Wal :=
  ⟨s.kind, s.active, fileHeaderLen + (frames (Record.bytes crc32c) s.records).length,
    frames (Record.bytes crc32c) s.batch⟩

/-- The writer and the disk the shape stands for. -/
def Shape.log (s : Shape) : Log :=
  ⟨s.diskWith crc32c [], s.wal crc32c, recordsOf s.files, s.batch⟩

/-- A log whose operation was cut off. -/
inductive Interrupted (s : Shape) : Log → Prop
  | inBatch {part : Bytes} (isPrefix : part <+: frames (Record.bytes crc32c) s.batch) :
      Interrupted s { s.log crc32c with disk := s.diskWith crc32c part }
  | inHeader {part : Bytes} (isPrefix : part <+: fileHeader s.kind) (flushed : s.batch = []) :
      Interrupted s
        { s.log crc32c with disk := image crc32c s.kind s.files ++ [⟨s.active + 1, [], part⟩] }

/-- Where the next record goes. -/
def Shape.tip (s : Shape) : AppendPosition :=
  ⟨s.active, fileHeaderLen + (frames (Record.bytes crc32c) s.records).length +
    (frames (Record.bytes crc32c) s.batch).length⟩

/-- The log in which a record of this length is appended: a new file when it does
not fit into the active one. -/
def Shape.room (s : Shape) (r : Record) : Shape :=
  if (s.tip crc32c).offset + r.onDiskLen > rotationSize then s.rotate else s

/-- Some I/O call of the operation fails. -/
def Io.Faulty (io : Io) : Prop :=
  io.write.isFault ∨ io.sync.isFault ∨ io.create.isFault ∨ io.header.isFault ∨
    io.headerSync.isFault

instance (io : Io) : Decidable io.Faulty := inferInstanceAs (Decidable (_ ∨ _ ∨ _ ∨ _ ∨ _))

/-- An operation that did not return: the machine stopped, or an I/O call failed. -/
def Stopped {α : Type} (io : Io) (exit : Exit WalError α) : Prop :=
  exit = .crashed ∨ io.Faulty ∧ exit = .raised .io

/-! ### The operations of a writer on its shape -/

variable {crc32c}

theorem diskWith_nil (s : Shape) : s.diskWith crc32c [] = image crc32c s.kind s.files := by
  simp [Shape.diskWith, Shape.files, image]

theorem modify_active (s : Shape) (part : Bytes) (change : DiskFile → DiskFile) :
    Disk.modifyFile (s.diskWith crc32c part) s.active change =
      image crc32c s.kind s.sealedFiles ++
        [change ⟨s.active, fileHeader s.kind ++ frames (Record.bytes crc32c) s.records, part⟩] := by
  apply Disk.modifyFile_append _ rfl
  intro f member
  obtain ⟨g, older, rfl⟩ := List.mem_map.mp member
  exact Nat.ne_of_lt (s.older older)

theorem onDisk_returned {α : Type} {m : Faulty Disk WalError α} {log : Log} {a : α} {disk : Disk}
    (ran : m log.disk = (.returned a, disk)) :
    onDisk m log = (.returned a, { log with disk }) := by
  simp only [onDisk, Faulty.onPart, ran]

theorem onDisk_raised {α : Type} {m : Faulty Disk WalError α} {log : Log} {err : WalError}
    {disk : Disk} (ran : m log.disk = (.raised err, disk)) :
    onDisk m log = (.raised err, { log with disk }) := by
  simp only [onDisk, Faulty.onPart, ran, id]

theorem onDisk_crashed {α : Type} {m : Faulty Disk WalError α} {log : Log} {disk : Disk}
    (ran : m log.disk = (.crashed, disk)) :
    onDisk m log = (.crashed, { log with disk }) := by
  simp only [onDisk, Faulty.onPart, ran]

theorem frames_eq_nil {rs : List Record} :
    frames (Record.bytes crc32c) rs = [] ↔ rs = [] := by
  cases rs with
  | nil => simp
  | cons r rs => simp [bytes_ne_nil]

theorem Shape.flush_of_empty {s : Shape} (empty : s.batch = []) : s.flush = s := by
  obtain ⟨kind, sealedFiles, active, records, batch, ascending, fits⟩ := s
  obtain rfl : batch = [] := empty
  simp [Shape.flush]

theorem write_shape (s : Shape) (fate : Fate) (bytes : Bytes) :
    writeAll WalError.io s.active fate bytes (s.diskWith crc32c []) =
      match fate with
      | .done => (.returned (), s.diskWith crc32c bytes)
      | .fails written => (.raised .io, s.diskWith crc32c (bytes.take written))
      | .crashes written => (.crashed, s.diskWith crc32c (bytes.take written)) := by
  cases fate <;> simp only [writeAll, modify_active] <;> rfl

theorem sync_shape (s : Shape) :
    syncData WalError.io s.active .done
        (s.diskWith crc32c (frames (Record.bytes crc32c) s.batch)) =
      (.returned (), s.flush.diskWith crc32c []) := by
  simp only [syncData, modify_active]
  simp [Shape.diskWith, Shape.flush, DiskFile.sync, DiskFile.contents]

/-- What a flush does: the whole batch is durable, or a part of it was written and
the writer has not moved. -/
theorem flush_shape (s : Shape) (io : Io) :
    flush io (s.log crc32c) = (.returned (), s.flush.log crc32c) ∨
      ∃ part, part <+: frames (Record.bytes crc32c) s.batch ∧
        ∃ exit, Stopped io exit ∧
          flush io (s.log crc32c) =
            (exit, { s.log crc32c with disk := s.diskWith crc32c part }) := by
  by_cases empty : s.batch = []
  · left
    have none : (s.log crc32c).wal.pending = [] := frames_eq_nil.mpr empty
    rw [s.flush_of_empty empty, Wal.flush, Faulty.read_bind, if_pos none]
    rfl
  have some : (s.log crc32c).wal.pending ≠ [] := fun none => empty (frames_eq_nil.mp none)
  have wrote := @write_shape crc32c s io.write (frames (Record.bytes crc32c) s.batch)
  rw [Wal.flush, Faulty.read_bind, if_neg some]
  cases write : io.write with
  | fails written =>
    rw [write] at wrote
    right
    refine ⟨_, List.take_prefix written _, _, .inr ⟨?_, rfl⟩, ?_⟩
    · simp [Io.Faulty, write, Fate.isFault]
    · exact Faulty.bind_raised (onDisk_raised wrote)
  | crashes written =>
    rw [write] at wrote
    right
    exact ⟨_, List.take_prefix written _, _, .inl rfl,
      Faulty.bind_crashed (onDisk_crashed wrote)⟩
  | done =>
    rw [write] at wrote
    rw [Faulty.bind_returned (onDisk_returned wrote)]
    cases sync : io.sync with
    | done =>
      left
      rw [Faulty.bind_returned (onDisk_returned (sync_shape s)), Faulty.run_modify]
      simp [Shape.log, Shape.wal, Shape.flush, Shape.files, Shape.recordsOf_snoc,
        Nat.add_assoc]
    | fails written =>
      right
      refine ⟨_, List.prefix_rfl, _, .inr ⟨?_, rfl⟩, ?_⟩
      · simp [Io.Faulty, sync, Fate.isFault]
      · exact Faulty.bind_raised (onDisk_raised rfl)
    | crashes written =>
      right
      exact ⟨_, List.prefix_rfl, _, .inl rfl, Faulty.bind_crashed (onDisk_crashed rfl)⟩

/-- The disk while the next file is made: behind the others, with a part of its
header. -/
def Shape.begun (crc32c : Bytes → UInt32) (s : Shape) (part : Bytes) : Disk :=
  image crc32c s.kind s.files ++ [⟨s.active + 1, [], part⟩]

theorem files_older (s : Shape) {f : DiskFile} (member : f ∈ image crc32c s.kind s.files) :
    f.id < s.active + 1 := by
  obtain ⟨g, inFiles, rfl⟩ := List.mem_map.mp member
  obtain older | rfl := List.mem_append.mp inFiles |>.imp_right List.mem_singleton.mp
  · exact Nat.lt_succ_of_lt (s.older older)
  · exact Nat.lt_succ_self _

theorem modify_begun (s : Shape) (part : Bytes) (change : DiskFile → DiskFile) :
    Disk.modifyFile (s.begun crc32c part) (s.active + 1) change =
      image crc32c s.kind s.files ++ [change ⟨s.active + 1, [], part⟩] :=
  Disk.modifyFile_append (fun _ member => Nat.ne_of_lt (files_older s member)) rfl

theorem createNew_shape (s : Shape) (fate : Fate) :
    createNew WalError.io (s.active + 1) fate (s.diskWith crc32c []) =
      match fate with
      | .done => (.returned (), s.begun crc32c [])
      | .fails _ => (.raised .io, s.diskWith crc32c [])
      | .crashes _ => (.crashed, s.diskWith crc32c []) := by
  have fresh : ¬ ∃ f ∈ s.diskWith crc32c [], f.id = s.active + 1 := by
    rintro ⟨f, member, same⟩
    rw [diskWith_nil] at member
    exact Nat.ne_of_lt (files_older s member) same
  cases fate with
  | done =>
    simp only [createNew, if_neg fresh]
    rw [diskWith_nil]
    rfl
  | fails _ => rfl
  | crashes _ => rfl

theorem begun_synced (s : Shape) (flushed : s.batch = []) :
    Disk.modifyFile (s.begun crc32c (fileHeader s.kind)) (s.active + 1) (·.sync) =
      s.rotate.diskWith crc32c [] := by
  rw [modify_begun]
  simp [Shape.diskWith, Shape.rotate, DiskFile.sync, DiskFile.contents, s.flush_of_empty flushed]

/-- Making the next file: it stands synced behind the others, or a part of its
header does. -/
theorem createFile_shape (s : Shape) (io : Io) (flushed : s.batch = []) :
    createFile s.kind (s.active + 1) io (s.diskWith crc32c []) =
        (.returned (), s.rotate.diskWith crc32c []) ∨
      ∃ disk, Interrupted crc32c s { s.log crc32c with disk } ∧
        ∃ exit, Stopped io exit ∧
          createFile s.kind (s.active + 1) io (s.diskWith crc32c []) = (exit, disk) := by
  have untouched : Interrupted crc32c s { s.log crc32c with disk := s.diskWith crc32c [] } :=
    .inBatch (List.nil_prefix)
  have partly (n : Nat) : Interrupted crc32c s
      { s.log crc32c with disk := s.begun crc32c ((fileHeader s.kind).take n) } :=
    .inHeader (List.take_prefix _ _) flushed
  have whole : Interrupted crc32c s
      { s.log crc32c with disk := s.begun crc32c (fileHeader s.kind) } :=
    .inHeader List.prefix_rfl flushed
  have made := @createNew_shape crc32c s io.create
  rw [createFile]
  cases create : io.create with
  | fails n =>
    rw [create] at made
    refine .inr ⟨_, untouched, _, .inr ⟨?_, rfl⟩, Faulty.bind_raised made⟩
    simp [Io.Faulty, create, Fate.isFault]
  | crashes n =>
    rw [create] at made
    exact .inr ⟨_, untouched, _, .inl rfl, Faulty.bind_crashed made⟩
  | done =>
    rw [create] at made
    rw [Faulty.bind_returned made]
    cases header : io.header with
    | fails n =>
      refine .inr ⟨_, partly n, _, .inr ⟨?_, rfl⟩, ?_⟩
      · simp [Io.Faulty, header, Fate.isFault]
      · apply Faulty.bind_raised
        simp only [writeAll, modify_begun]
        rfl
    | crashes n =>
      refine .inr ⟨_, partly n, _, .inl rfl, ?_⟩
      apply Faulty.bind_crashed
      simp only [writeAll, modify_begun]
      rfl
    | done =>
      have wrote : writeAll WalError.io (s.active + 1) .done (fileHeader s.kind)
          (s.begun crc32c []) = (.returned (), s.begun crc32c (fileHeader s.kind)) := by
        simp only [writeAll, modify_begun]
        rfl
      rw [Faulty.bind_returned wrote]
      cases sync : io.headerSync with
      | done =>
        left
        simp only [syncData, begun_synced s flushed]
      | fails n =>
        refine .inr ⟨_, whole, _, .inr ⟨?_, rfl⟩, rfl⟩
        simp [Io.Faulty, sync, Fate.isFault]
      | crashes n => exact .inr ⟨_, whole, _, .inl rfl, rfl⟩

theorem flush_rotate (s : Shape) : s.flush.rotate = s.rotate := by
  have settled : s.flush.flush = s.flush := Shape.flush_of_empty rfl
  simp only [Shape.rotate, settled]
  rfl

/-- What a rotation does, and what is left when it does not get through. -/
theorem rotate_shape (s : Shape) (io : Io) :
    rotate io (s.log crc32c) = (.returned (), s.rotate.log crc32c) ∨
      ∃ log exit, (Interrupted crc32c s log ∨ Interrupted crc32c s.flush log) ∧
        Stopped io exit ∧ rotate io (s.log crc32c) = (exit, log) := by
  rw [rotate]
  obtain flushed | ⟨part, isPrefix, exit, stopped, ran⟩ := @flush_shape crc32c s io
  · rw [Faulty.bind_returned flushed, Faulty.read_bind]
    obtain made | ⟨disk, interrupted, exit, stopped, ran⟩ :=
      @createFile_shape crc32c s.flush io rfl
    · left
      rw [Faulty.bind_returned (onDisk_returned made), Faulty.run_modify, flush_rotate]
      simp [Shape.log, Shape.wal, Shape.rotate, Shape.files, Shape.flush, recordsOf]
    · refine .inr ⟨_, exit, .inr interrupted, stopped, ?_⟩
      obtain rfl | ⟨_, rfl⟩ := stopped
      · exact Faulty.bind_crashed (onDisk_crashed ran)
      · exact Faulty.bind_raised (onDisk_raised ran)
  · refine .inr ⟨_, exit, .inl (.inBatch isPrefix), stopped, ?_⟩
    obtain rfl | ⟨_, rfl⟩ := stopped
    · exact Faulty.bind_crashed ran
    · exact Faulty.bind_raised ran

theorem reserve_shape (s : Shape) {r : Record} (fits : r.Fits) :
    reserve r (r.bytes crc32c) (s.log crc32c) =
      (.returned (s.tip crc32c), (s.push r fits).log crc32c) := by
  rw [reserve, Faulty.read_bind, Faulty.modify_bind, Faulty.run_pure]
  simp [Shape.log, Shape.wal, Shape.push, Shape.tip, Shape.files, Shape.diskWith]

/-- A record that may be written at all fits into an empty file. -/
theorem fits_file {r : Record} (fits : r.Fits) :
    ¬ fileHeaderLen + (r.bytes crc32c).length > rotationSize := by
  have small : r.payload.length ≤ maxPayloadLen := fits
  rw [length_bytes]
  simp only [Record.onDiskLen, fileHeaderLen, rotationSize, recordHeaderLen, recordTrailerLen,
    maxPayloadLen] at *
  omega

theorem append_oversized {r : Record} (oversized : ¬ r.Fits) (io : Io) (log : Log) :
    append crc32c r io log = (.raised (.payloadTooLarge r.payload.length maxPayloadLen), log) := by
  have refused : r.encode crc32c = .error (.payloadTooLarge r.payload.length maxPayloadLen) := by
    rw [Record.encode, require_of_not oversized]
    rfl
  rw [append, refused]
  rfl

theorem append_fits {r : Record} (fits : r.Fits) (io : Io) (log : Log) :
    append crc32c r io log =
      if log.wal.fileSize + log.wal.pending.length + r.onDiskLen > rotationSize then
        (rotate io >>= fun _ => reserve r (r.bytes crc32c)) log
      else reserve r (r.bytes crc32c) log := by
  have encoded : r.encode crc32c = .ok (r.bytes crc32c) := (encode_eq_ok crc32c).mpr ⟨fits, rfl⟩
  rw [append, encoded, Faulty.ofExcept, Faulty.pure_bind_run, if_neg (fits_file fits),
    Faulty.read_bind, length_bytes]
  split <;> rfl

/-- What an append does: the record waits behind the others, in the active file or
in a new one. -/
theorem append_shape (s : Shape) (r : Record) (io : Io) :
    (¬ r.Fits ∧ append crc32c r io (s.log crc32c) =
        (.raised (.payloadTooLarge r.payload.length maxPayloadLen), s.log crc32c)) ∨
      (∃ fits, append crc32c r io (s.log crc32c) =
        (.returned ((s.room crc32c r).tip crc32c), ((s.room crc32c r).push r fits).log crc32c)) ∨
      ∃ log exit, (Interrupted crc32c s log ∨ Interrupted crc32c s.flush log) ∧
        Stopped io exit ∧ append crc32c r io (s.log crc32c) = (exit, log) := by
  by_cases fits : r.Fits
  · right
    have ran : append crc32c r io (s.log crc32c) =
        if (s.tip crc32c).offset + r.onDiskLen > rotationSize then
          (rotate io >>= fun _ => reserve r (r.bytes crc32c)) (s.log crc32c)
        else reserve r (r.bytes crc32c) (s.log crc32c) := append_fits fits io _
    rw [ran]
    by_cases rotates : (s.tip crc32c).offset + r.onDiskLen > rotationSize
    · rw [if_pos rotates, Shape.room, if_pos rotates]
      obtain rotated | ⟨log, exit, interrupted, stopped, ran⟩ := @rotate_shape crc32c s io
      · exact .inl ⟨fits, by rw [Faulty.bind_returned rotated, reserve_shape _ fits]⟩
      · refine .inr ⟨log, ?_⟩
        obtain rfl | ⟨faulty, rfl⟩ := stopped
        · exact ⟨_, interrupted, .inl rfl, Faulty.bind_crashed ran⟩
        · exact ⟨_, interrupted, .inr ⟨faulty, rfl⟩, Faulty.bind_raised ran⟩
    · rw [if_neg rotates, Shape.room, if_neg rotates]
      exact .inl ⟨fits, reserve_shape s fits⟩
  · exact .inl ⟨fits, append_oversized fits io _⟩

end Crc

structure Place where
  position : AppendPosition
  record : Record
deriving DecidableEq, Repr

/-- The places of records that follow one another from `cursor` on. -/
def placesFrom (fileId : Nat) : Nat → List Record → List Place
  | _, [] => []
  | cursor, r :: rs => ⟨⟨fileId, cursor⟩, r⟩ :: placesFrom fileId (cursor + r.onDiskLen) rs

def places (files : List (Nat × List Record)) : List Place :=
  files.flatMap fun f => placesFrom f.1 fileHeaderLen f.2

/-- All places of a log, those of its batch included. -/
def Shape.places (s : Shape) : List Place :=
  Wal.places (s.sealedFiles ++ [(s.active, s.records ++ s.batch)])

theorem placesFrom_records (fileId cursor : Nat) (rs : List Record) :
    (placesFrom fileId cursor rs).map Place.record = rs := by
  induction rs generalizing cursor with
  | nil => rfl
  | cons r rs ih => rw [placesFrom, List.map_cons, ih]

theorem places_records (files : List (Nat × List Record)) :
    (places files).map Place.record = recordsOf files := by
  induction files with
  | nil => rfl
  | cons f files ih =>
    have split : places (f :: files) = placesFrom f.1 fileHeaderLen f.2 ++ places files := rfl
    rw [split, List.map_append, placesFrom_records, ih]
    rfl

section Crc

variable (crc32c : Bytes → UInt32)

theorem placesFrom_append (fileId cursor : Nat) (early late : List Record) :
    placesFrom fileId cursor (early ++ late) = placesFrom fileId cursor early ++
      placesFrom fileId (cursor + (frames (Record.bytes crc32c) early).length) late := by
  induction early generalizing cursor with
  | nil => simp [placesFrom]
  | cons r early ih => simp [placesFrom, ih, Nat.add_assoc]

theorem mem_placesFrom {fileId cursor : Nat} {rs : List Record} {p : Place}
    (member : p ∈ placesFrom fileId cursor rs) :
    p.position.fileId = fileId ∧ ∃ early late, rs = early ++ p.record :: late ∧
      p.position.offset = cursor + (frames (Record.bytes crc32c) early).length := by
  induction rs generalizing cursor with
  | nil => cases member
  | cons r rs ih =>
    obtain rfl | later := List.mem_cons.mp member
    · exact ⟨rfl, [], rs, rfl, rfl⟩
    · obtain ⟨file, early, late, rfl, offset⟩ := ih later
      refine ⟨file, r :: early, late, rfl, ?_⟩
      rw [offset, frames_cons, List.length_append, length_bytes, Nat.add_assoc]

theorem find_image {kind : LogKind} {files : List (Nat × List Record)} (ascending : Ascending files)
    {f : Nat × List Record} (member : f ∈ files) :
    (image crc32c kind files).find? (·.id = f.1) =
      some ⟨f.1, fileHeader kind ++ frames (Record.bytes crc32c) f.2, []⟩ := by
  induction files with
  | nil => cases member
  | cons g files ih =>
    obtain ⟨less, rest⟩ := List.pairwise_cons.mp ascending
    obtain rfl | later := List.mem_cons.mp member
    · exact List.find?_cons_of_pos (decide_eq_true rfl)
    · have other : g.1 ≠ f.1 := Nat.ne_of_lt (less f later)
      rw [image, List.map_cons, List.find?_cons_of_neg (by simpa using other)]
      exact ih rest later

/-- At its place a record can be read back. -/
theorem contents_place {kind : LogKind} {files : List (Nat × List Record)}
    (ascending : Ascending files) {p : Place} (member : p ∈ places files) :
    ∃ f, (image crc32c kind files).find? (·.id = p.position.fileId) = some f ∧
      ∃ rest, f.contents.drop p.position.offset = p.record.bytes crc32c ++ rest := by
  obtain ⟨file, inFiles, here⟩ := List.mem_flatMap.mp member
  obtain ⟨sameFile, early, late, split, offset⟩ := mem_placesFrom crc32c here
  refine ⟨⟨file.1, fileHeader kind ++ frames (Record.bytes crc32c) file.2, []⟩, ?_,
    frames (Record.bytes crc32c) late, ?_⟩
  · rw [sameFile]
    exact find_image crc32c ascending inFiles
  · have start : (fileHeader kind ++ frames (Record.bytes crc32c) early).length =
        p.position.offset := by
      rw [offset, List.length_append, length_fileHeader]
    rw [DiskFile.contents, List.append_nil, split, frames_append, frames_cons, ← List.append_assoc]
    exact List.drop_left' start

/-! ### How the operations move places -/

theorem places_flush (s : Shape) : s.flush.places = s.places := by
  simp [Shape.places, Shape.flush]

theorem places_rotate (s : Shape) : s.rotate.places = s.places := by
  simp [Shape.places, Shape.rotate, Shape.files, Shape.flush, Wal.places, placesFrom]

theorem places_room (s : Shape) (r : Record) : (s.room crc32c r).places = s.places := by
  unfold Shape.room
  split
  · exact places_rotate s
  · rfl

theorem room_kind (s : Shape) (r : Record) : (s.room crc32c r).kind = s.kind := by
  unfold Shape.room
  split <;> rfl

theorem push_kind (s : Shape) {r : Record} (fits : r.Fits) : (s.push r fits).kind = s.kind := rfl

/-- An appended record lies where the writer said. -/
theorem places_push (s : Shape) {r : Record} (fits : r.Fits) :
    (s.push r fits).places = s.places ++ [⟨s.tip crc32c, r⟩] := by
  have batched := placesFrom_append crc32c s.active fileHeaderLen (s.records ++ s.batch) [r]
  simp only [Shape.places, Shape.push, Wal.places, List.flatMap_append, List.flatMap_cons,
    List.flatMap_nil, List.append_nil, ← List.append_assoc, batched]
  simp [placesFrom, Shape.tip, Nat.add_assoc]

end Crc

end OneLink.Wal
