/-
# Wal.Replay — scanning a log directory

`replayLogDir` reads the files in ascending id order and every record of each.
Only the last file may be repaired: a tail that no complete record explains is
cut off there, and anything else is reported as corruption.

* `scan_frames`: complete records are read in order, and the scan goes on behind
  them;
* `scan_tornTail`: a proper part of a record at the end is where the file is cut;
* `replayLogDir_image`: a directory of complete records replays to them and stays
  as it is;
* `scan_accounts`: a scan that cuts nothing accounts for every byte.
-/
import Mathlib.Data.List.Sort
import OneLink.Library.FaultyDisk
import OneLink.Wal.Record

namespace OneLink.Wal

open Library

set_option autoImplicit false

structure ReplayOutcome where
  records : List Record := []
  bytesScanned : Nat := 0
  /-- Files truncated during recovery: the file's id and its new length. -/
  truncated : List (Nat × Nat) := []
deriving DecidableEq, Repr

/-- How `replay_log_dir` combines the outcomes of its files. -/
def ReplayOutcome.extend (combined outcome : ReplayOutcome) : ReplayOutcome :=
  ⟨combined.records ++ outcome.records, combined.bytesScanned + outcome.bytesScanned,
    combined.truncated ++ outcome.truncated⟩

/-- What the record loop of one file has collected. -/
structure Scan where
  records : List Record
  bytesScanned : Nat
  truncatedAt : Option Nat
deriving DecidableEq, Repr

/-- The outcome of one file: cut where the loop stopped, or left at its length. -/
def Scan.outcome (path fileLen : Nat) (s : Scan) : ReplayOutcome × Nat :=
  match s.truncatedAt with
  | some cut => (⟨s.records, fileHeaderLen + s.bytesScanned, [(path, cut)]⟩, cut)
  | none => (⟨s.records, fileHeaderLen + s.bytesScanned, []⟩, fileLen)

section Crc

variable (crc32c : Bytes → UInt32)

/-- The record loop of `replay_log_file_with_policy`: `rest` is what the file
holds from `cursor` on. -/
def scanRecords (path : Nat) (allowTailRepair : Bool) (cursor : Nat) (rest : Bytes) :
    Except WalError Scan :=
  if rest = [] then .ok ⟨[], 0, none⟩
  else if rest.length < recordHeaderLen then
    -- torn record header in the tail
    if allowTailRepair then .ok ⟨[], 0, some cursor⟩
    else .error (.nonTailCorruption path cursor)
  else
    match parseHeader (rest.take recordHeaderLen) cursor with
    | .error _ =>
      if ¬ allowTailRepair ∨
          rest.length > recordHeaderLen + maxPayloadLen + recordTrailerLen then
        .error (.nonTailCorruption path cursor)
      else .ok ⟨[], 0, some cursor⟩
    | .ok header =>
      if recordHeaderLen + header.length + recordTrailerLen > rest.length then
        -- torn payload or trailer in the tail
        if allowTailRepair then .ok ⟨[], 0, some cursor⟩
        else .error (.nonTailCorruption path cursor)
      else if crcValid crc32c
          (rest.take (recordHeaderLen + header.length + recordTrailerLen)) = false then
        if ¬ allowTailRepair ∨
            recordHeaderLen + header.length + recordTrailerLen ≠ rest.length then
          .error (.nonTailCorruption path cursor)
        else .ok ⟨[], 0, some cursor⟩
      else
        match scanRecords path allowTailRepair
            (cursor + (recordHeaderLen + header.length + recordTrailerLen))
            (rest.drop (recordHeaderLen + header.length + recordTrailerLen)) with
        | .error err => .error err
        | .ok later =>
          .ok ⟨⟨header.kind, header.flags, (rest.drop recordHeaderLen).take header.length⟩ ::
              later.records,
            (recordHeaderLen + header.length + recordTrailerLen) + later.bytesScanned,
            later.truncatedAt⟩
termination_by rest.length
decreasing_by
  simp only [List.length_drop, recordHeaderLen] at *
  omega

/-- `replay_log_file_with_policy`: what was recovered and the file's final
length. -/
def replayLogFileWithPolicy (path : Nat) (file : Bytes) (expectedKind : LogKind)
    (allowTailRepair : Bool) : Except WalError (ReplayOutcome × Nat) := do
  -- a torn header is fatal: refuse to load
  require (fileHeaderLen ≤ file.length) (.invalidHeaderReserved path)
  let kind ← parseFileHeader (file.take fileHeaderLen) path
  require (kind = expectedKind) (.magicMismatch path kind.debug expectedKind.debug)
  let scan ← scanRecords crc32c path allowTailRepair fileHeaderLen (file.drop fileHeaderLen)
  return scan.outcome path file.length

/-- The file loop of `replay_log_dir`, with the disk as the replays so far have
left it. -/
def replayFiles (expectedKind : LogKind) :
    List DiskFile → Disk → ReplayOutcome → Except WalError ReplayOutcome × Disk
  | [], disk, combined => (.ok combined, disk)
  | f :: rest, disk, combined =>
    match replayLogFileWithPolicy crc32c f.id f.contents expectedKind rest.isEmpty with
    | .error err => (.error err, disk)
    | .ok (outcome, finalLen) =>
      replayFiles expectedKind rest
        (if outcome.truncated = [] then disk else disk.modifyFile f.id (·.setLen finalLen))
        (combined.extend outcome)

/-- The log files by ascending id. -/
def sortedLogFiles (disk : Disk) : List DiskFile :=
  disk.insertionSort fun f g => f.id ≤ g.id

def replayLogDir (disk : Disk) (expectedKind : LogKind) :
    Except WalError ReplayOutcome × Disk :=
  replayFiles crc32c expectedKind (sortedLogFiles disk) disk {}

/-! ## The record loop -/

section Scan

variable (path cursor : Nat) (allow : Bool)

/-- A scan that has read these records before. -/
def Scan.prepend (rs : List Record) (s : Scan) : Scan :=
  ⟨rs ++ s.records, (frames (Record.bytes crc32c) rs).length + s.bytesScanned, s.truncatedAt⟩

theorem scan_nil : scanRecords crc32c path allow cursor [] = .ok ⟨[], 0, none⟩ := by
  rw [scanRecords, if_pos rfl]

/-- A complete record is read, and the scan goes on behind it. -/
theorem scan_cons {r : Record} (fits : r.Fits) (rest : Bytes) :
    scanRecords crc32c path allow cursor (r.bytes crc32c ++ rest) =
      (scanRecords crc32c path allow (cursor + r.onDiskLen) rest).map (·.prepend crc32c [r]) := by
  obtain ⟨record, behind, payload⟩ := record_read crc32c r rest
  have length : (r.bytes crc32c ++ rest).length = r.onDiskLen + rest.length := by
    rw [List.length_append, length_bytes]
  have onDisk : r.onDiskLen = recordHeaderLen + r.payload.length + recordTrailerLen := rfl
  rw [scanRecords, if_neg (by simp [bytes_ne_nil]),
    if_neg (by rw [length, onDisk]; omega)]
  simp only [parseHeader_bytes crc32c fits]
  rw [if_neg (by rw [length, onDisk]; omega), ← onDisk, record, behind, payload,
    crcValid_bytes, if_neg (by decide)]
  cases scanRecords crc32c path allow (cursor + r.onDiskLen) rest with
  | error err => rfl
  | ok later => simp [Except.map, Scan.prepend]

theorem scan_frames {rs : List Record} (fits : ∀ r ∈ rs, r.Fits) (rest : Bytes) :
    scanRecords crc32c path allow cursor (frames (Record.bytes crc32c) rs ++ rest) =
      (scanRecords crc32c path allow
        (cursor + (frames (Record.bytes crc32c) rs).length) rest).map (·.prepend crc32c rs) := by
  induction rs generalizing cursor with
  | nil =>
    rw [frames_nil, List.nil_append, List.length_nil, Nat.add_zero]
    cases scanRecords crc32c path allow cursor rest with
    | error err => rfl
    | ok later => simp [Except.map, Scan.prepend]
  | cons r rs ih =>
    rw [List.forall_mem_cons] at fits
    rw [frames_cons, List.append_assoc, scan_cons crc32c path cursor allow fits.1, ih _ fits.2,
      List.length_append, length_bytes, Nat.add_assoc]
    cases scanRecords crc32c path allow
        (cursor + (r.onDiskLen + (frames (Record.bytes crc32c) rs).length)) rest with
    | error err => rfl
    | ok later => simp [Except.map, Scan.prepend, Nat.add_assoc]

/-- A proper part of a record at the end of the last file is where it is cut. -/
theorem scan_tornTail {pending : List Record} {tail : Bytes} (fits : ∀ r ∈ pending, r.Fits)
    (torn : TornTail (Record.bytes crc32c) pending tail) :
    scanRecords crc32c path true cursor tail =
      .ok ⟨[], 0, if tail = [] then none else some cursor⟩ := by
  cases torn with
  | clean => rw [scan_nil, if_pos rfl]
  | @torn next later part begun short =>
    by_cases empty : tail = []
    · rw [empty, scan_nil, if_pos rfl]
    obtain ⟨missing, whole⟩ := begun
    have length : tail.length < next.onDiskLen := by rw [← length_bytes crc32c]; exact short
    rw [scanRecords, if_neg empty, if_neg empty]
    by_cases header : tail.length < recordHeaderLen
    · rw [if_pos header, if_pos rfl]
    -- the header is whole, so the length it announces is the real one
    have parsed := parseHeader_bytes crc32c (fits next (by simp)) [] cursor
    rw [List.append_nil, ← whole, List.take_append_of_le_length (by omega)] at parsed
    rw [if_neg header]
    simp only [parsed]
    have beyond : recordHeaderLen + next.payload.length + recordTrailerLen > tail.length :=
      length
    rw [if_pos beyond, if_pos trivial]

/-- A scan that cuts nothing accounts for every byte by a record it returns. -/
theorem scan_accounts {rest : Bytes} {s : Scan}
    (scanned : scanRecords crc32c path allow cursor rest = .ok s) (uncut : s.truncatedAt = none) :
    rest.length = (frames (Record.bytes crc32c) s.records).length := by
  fun_induction scanRecords crc32c path allow cursor rest generalizing s with
  | case1 cursor =>
    obtain rfl := Except.ok.inj scanned
    rfl
  | case11 cursor rest _ long header _ inside _ later scannedLater ih =>
    obtain rfl := Except.ok.inj scanned
    have accounted := ih scannedLater uncut
    rw [List.length_drop] at accounted
    have payload : ((rest.drop recordHeaderLen).take header.length).length = header.length := by
      rw [List.length_take, List.length_drop]
      omega
    rw [frames_cons, List.length_append, length_bytes]
    simp only [Record.onDiskLen, payload]
    omega
  -- the other exits are errors or cuts
  | _ =>
    cases scanned <;> cases uncut

end Scan

/-! ## Directories of complete records -/

/-- The disk that holds these records, file by file, all of it synced. -/
def image (kind : LogKind) (files : List (Nat × List Record)) : Disk :=
  files.map fun f => ⟨f.1, fileHeader kind ++ frames (Record.bytes crc32c) f.2, []⟩

def recordsOf (files : List (Nat × List Record)) : List Record := files.flatMap (·.2)

def imageOutcome (files : List (Nat × List Record)) : ReplayOutcome where
  records := recordsOf files
  bytesScanned :=
    (files.map fun f => fileHeaderLen + (frames (Record.bytes crc32c) f.2).length).sum

def Ascending (files : List (Nat × List Record)) : Prop :=
  files.Pairwise fun f g => f.1 < g.1

variable (kind : LogKind)

/-- Behind a good header a file's replay is its record loop. -/
theorem replayFile_body (path : Nat) (allow : Bool) (body : Bytes) :
    replayLogFileWithPolicy crc32c path (fileHeader kind ++ body) kind allow =
      (scanRecords crc32c path allow fileHeaderLen body).map
        (·.outcome path (fileHeaderLen + body.length)) := by
  have length : (fileHeader kind ++ body).length = fileHeaderLen + body.length := by
    rw [List.length_append, length_fileHeader]
  rw [replayLogFileWithPolicy, length, require_of (Nat.le_add_right _ _), ok_bind,
    List.take_left' (length_fileHeader kind), List.drop_left' (length_fileHeader kind),
    parseFileHeader_fileHeader, ok_bind, require_of rfl, ok_bind]
  cases scanRecords crc32c path allow fileHeaderLen body with
  | error err => rfl
  | ok s => rfl

/-- Files of complete records are read through, last or not. -/
theorem replayFiles_image {files : List (Nat × List Record)}
    (fits : ∀ r ∈ recordsOf files, r.Fits) (rest : List DiskFile) (disk : Disk)
    (combined : ReplayOutcome) :
    replayFiles crc32c kind (image crc32c kind files ++ rest) disk combined =
      replayFiles crc32c kind rest disk (combined.extend (imageOutcome crc32c files)) := by
  induction files generalizing combined with
  | nil => simp [image, imageOutcome, recordsOf, ReplayOutcome.extend]
  | cons f files ih =>
    have own : ∀ r ∈ f.2, r.Fits := fun r member => fits r (by simp [recordsOf, member])
    have others : ∀ r ∈ recordsOf files, r.Fits := by
      intro r member
      apply fits
      simp only [recordsOf, List.flatMap_cons, List.mem_append]
      exact .inr member
    have scanned := scan_frames crc32c f.1 fileHeaderLen
      ((image crc32c kind files ++ rest).isEmpty) own []
    rw [List.append_nil, scan_nil] at scanned
    have replayed := replayFile_body crc32c kind f.1
      ((image crc32c kind files ++ rest).isEmpty) (frames (Record.bytes crc32c) f.2)
    rw [scanned] at replayed
    have contents : DiskFile.contents ⟨f.1, fileHeader kind ++ frames (Record.bytes crc32c) f.2,
        []⟩ = fileHeader kind ++ frames (Record.bytes crc32c) f.2 := List.append_nil _
    show replayFiles crc32c kind (⟨f.1, _, []⟩ :: (image crc32c kind files ++ rest)) disk combined
      = _
    rw [replayFiles, contents, replayed]
    simp only [Except.map, Scan.outcome, Scan.prepend, if_true]
    rw [ih others]
    congr 1
    simp [ReplayOutcome.extend, imageOutcome, recordsOf, Nat.add_assoc]

theorem sortedLogFiles_of_ascending {disk : Disk} (ascending : disk.Pairwise fun f g => f.id < g.id) :
    sortedLogFiles disk = disk :=
  (ascending.imp fun less => Nat.le_of_lt less).insertionSort_eq

theorem image_ascending {files : List (Nat × List Record)} (ascending : Ascending files) :
    (image crc32c kind files).Pairwise fun f g => f.id < g.id := by
  unfold image
  rw [List.pairwise_map]
  exact ascending

theorem replayLogDir_image {files : List (Nat × List Record)} (ascending : Ascending files)
    (fits : ∀ r ∈ recordsOf files, r.Fits) :
    replayLogDir crc32c (image crc32c kind files) kind =
      (.ok (imageOutcome crc32c files), image crc32c kind files) := by
  have read := replayFiles_image crc32c kind fits [] (image crc32c kind files) {}
  rw [List.append_nil] at read
  rw [replayLogDir, sortedLogFiles_of_ascending (image_ascending crc32c kind ascending), read]
  simp [replayFiles, ReplayOutcome.extend]

/-- Complete files are read through; what happens is up to the last one. -/
theorem replayLogDir_last {files : List (Nat × List Record)} {last : DiskFile}
    (ascending : Ascending files) (newest : ∀ f ∈ files, f.1 < last.id)
    (fits : ∀ r ∈ recordsOf files, r.Fits) :
    replayLogDir crc32c (image crc32c kind files ++ [last]) kind =
      match replayLogFileWithPolicy crc32c last.id last.contents kind true with
      | .error err => (.error err, image crc32c kind files ++ [last])
      | .ok (outcome, finalLen) =>
        (.ok ((imageOutcome crc32c files).extend outcome),
          if outcome.truncated = [] then image crc32c kind files ++ [last]
          else image crc32c kind files ++ [last.setLen finalLen]) := by
  have older : ∀ f ∈ image crc32c kind files, f.id < last.id := by
    intro f member
    obtain ⟨g, inFiles, rfl⟩ := List.mem_map.mp member
    exact newest g inFiles
  have sorted : (image crc32c kind files ++ [last]).Pairwise fun f g => f.id < g.id :=
    List.pairwise_append.mpr ⟨image_ascending crc32c kind ascending, List.pairwise_singleton _ _,
      fun f member g single => List.mem_singleton.mp single ▸ older f member⟩
  rw [replayLogDir, sortedLogFiles_of_ascending sorted, replayFiles_image crc32c kind fits,
    replayFiles, List.isEmpty_nil]
  cases replayLogFileWithPolicy crc32c last.id last.contents kind true with
  | error err => rfl
  | ok result =>
    simp only [replayFiles,
      Disk.modifyFile_append (fun f member => Nat.ne_of_lt (older f member)) rfl]
    simp [ReplayOutcome.extend]

end Crc

end OneLink.Wal
