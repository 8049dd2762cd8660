/-
# Wal.Positions -- replay finds every record where its append said

`append` returns the coordinate its record will have, long before the bytes are written.  Here the
writer runs with any rotation threshold (`appendAt`), is dropped and opened again in between, and
every I/O call is done.  `replayPlaces` is replay with the cursor at which its loop meets each
record.

Each operation keeps the log's places and an append adds one at its end, at the coordinate it
returns (`appendAt_shape`); at the end the places are on disk, and replay meets them in that order
(`replayPlaces_shape`).
-/
import OneLink.Wal.Residue

namespace OneLink.Wal

open Library

set_option autoImplicit false

/-! ## Replay with its cursors -/

section Crc

variable (crc32c : Bytes → UInt32)

/-- The loop of `scanRecords`, with the cursor at each record. -/
def scanPlaces (path : Nat) (allowTailRepair : Bool) (cursor : Nat) (rest : Bytes) :
    Except WalError (List Place) :=
  if rest = [] then .ok []
  else if rest.length < recordHeaderLen then
    if allowTailRepair then .ok [] else .error (.nonTailCorruption path cursor)
  else
    match parseHeader (rest.take recordHeaderLen) cursor with
    | .error _ =>
      if ¬ allowTailRepair ∨
          rest.length > recordHeaderLen + maxPayloadLen + recordTrailerLen then
        .error (.nonTailCorruption path cursor)
      else .ok []
    | .ok header =>
      if recordHeaderLen + header.length + recordTrailerLen > rest.length then
        if allowTailRepair then .ok [] else .error (.nonTailCorruption path cursor)
      else if crcValid crc32c
          (rest.take (recordHeaderLen + header.length + recordTrailerLen)) = false then
        if ¬ allowTailRepair ∨
            recordHeaderLen + header.length + recordTrailerLen ≠ rest.length then
          .error (.nonTailCorruption path cursor)
        else .ok []
      else
        match scanPlaces path allowTailRepair
            (cursor + (recordHeaderLen + header.length + recordTrailerLen))
            (rest.drop (recordHeaderLen + header.length + recordTrailerLen)) with
        | .error err => .error err
        | .ok later =>
          .ok (⟨⟨path, cursor⟩,
            ⟨header.kind, header.flags, (rest.drop recordHeaderLen).take header.length⟩⟩ ::
              later)
termination_by rest.length
decreasing_by
  simp only [List.length_drop, recordHeaderLen] at *
  omega

def replayPlacesFile (path : Nat) (file : Bytes) (expectedKind : LogKind)
    (allowTailRepair : Bool) : Except WalError (List Place) := do
  require (fileHeaderLen ≤ file.length) (.invalidHeaderReserved path)
  let kind ← parseFileHeader (file.take fileHeaderLen) path
  require (kind = expectedKind) (.magicMismatch path kind.debug expectedKind.debug)
  scanPlaces crc32c path allowTailRepair fileHeaderLen (file.drop fileHeaderLen)

def replayPlacesFiles (expectedKind : LogKind) : List DiskFile → Except WalError (List Place)
  | [] => return []
  | f :: rest => do
    let found ← replayPlacesFile crc32c f.id f.contents expectedKind rest.isEmpty
    return found ++ (← replayPlacesFiles expectedKind rest)

/-- What replay finds, and where. -/
def replayPlaces (disk : Disk) (expectedKind : LogKind) : Except WalError (List Place) :=
  replayPlacesFiles crc32c expectedKind (sortedLogFiles disk)

/-! ### It is replay -/

theorem scanPlaces_records (path : Nat) (allow : Bool) (cursor : Nat) (rest : Bytes) :
    (scanPlaces crc32c path allow cursor rest).map (List.map Place.record) =
      (scanRecords crc32c path allow cursor rest).map Scan.records := by
  fun_induction scanRecords crc32c path allow cursor rest with
  | case10 cursor rest some long header parsed inside crc err scanned ih =>
    rw [scanned] at ih
    rw [scanPlaces, if_neg some, if_neg long]
    simp only [parsed, if_neg inside, if_neg crc]
    cases placed : scanPlaces crc32c path allow
        (cursor + (recordHeaderLen + header.length + recordTrailerLen))
        (rest.drop (recordHeaderLen + header.length + recordTrailerLen)) with
    | error other =>
      rw [placed] at ih
      cases ih
      rfl
    | ok found =>
      rw [placed] at ih
      cases ih
  | case11 cursor rest some long header parsed inside crc later scanned ih =>
    rw [scanned] at ih
    rw [scanPlaces, if_neg some, if_neg long]
    simp only [parsed, if_neg inside, if_neg crc]
    cases placed : scanPlaces crc32c path allow
        (cursor + (recordHeaderLen + header.length + recordTrailerLen))
        (rest.drop (recordHeaderLen + header.length + recordTrailerLen)) with
    | error other =>
      rw [placed] at ih
      cases ih
    | ok found =>
      rw [placed] at ih
      simp only [Except.map, List.map_cons, ← Except.ok.inj ih]
  -- the other exits find nothing more
  | _ =>
    rw [scanPlaces]
    simp only [*, reduceIte, Bool.false_eq_true, Except.map, List.map_nil]

theorem replayPlacesFile_records (path : Nat) (file : Bytes) (kind : LogKind) (allow : Bool) :
    (replayPlacesFile crc32c path file kind allow).map (List.map Place.record) =
      (replayLogFileWithPolicy crc32c path file kind allow).map (·.1.records) := by
  rw [replayPlacesFile, replayLogFileWithPolicy]
  by_cases whole : fileHeaderLen ≤ file.length
  · rw [require_of whole, ok_bind, ok_bind]
    cases parseFileHeader (file.take fileHeaderLen) path with
    | error err => rfl
    | ok parsed =>
      rw [ok_bind, ok_bind]
      by_cases same : parsed = kind
      · rw [require_of same, ok_bind, ok_bind, scanPlaces_records]
        cases scanRecords crc32c path allow fileHeaderLen (file.drop fileHeaderLen) with
        | error err => rfl
        | ok scan =>
          show Except.ok scan.records = Except.ok (scan.outcome path file.length).1.records
          rw [Scan.outcome]
          split <;> rfl
      · rw [require_of_not same]
        rfl
  · rw [require_of_not whole]
    rfl

theorem replayPlacesFiles_records (kind : LogKind) (files : List DiskFile) (disk : Disk)
    (combined : ReplayOutcome) :
    (replayPlacesFiles crc32c kind files).map
        (fun found => combined.records ++ found.map Place.record) =
      (replayFiles crc32c kind files disk combined).1.map ReplayOutcome.records := by
  induction files generalizing disk combined with
  | nil => exact congrArg Except.ok (List.append_nil _)
  | cons f rest ih =>
    have first := replayPlacesFile_records crc32c f.id f.contents kind rest.isEmpty
    rw [replayPlacesFiles, replayFiles]
    cases replayed : replayLogFileWithPolicy crc32c f.id f.contents kind rest.isEmpty with
    | error err =>
      rw [replayed] at first
      cases placed : replayPlacesFile crc32c f.id f.contents kind rest.isEmpty with
      | error other =>
        rw [placed] at first
        cases first
        rfl
      | ok found =>
        rw [placed] at first
        cases first
    | ok result =>
      obtain ⟨outcome, finalLen⟩ := result
      rw [replayed] at first
      cases placed : replayPlacesFile crc32c f.id f.contents kind rest.isEmpty with
      | error other =>
        rw [placed] at first
        cases first
      | ok found =>
        rw [placed] at first
        have same : found.map Place.record = outcome.records := Except.ok.inj first
        dsimp only
        rw [← ih, ok_bind]
        cases replayPlacesFiles crc32c kind rest with
        | error err => rfl
        | ok later =>
          show Except.ok _ = Except.ok _
          dsimp only
          rw [ReplayOutcome.extend, ← same, List.map_append, List.append_assoc]

/-- **The records of `replayPlaces` are those that replay returns.** -/
theorem replayPlaces_records (disk : Disk) (kind : LogKind) :
    (replayPlaces crc32c disk kind).map (List.map Place.record) =
      (replayLogDir crc32c disk kind).1.map ReplayOutcome.records :=
  replayPlacesFiles_records crc32c kind (sortedLogFiles disk) disk {}

/-! ## A writer with any rotation threshold -/

/-- `append`, with `cap` for `rotationSize`. -/
def appendAt (cap : Nat) (record : Record) (io : Io) : LogM AppendPosition := do
  let encoded ← Faulty.ofExcept (record.encode crc32c)
  if fileHeaderLen + encoded.length > cap then
    Faulty.raise (.rotationCapExceeded fileHeaderLen cap)
  else
    let wal ← Faulty.read Log.wal
    if wal.fileSize + wal.pending.length + encoded.length > cap then
      rotate io
      reserve record encoded
    else
      reserve record encoded

theorem append_eq_appendAt (record : Record) (io : Io) :
    append crc32c record io = appendAt crc32c rotationSize record io := rfl

/-- What is done with a log: an operation of its writer, or the writer is dropped and the log opened
again, after a replay or without one. -/
inductive Step where
  | append (record : Record)
  | flush
  | rotate
  | reopen (replayed : Bool)
deriving DecidableEq, Repr

/-- A log and what its caller holds: the records appended, each with the position returned. -/
structure Session where
  log : Log
  returned : List Place := []

/-- The log after an operation that returned. -/
def Exit.log {α : Type} : Exit WalError α × Log → Option Log
  | (.returned _, log) => some log
  | _ => none

/-- `drop` and `open`. -/
def reopen (kind : LogKind) (replayed : Bool) (log : Log) : Option Log := do
  let log ← Exit.log (dropWal {} log)
  let disk ←
    if replayed then
      match replayLogDir crc32c log.disk kind with
      | (.ok _, disk) => some disk
      | (.error _, _) => none
    else some log.disk
  match Wal.open kind {} disk with
  | (.returned wal, disk) => some { log with disk, wal }
  | _ => none

/-- One step in which every I/O call is done; an append that is refused returns no position. -/
def Step.perform (kind : LogKind) (cap : Nat) (session : Session) : Step → Option Session
  | .append record =>
    match appendAt crc32c cap record {} session.log with
    | (.returned position, log) => some ⟨log, session.returned ++ [⟨position, record⟩]⟩
    | (.raised (.payloadTooLarge ..), log) => some { session with log }
    | (.raised (.rotationCapExceeded ..), log) => some { session with log }
    | _ => none
  | .flush => (Exit.log (Wal.flush {} session.log)).map fun log => { session with log }
  | .rotate => (Exit.log (Wal.rotate {} session.log)).map fun log => { session with log }
  | .reopen replayed =>
    (Wal.reopen crc32c kind replayed session.log).map fun log => { session with log }

/-- A log that is created, used and dropped. -/
def run (kind : LogKind) (cap : Nat) (steps : List Step) : Option Session :=
  match Wal.create kind {} [] with
  | (.returned wal, disk) => do
    let session ← steps.foldlM (Step.perform crc32c kind cap) { log := { disk, wal } }
    let log ← Exit.log (dropWal {} session.log)
    return { session with log }
  | _ => none

/-! ## One step -/

variable {crc32c}

theorem flush_done (s : Shape) : flush {} (s.log crc32c) = (.returned (), s.flush.log crc32c) := by
  by_cases empty : s.batch = []
  · have none : (s.log crc32c).wal.pending = [] := frames_eq_nil.mpr empty
    rw [s.flush_of_empty empty, Wal.flush, Faulty.read_bind, if_pos none]
    rfl
  · have some : (s.log crc32c).wal.pending ≠ [] := fun none => empty (frames_eq_nil.mp none)
    have wrote := @write_shape crc32c s .done (frames (Record.bytes crc32c) s.batch)
    rw [Wal.flush, Faulty.read_bind, if_neg some, Faulty.bind_returned (onDisk_returned wrote),
      Faulty.bind_returned (onDisk_returned (sync_shape s)), Faulty.run_modify]
    simp [Shape.log, Shape.wal, Shape.flush, Shape.files, Shape.recordsOf_snoc, Nat.add_assoc]

theorem createFile_done (s : Shape) (flushed : s.batch = []) :
    createFile s.kind (s.active + 1) {} (s.diskWith crc32c []) =
      (.returned (), s.rotate.diskWith crc32c []) := by
  have made := @createNew_shape crc32c s .done
  have wrote : writeAll WalError.io (s.active + 1) .done (fileHeader s.kind) (s.begun crc32c []) =
      (.returned (), s.begun crc32c (fileHeader s.kind)) := by
    simp only [writeAll, modify_begun]
    rfl
  rw [createFile, Faulty.bind_returned made, Faulty.bind_returned wrote]
  simp only [syncData, begun_synced s flushed]

theorem rotate_done (s : Shape) :
    rotate {} (s.log crc32c) = (.returned (), s.rotate.log crc32c) := by
  rw [rotate, Faulty.bind_returned (flush_done s), Faulty.read_bind]
  have made := @createFile_done crc32c s.flush rfl
  rw [flush_rotate] at made
  rw [Faulty.bind_returned (onDisk_returned made), Faulty.run_modify]
  simp [Shape.log, Shape.wal, Shape.rotate, Shape.files, Shape.flush, recordsOf]

/-- The log in which a record is appended: a new file where the threshold asks for one. -/
def Shape.roomAt (crc32c : Bytes → UInt32) (cap : Nat) (s : Shape) (r : Record) : Shape :=
  if (s.tip crc32c).offset + r.onDiskLen > cap then s.rotate else s

theorem places_roomAt (cap : Nat) (s : Shape) (r : Record) :
    (s.roomAt crc32c cap r).places = s.places ∧ (s.roomAt crc32c cap r).kind = s.kind := by
  unfold Shape.roomAt
  split
  · exact ⟨places_rotate s, rfl⟩
  · exact ⟨rfl, rfl⟩

/-- An append either is refused, and nothing happened, or returns the coordinate at which the record
waits. -/
theorem appendAt_shape (cap : Nat) (s : Shape) (r : Record) :
    (∃ err, appendAt crc32c cap r {} (s.log crc32c) = (.raised err, s.log crc32c) ∧
      (err = .payloadTooLarge r.payload.length maxPayloadLen ∨
        err = .rotationCapExceeded fileHeaderLen cap)) ∨
    ∃ fits, appendAt crc32c cap r {} (s.log crc32c) =
      (.returned ((s.roomAt crc32c cap r).tip crc32c),
        ((s.roomAt crc32c cap r).push r fits).log crc32c) := by
  by_cases fits : r.Fits
  · have encoded : r.encode crc32c = .ok (r.bytes crc32c) := (encode_eq_ok crc32c).mpr ⟨fits, rfl⟩
    rw [appendAt, encoded, Faulty.ofExcept, Faulty.pure_bind_run, length_bytes]
    split
    · exact .inl ⟨_, rfl, .inr rfl⟩
    · right
      refine ⟨fits, ?_⟩
      have offset : (s.log crc32c).wal.fileSize + (s.log crc32c).wal.pending.length + r.onDiskLen =
          (s.tip crc32c).offset + r.onDiskLen := rfl
      rw [Faulty.read_bind, offset, Shape.roomAt]
      split
      · rw [Faulty.bind_returned (rotate_done s), reserve_shape _ fits]
      · rw [reserve_shape _ fits]
  · left
    have refused : r.encode crc32c = .error (.payloadTooLarge r.payload.length maxPayloadLen) := by
      rw [Record.encode, require_of_not fits]
      rfl
    rw [appendAt, refused]
    exact ⟨_, rfl, .inl rfl⟩

theorem dropWal_done (s : Shape) :
    dropWal {} (s.log crc32c) = (.returned (), s.flush.log crc32c) := by
  rw [dropWal, flush_done]

theorem reopen_shape (s : Shape) (replayed : Bool) :
    reopen crc32c s.kind replayed (s.log crc32c) = some (s.flush.log crc32c) := by
  have opened := @open_shape crc32c s.flush rfl {}
  have read := replay_shape crc32c s.flush
  have disk : (s.flush.log crc32c).disk = s.flush.diskWith crc32c [] := rfl
  have kind : s.flush.kind = s.kind := rfl
  rw [kind] at opened read
  simp only [reopen, dropWal_done, Exit.log, Option.bind_eq_bind, Option.bind_some, disk, read, ite_self,
    opened]
  rfl

/-- **A step keeps every place**, and an append adds its record's, where it said. -/
theorem step_shape (cap : Nat) (s : Shape) (returned : List Place) (step : Step)
    (held : s.places = returned) :
    ∃ s' : Shape, s'.kind = s.kind ∧
      step.perform crc32c s.kind cap ⟨s.log crc32c, returned⟩ = some ⟨s'.log crc32c, s'.places⟩ := by
  subst held
  cases step with
  | append r =>
    obtain ⟨err, refused, why⟩ | ⟨fits, appended⟩ := @appendAt_shape crc32c cap s r
    · refine ⟨s, rfl, ?_⟩
      rw [Step.perform, refused]
      obtain rfl | rfl := why <;> rfl
    · obtain ⟨places, kind⟩ := @places_roomAt crc32c cap s r
      refine ⟨(s.roomAt crc32c cap r).push r fits, kind, ?_⟩
      rw [Step.perform, appended, places_push crc32c, places]
  | flush =>
    refine ⟨s.flush, rfl, ?_⟩
    rw [Step.perform, flush_done, places_flush]
    rfl
  | rotate =>
    refine ⟨s.rotate, rfl, ?_⟩
    rw [Step.perform, rotate_done, places_rotate]
    rfl
  | reopen replayed =>
    refine ⟨s.flush, rfl, ?_⟩
    rw [Step.perform, reopen_shape, places_flush]
    rfl

theorem steps_shape (cap : Nat) (steps : List Step) (s : Shape) :
    ∃ s' : Shape, s'.kind = s.kind ∧
      steps.foldlM (Step.perform crc32c s.kind cap) ⟨s.log crc32c, s.places⟩ =
        some ⟨s'.log crc32c, s'.places⟩ := by
  induction steps generalizing s with
  | nil => exact ⟨s, rfl, rfl⟩
  | cons step steps ih =>
    obtain ⟨s₁, kind, first⟩ := @step_shape crc32c cap s s.places step rfl
    obtain ⟨s₂, kind₂, rest⟩ := ih s₁
    rw [kind] at rest kind₂
    exact ⟨s₂, kind₂, by rw [List.foldlM_cons, first, Option.bind_eq_bind, Option.bind_some, rest]⟩

/-! ## What replay finds -/

theorem scanPlaces_frames (path : Nat) (allow : Bool) (cursor : Nat) {rs : List Record}
    (fits : ∀ r ∈ rs, r.Fits) :
    scanPlaces crc32c path allow cursor (frames (Record.bytes crc32c) rs) =
      .ok (placesFrom path cursor rs) := by
  induction rs generalizing cursor with
  | nil =>
    rw [frames_nil, scanPlaces, if_pos rfl]
    rfl
  | cons r rs ih =>
    rw [List.forall_mem_cons] at fits
    have length : (r.bytes crc32c ++ frames (Record.bytes crc32c) rs).length =
        r.onDiskLen + (frames (Record.bytes crc32c) rs).length := by
      rw [List.length_append, length_bytes]
    have onDisk : r.onDiskLen = recordHeaderLen + r.payload.length + recordTrailerLen := rfl
    obtain ⟨record, behind, payload⟩ := record_read crc32c r (frames (Record.bytes crc32c) rs)
    rw [frames_cons, scanPlaces, if_neg (by simp [bytes_ne_nil]),
      if_neg (by rw [length, onDisk]; omega)]
    simp only [parseHeader_bytes crc32c fits.1]
    rw [if_neg (by rw [length, onDisk]; omega), ← onDisk, record, behind, payload,
      crcValid_bytes, if_neg (by decide), ih _ fits.2]
    rfl

theorem replayPlacesFiles_image (kind : LogKind) {files : List (Nat × List Record)}
    (fits : ∀ r ∈ recordsOf files, r.Fits) :
    replayPlacesFiles crc32c kind (image crc32c kind files) = .ok (places files) := by
  induction files with
  | nil => rfl
  | cons f files ih =>
    have own : ∀ r ∈ f.2, r.Fits := fun r member => fits r (by simp [recordsOf, member])
    have others : ∀ r ∈ recordsOf files, r.Fits := by
      intro r member
      apply fits
      simp only [recordsOf, List.flatMap_cons, List.mem_append]
      exact .inr member
    show replayPlacesFiles crc32c kind
      (⟨f.1, fileHeader kind ++ frames (Record.bytes crc32c) f.2, []⟩ :: image crc32c kind files) = _
    rw [replayPlacesFiles, replayPlacesFile, DiskFile.contents, List.append_nil,
      List.take_left' (length_fileHeader kind), List.drop_left' (length_fileHeader kind),
      List.length_append, length_fileHeader, require_of (Nat.le_add_right _ _), ok_bind,
      parseFileHeader_fileHeader, ok_bind, require_of rfl, ok_bind, scanPlaces_frames _ _ _ own,
      ok_bind, ih others]
    rfl

/-- Replay of a log finds the places of its files, in order. -/
theorem replayPlaces_shape (s : Shape) :
    replayPlaces crc32c (s.diskWith crc32c []) s.kind = .ok (places s.files) := by
  have sorted : sortedLogFiles (image crc32c s.kind s.files) = image crc32c s.kind s.files :=
    sortedLogFiles_of_ascending (image_ascending crc32c s.kind s.ascending)
  rw [replayPlaces, diskWith_nil, sorted]
  exact replayPlacesFiles_image s.kind s.files_fit

/-- **Positions are exact.**  A log of any rotation threshold can be used in any way, and replay of
what it leaves finds the records whose appends returned, each at the position returned. -/
theorem append_positions_exact (crc32c : Bytes → UInt32) (kind : LogKind) (cap : Nat)
    (steps : List Step) :
    ∃ session, run crc32c kind cap steps = some session ∧
      replayPlaces crc32c session.log.disk kind = .ok session.returned ∧
      ∃ outcome, replayLogDir crc32c session.log.disk kind = (.ok outcome, session.log.disk) ∧
        outcome.records = session.returned.map Place.record := by
  have created : Wal.create kind {} [] =
      (.returned ((Shape.fresh kind).wal crc32c), (Shape.fresh kind).diskWith crc32c []) := by
    cases kind <;> rfl
  have start : (⟨⟨(Shape.fresh kind).diskWith crc32c [], (Shape.fresh kind).wal crc32c, [], []⟩, []⟩ :
      Session) = ⟨(Shape.fresh kind).log crc32c, (Shape.fresh kind).places⟩ := rfl
  obtain ⟨s, same, ran⟩ := @steps_shape crc32c cap steps (Shape.fresh kind)
  have fresh : (Shape.fresh kind).kind = kind := rfl
  rw [fresh] at same ran
  have found := @replayPlaces_shape crc32c s.flush
  have read := replay_shape crc32c s.flush
  have flushed : s.flush.kind = kind := same
  have all : Wal.places s.flush.files = s.places :=
    (Shape.places_files rfl).trans (places_flush s)
  rw [flushed, all] at found
  rw [flushed] at read
  refine ⟨⟨s.flush.log crc32c, s.places⟩, ?_, found, _, read, ?_⟩
  · rw [run, created]
    dsimp only
    rw [start, ran, Option.bind_eq_bind, Option.bind_some, dropWal_done]
    rfl
  · rw [← all, places_records]
    rfl

end Crc

end OneLink.Wal
