/-
# Wal.Writer — the log writer over a disk that may fail

`Wal` buffers encoded records and writes them in one batch.  A file is sealed
when the next record would push it past `rotationSize`; the writer then goes on
in a file of its own.  The write position is not part of the model: the handle
only ever writes behind what it has written, and `open` seeks to the end.

A `Log` is a writer with the directory it writes to.  `flushed` and `batch` are
ghosts, read by no operation: the records of the flushes that returned, in append
order, and the records appended since.
-/
import OneLink.Wal.Replay

namespace OneLink.Wal

open Library

set_option autoImplicit false
set_option linter.dupNamespace false

structure Wal where
  kind : LogKind
  fileId : Nat
  fileSize : Nat
  pending : Bytes
deriving DecidableEq, Repr

structure AppendPosition where
  fileId : Nat
  offset : Nat
deriving DecidableEq, Repr

structure Log where
  disk : Disk
  wal : Wal
  flushed : List Record := []
  batch : List Record := []
deriving DecidableEq, Repr

/-- How the I/O calls of one operation go: the two of a flush, then the three that
make a new file. -/
structure Io where
  write : Fate := .done
  sync : Fate := .done
  create : Fate := .done
  header : Fate := .done
  headerSync : Fate := .done
deriving DecidableEq, Repr

abbrev LogM := Faulty Log WalError

def onDisk {α : Type} (m : Faulty Disk WalError α) : LogM α :=
  Faulty.onPart Log.disk (fun disk log => { log with disk }) id m

/-- A new file with its header, synced. -/
def createFile (kind : LogKind) (fileId : Nat) (io : Io) : Faulty Disk WalError Unit := do
  createNew .io fileId io.create
  writeAll .io fileId io.header (fileHeader kind)
  syncData .io fileId io.headerSync

def Wal.create (kind : LogKind) (io : Io) : Faulty Disk WalError Wal := do
  createFile kind 1 io
  return ⟨kind, 1, fileHeaderLen, []⟩

/-- The log file of the highest id. -/
def highestFile (disk : Disk) : Option DiskFile := (sortedLogFiles disk).getLast?

def Wal.open (kind : LogKind) (io : Io) : Faulty Disk WalError Wal := do
  match ← Faulty.read highestFile with
  | none => Wal.create kind io
  | some file =>
    Faulty.ofExcept (require (fileHeaderLen ≤ file.contents.length) .io)
    let parsed ← Faulty.ofExcept (parseFileHeader (file.contents.take fileHeaderLen) file.id)
    Faulty.ofExcept (require (parsed = kind) (.magicMismatch file.id parsed.debug kind.debug))
    return ⟨kind, file.id, file.contents.length, []⟩

def flush (io : Io) : LogM Unit := do
  let wal ← Faulty.read Log.wal
  if wal.pending = [] then
    return ()
  else
    onDisk (writeAll .io wal.fileId io.write wal.pending)
    onDisk (syncData .io wal.fileId io.sync)
    Faulty.modify fun log =>
      { log with
        wal := { log.wal with
          fileSize := log.wal.fileSize + log.wal.pending.length
          pending := [] }
        flushed := log.flushed ++ log.batch
        batch := [] }

/-- Pending records go to the old file before it is sealed. -/
def rotate (io : Io) : LogM Unit := do
  flush io
  let wal ← Faulty.read Log.wal
  onDisk (createFile wal.kind (wal.fileId + 1) io)
  Faulty.modify fun log =>
    { log with wal := { log.wal with fileId := wal.fileId + 1, fileSize := fileHeaderLen } }

section Crc

variable (crc32c : Bytes → UInt32)

/-- Buffer the encoded record: where it will stand in the active file. -/
def reserve (record : Record) (encoded : Bytes) : LogM AppendPosition := do
  let wal ← Faulty.read Log.wal
  Faulty.modify fun log =>
    { log with
      wal := { log.wal with pending := log.wal.pending ++ encoded }
      batch := log.batch ++ [record] }
  return ⟨wal.fileId, wal.fileSize + wal.pending.length⟩

def append (record : Record) (io : Io) : LogM AppendPosition := do
  let encoded ← Faulty.ofExcept (record.encode crc32c)
  if fileHeaderLen + encoded.length > rotationSize then
    Faulty.raise (.rotationCapExceeded fileHeaderLen rotationSize)
  else
    let wal ← Faulty.read Log.wal
    if wal.fileSize + wal.pending.length + encoded.length > rotationSize then
      rotate io
      reserve record encoded
    else
      reserve record encoded

/-- `Drop`: a flush whose error nobody sees. -/
def dropWal (io : Io) : LogM Unit := fun log =>
  match flush io log with
  | (.raised _, log) => (.returned (), log)
  | exit => exit

/-! ## Runs of one writer -/

inductive Op where
  | append (record : Record)
  | flush
  | rotate
deriving DecidableEq, Repr

def Op.perform (io : Io) : Op → LogM Unit
  | .append record => do
    let _ ← Wal.append crc32c record io
    return ()
  | .flush => Wal.flush io
  | .rotate => Wal.rotate io

/-- A run of operations: an error goes to the caller, who goes on; a crash ends
the run. -/
def performAll : List (Op × Io) → Log → Log
  | [], log => log
  | (op, io) :: rest, log =>
    match op.perform crc32c io log with
    | (.crashed, log) => log
    | (_, log) => performAll rest log

/-- What the disk holds and what the caller knows, after a writer was created and
used for as long as the machine ran. -/
def session (kind : LogKind) (created : Io) (ops : List (Op × Io)) : Log :=
  match Wal.create kind created [] with
  | (.returned wal, disk) => performAll crc32c ops { disk, wal }
  | (_, disk) => { disk, wal := ⟨kind, 1, fileHeaderLen, []⟩ }

end Crc

end OneLink.Wal
