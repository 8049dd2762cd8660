/-
# Fuse.Backend -- the filesystem callbacks of ol_fuse

The file map of either back end is flat, from canonical paths to contents; `getattr`,
`readdir` and `read` infer directories from the keys.  The two back ends answer the first
two alike, up to what they store of a file and to the mode bits, so those are written
once (`getattrOf`, `readdirOf`).  A path is its UTF-8 bytes, which is also how a
`BTreeMap<String, _>` orders its keys.

The clock of a write and the reader of the blobs are parameters.
-/
import OneLink.Library.ByteOrder
import OneLink.Library.Framing
import OneLink.Library.Mutating
import OneLink.Library.PathTree
import OneLink.Library.SortedMap

namespace OneLink.Fuse

set_option autoImplicit false

open Library

scoped instance lawfulBytes : LawfulBEq Bytes := inferInstance

def MAX_FS_PATH_BYTES : Nat := 4096

def MAX_FS_IO_BYTES : Nat := 16 * 1024 * 1024

def MAX_MEMORY_FILE_BYTES : Nat := 256 * 1024 * 1024

def MAX_MEMORY_TOTAL_BYTES : Nat := 512 * 1024 * 1024

def MAX_MEMORY_FILES : Nat := 65536

inductive EntryKind where
  | File
  | Directory
deriving DecidableEq

structure Stat where
  kind : EntryKind
  size : UInt64
  mtime_ms : UInt64
  mode : UInt16
deriving DecidableEq

structure DirEntry where
  name : Bytes
  stat : Stat
deriving DecidableEq

inductive FsError where
  | NotFound
  | NotADirectory
  | IsADirectory
  | PermissionDenied
  | NoSpace
  | InvalidInput (reason : String)
  | StateUnavailable
  | Io (reason : String)
deriving DecidableEq

/-- `/`. -/
def slash : UInt8 := 47

/-- `path.trim_matches('/')`. -/
def trimSlashes (path : Bytes) : Bytes :=
  ((path.dropWhile (· = slash)).reverse.dropWhile (· = slash)).reverse

/-- An empty segment, `.` or `..`. -/
def BadSegment (part : Bytes) : Prop := part = [] ∨ part = [46] ∨ part = [46, 46]

instance : DecidablePred BadSegment := fun part =>
  inferInstanceAs (Decidable (part = [] ∨ part = [46] ∨ part = [46, 46]))

/-- The path without the slashes around it; `none` is the root. -/
def canonicalPath (path : Bytes) : Except FsError (Option Bytes) := do
  require (path.length ≤ MAX_FS_PATH_BYTES) (.InvalidInput "path is too long")
  require (0 ∉ path) (.InvalidInput "path contains NUL")
  let normalized := trimSlashes path
  if normalized = [] then
    return none
  require (∀ part ∈ normalized.splitOn slash, ¬ BadSegment part)
    (.InvalidInput "path contains an empty, current, or parent segment")
  return some normalized

/-- `canonical_path(path)?.ok_or(FsError::IsADirectory)?`. -/
def canonicalFile (path : Bytes) : Except FsError Bytes := do
  match ← canonicalPath path with
  | some path => return path
  | none => throw .IsADirectory

/-- What a back end answers without changing. -/
structure Callbacks where
  getattr : Bytes → Except FsError Stat
  readdir : Bytes → Except FsError (List DirEntry)
  read : Bytes → (offset : UInt64) → (size : UInt32) → Except FsError Bytes

section Shared

variable {V : Type} (files : SortedMap Bytes V)

def isSyntheticDirectory (path : Bytes) : Bool :=
  files.keys.any fun key => (path ++ [slash]).isPrefixOf key

def hasFileAncestor (path : Bytes) : Bool :=
  (List.range path.length).any fun index =>
    path[index]? = some slash && (files.get? (path.take index)).isSome

variable (fileStat : Bytes → V → Stat) (dirStat : Stat)

def getattrOf (path : Bytes) : Except FsError Stat := do
  match ← canonicalPath path with
  | none => return dirStat
  | some path =>
    match files.get? path with
    | some file => return fileStat path file
    | none =>
      if isSyntheticDirectory files path then return dirStat
      else throw .NotFound

/-- The entry of `full`, the path of a listed name. -/
def entryStat (full : Bytes) : Stat :=
  match files.get? full with
  | some file => fileStat full file
  | none => dirStat

/-- The loop of `readdir` over the keys, with the names `seen` so far. -/
def readdirLoop (pre : Bytes) : List Bytes → (seen : List Bytes) → List DirEntry
  | [], _ => []
  | key :: keys, seen =>
    if pre.isPrefixOf key then
      let bare := firstPart slash (key.drop pre.length)
      if bare = [] ∨ bare ∈ seen then readdirLoop pre keys seen
      else ⟨bare, entryStat files fileStat dirStat (pre ++ bare)⟩ ::
        readdirLoop pre keys (bare :: seen)
    else readdirLoop pre keys seen

def readdirOf (path : Bytes) : Except FsError (List DirEntry) := do
  match ← canonicalPath path with
  | none => return readdirLoop files fileStat dirStat [] files.keys []
  | some path =>
    require (files.get? path = none) .NotADirectory
    require (isSyntheticDirectory files path) .NotFound
    return readdirLoop files fileStat dirStat (path ++ [slash]) files.keys []

end Shared

/-! ## MemoryBackend -/

structure MemoryInner where
  files : SortedMap Bytes Bytes
  mtimes : SortedMap Bytes UInt64

namespace MemoryInner

def new : MemoryInner := ⟨.empty, .empty⟩

def dirStat : Stat := ⟨.Directory, 0, 0, 0o755⟩

def fileStat (inner : MemoryInner) (path bytes : Bytes) : Stat :=
  ⟨.File, UInt64.ofNat bytes.length, (inner.mtimes.get? path).getD 0, 0o644⟩

def getattr (inner : MemoryInner) : Bytes → Except FsError Stat :=
  getattrOf inner.files inner.fileStat dirStat

def readdir (inner : MemoryInner) : Bytes → Except FsError (List DirEntry) :=
  readdirOf inner.files inner.fileStat dirStat

def read (inner : MemoryInner) (path : Bytes) (offset : UInt64) (size : UInt32) :
    Except FsError Bytes := do
  require (size.toNat ≤ MAX_FS_IO_BYTES) (.InvalidInput "read exceeds callback byte limit")
  let path ← canonicalFile path
  match inner.files.get? path with
  | none =>
    if isSyntheticDirectory inner.files path then throw .IsADirectory
    else throw .NotFound
  | some bytes =>
    let off := offset.toNat
    if bytes.length ≤ off then
      return []
    let stop := min (off + size.toNat) bytes.length
    return (bytes.take stop).drop off

/-- `Vec::resize` with zeros. -/
def resize (bytes : Bytes) (len : Nat) : Bytes :=
  bytes.take len ++ List.replicate (len - bytes.length) 0

/-- `if bytes.len() < len { bytes.resize(len, 0) }`. -/
def grow (bytes : Bytes) (len : Nat) : Bytes :=
  if bytes.length < len then resize bytes len else bytes

/-- The new content of a file: grown up to `off`, then to the end of `data`, then
overwritten. -/
def writeAt (entry : Bytes) (off : Nat) (data : Bytes) : Bytes :=
  let stop := off + data.length
  let entry := grow (grow entry off) stop
  entry.take off ++ data ++ entry.drop stop

def write (now : UInt64) (path : Bytes) (offset : UInt64) (data : Bytes) :
    Mutating MemoryInner FsError UInt32 := do
  Mutating.check (data.length ≤ MAX_FS_IO_BYTES)
    (.InvalidInput "write exceeds callback byte limit")
  let path ← Mutating.call (canonicalFile path)
  let off := offset.toNat
  let stop := off + data.length
  Mutating.check (stop < 2 ^ 64) .NoSpace
  Mutating.check (stop ≤ MAX_MEMORY_FILE_BYTES) .NoSpace
  Mutating.check (data.length < 2 ^ 32) (.InvalidInput "write length does not fit u32")
  let inner ← Mutating.read
  Mutating.check (¬ isSyntheticDirectory inner.files path) .IsADirectory
  Mutating.check (¬ hasFileAncestor inner.files path) .NotADirectory
  let existing_len := ((inner.files.get? path).getD []).length
  Mutating.check (¬ (existing_len = 0 ∧ inner.files.get? path = none ∧
    MAX_MEMORY_FILES ≤ inner.files.items.length)) .NoSpace
  let growth := stop - existing_len
  let current_total : Nat := (inner.files.items.map fun entry => entry.2.length).sum
  Mutating.check (current_total < 2 ^ 64) .NoSpace
  Mutating.check (current_total + growth < 2 ^ 64 ∧
    current_total + growth ≤ MAX_MEMORY_TOTAL_BYTES) .NoSpace
  Mutating.write fun inner => { inner with
    files := inner.files.alter path fun entry => writeAt (entry.getD []) off data }
  Mutating.write fun inner => { inner with
    mtimes := inner.mtimes.alter path fun _ => now }
  return UInt32.ofNat data.length

/-- The entry is taken out before the code looks whether there was one. -/
def unlink (path : Bytes) : Mutating MemoryInner FsError Unit := do
  let path ← Mutating.call (canonicalFile path)
  let inner ← Mutating.read
  let removed := inner.files.get? path
  Mutating.write fun inner => { inner with files := inner.files.erase path }
  if removed = none then
    let inner ← Mutating.read
    if isSyntheticDirectory inner.files path then
      Mutating.raise .IsADirectory
    else
      Mutating.raise .NotFound
  else
    Mutating.write fun inner => { inner with mtimes := inner.mtimes.erase path }

def callbacks (inner : MemoryInner) : Callbacks := ⟨inner.getattr, inner.readdir, inner.read⟩

end MemoryInner

/-! ## FolderManifestBackend -/

structure ManifestRow where
  size : UInt64
  mtime_ms : UInt64
  blob_hash : String
deriving DecidableEq

structure FolderManifestBackend where
  files : SortedMap Bytes ManifestRow
  blob_reader : (blob_hash : String) → (offset : UInt64) → (length : UInt32) →
    Except FsError Bytes

namespace FolderManifestBackend

def dirStat : Stat := ⟨.Directory, 0, 0, 0o555⟩

def fileStat (_path : Bytes) (row : ManifestRow) : Stat := ⟨.File, row.size, row.mtime_ms, 0o444⟩

def getattr (fs : FolderManifestBackend) : Bytes → Except FsError Stat :=
  getattrOf fs.files fileStat dirStat

def readdir (fs : FolderManifestBackend) : Bytes → Except FsError (List DirEntry) :=
  readdirOf fs.files fileStat dirStat

def read (fs : FolderManifestBackend) (path : Bytes) (offset : UInt64) (size : UInt32) :
    Except FsError Bytes := do
  require (size.toNat ≤ MAX_FS_IO_BYTES) (.InvalidInput "read exceeds callback byte limit")
  let lookup ← canonicalFile path
  match fs.files.get? lookup with
  | none =>
    if isSyntheticDirectory fs.files lookup then throw .IsADirectory
    else throw .NotFound
  | some row =>
    if row.size ≤ offset then
      return []
    let remaining := row.size - offset
    let bounded := min size.toNat remaining.toNat
    require (bounded < 2 ^ 32) (.InvalidInput "bounded read size does not fit u32")
    let bytes ← fs.blob_reader row.blob_hash offset (UInt32.ofNat bounded)
    require (bytes.length ≤ bounded) (.Io "blob reader returned more bytes than requested")
    return bytes

def write (_path : Bytes) (_offset : UInt64) (_data : Bytes) :
    Mutating FolderManifestBackend FsError UInt32 := Mutating.raise .PermissionDenied

def unlink (_path : Bytes) : Mutating FolderManifestBackend FsError Unit :=
  Mutating.raise .PermissionDenied

def callbacks (fs : FolderManifestBackend) : Callbacks := ⟨fs.getattr, fs.readdir, fs.read⟩

end FolderManifestBackend

end OneLink.Fuse
