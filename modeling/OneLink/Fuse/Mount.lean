/-
# Fuse.Mount -- the two back ends as trees

The folder back end takes its manifest as it comes.  The mount makes the manifest with
`validate_manifest`, which refuses a path that descends from a file entry; what it returns
has the keys of a tree and mounts as the manifest says (`validated_mount`).
A manifest with a file and a path below it would be mounted without the second one
(`below_a_file_unseen`).
-/
import OneLink.Fuse.Memory

namespace OneLink.Fuse

set_option autoImplicit false

open Library

/-! ## The manifest of a mount -/

def MAX_MOUNT_MANIFEST_ENTRIES : Nat := 65536

/-- The texts of `validate_manifest`, with what is formatted into them. -/
inductive ManifestError where
  /-- `manifest has .. entries; maximum is ..`. -/
  | tooManyEntries (count : Nat)
  | reason (text : String)
  /-- `manifest contains duplicate path: ..`. -/
  | duplicate (path : Bytes)
  /-- `manifest path .. descends from file entry ..`. -/
  | descends (path ancestor : Bytes)
deriving DecidableEq

/-- `path.chars().any(char::is_control)`, on UTF-8 bytes: U+0080 to U+009F follow a C2. -/
def hasControl : Bytes → Bool
  | [] => false
  | b :: rest => b < 32 || b = 127 ||
      (b = 0xc2 && rest.head?.any fun next => 0x80 ≤ next && next ≤ 0x9f) || hasControl rest

def validateManifestPath (path : Bytes) : Except ManifestError Unit := do
  require (path ≠ []) (.reason "manifest path is empty")
  require (path.length ≤ MAX_FS_PATH_BYTES) (.reason "manifest path exceeds 4096 UTF-8 bytes")
  require (path.head? ≠ some slash ∧ path.getLast? ≠ some slash)
    (.reason "manifest paths must be canonical relative paths")
  require (¬ hasControl path) (.reason "manifest path contains a control character")
  require (∀ part ∈ path.splitOn slash, ¬ BadSegment part)
    (.reason "manifest path contains an empty, current, or parent segment")

def validateBlobHash (blob_hash : String) : Except ManifestError Unit :=
  require (blob_hash.utf8ByteSize = 64 ∧ ∀ c ∈ blob_hash.toList,
      '0' ≤ c ∧ c ≤ '9' ∨ 'a' ≤ c ∧ c ≤ 'f')
    (.reason "blob hash must be exactly 64 canonical lowercase hexadecimal characters")

/-- The loop over the rows. -/
def insertRows : List (Bytes × ManifestRow) → SortedMap Bytes ManifestRow →
    Except ManifestError (SortedMap Bytes ManifestRow)
  | [], files => return files
  | (path, row) :: rows, files => do
    validateManifestPath path
    validateBlobHash row.blob_hash
    require (files.get? path = none) (.duplicate path)
    insertRows rows (files.alter path fun _ => row)

/-- The loop over the paths, looking for a file above each. -/
def checkAncestors (files : SortedMap Bytes ManifestRow) : List Bytes → Except ManifestError Unit
  | [] => return ()
  | path :: paths => do
    match (List.range path.length).find? fun index =>
        path[index]? = some slash && (files.get? (path.take index)).isSome with
    | some index => throw (.descends path (path.take index))
    | none => checkAncestors files paths

def validateManifest (rows : List (Bytes × ManifestRow)) :
    Except ManifestError (SortedMap Bytes ManifestRow) := do
  require (rows.length ≤ MAX_MOUNT_MANIFEST_ENTRIES) (.tooManyEntries rows.length)
  let files ← insertRows rows .empty
  checkAncestors files files.keys
  return files

theorem not_hasControl_zero {path : Bytes} (plain : ¬ hasControl path) : 0 ∉ path := by
  induction path with
  | nil => exact List.not_mem_nil
  | cons b rest ih =>
    intro member
    rw [hasControl] at plain
    rcases List.mem_cons.mp member with rfl | later
    · exact plain (by simp)
    · refine ih (fun control => plain ?_) later
      rw [control, Bool.or_true]

theorem canonical_of_validateManifestPath {path : Bytes}
    (valid : validateManifestPath path = .ok ()) : Canonical path := by
  unfold validateManifestPath at valid
  simp only [bind_eq_ok, require_eq_ok, exists_const] at valid
  obtain ⟨some_path, short, -, plain, segments⟩ := valid
  exact canonical_iff.mpr ⟨short, not_hasControl_zero plain, some_path, segments⟩

theorem insertRows_spec {rows : List (Bytes × ManifestRow)} {files after : SortedMap Bytes ManifestRow}
    (inserted : insertRows rows files = .ok after) :
    (∀ entry ∈ rows, Canonical entry.1) ∧
      ∀ path row, after.get? path = some row ↔ files.get? path = some row ∨ (path, row) ∈ rows := by
  induction rows generalizing files with
  | nil =>
    cases inserted
    simp
  | cons entry rows ih =>
    obtain ⟨key, first⟩ := entry
    unfold insertRows at inserted
    simp only [bind_eq_ok, require_eq_ok, exists_const] at inserted
    obtain ⟨_, valid, _, -, fresh, rest⟩ := inserted
    obtain ⟨canonical, found⟩ := ih rest
    refine ⟨List.forall_mem_cons.mpr ⟨canonical_of_validateManifestPath valid, canonical⟩,
      fun path row => ?_⟩
    rw [found, SortedMap.get?_alter, List.mem_cons, Prod.mk.injEq]
    by_cases here : key = path
    · subst here
      simp [fresh, eq_comm]
    · simp [here, Ne.symm here]

theorem not_ancestor_of_checkAncestors {files : SortedMap Bytes ManifestRow} {paths : List Bytes}
    (checked : checkAncestors files paths = .ok ()) :
    ∀ path ∈ paths, ¬ hasFileAncestor files path := by
  induction paths with
  | nil => exact fun path member => absurd member List.not_mem_nil
  | cons path paths ih =>
    rw [checkAncestors] at checked
    split at checked
    · cases checked
    · rename_i none_above
      intro other member
      rcases List.mem_cons.mp member with rfl | later
      · rw [hasFileAncestor, List.any_eq_true]
        rintro ⟨index, inside, ancestor⟩
        exact List.find?_eq_none.mp none_above index inside ancestor
      · exact ih checked other later

/-! ## The folder back end -/

namespace FolderManifestBackend

/-- The reader returns the part of the blob that it is asked for, and a row tells the size
of its blob. -/
structure ReadsBlobs (fs : FolderManifestBackend) (blob : String → Bytes) : Prop where
  size : ∀ key row, fs.files.get? key = some row → (blob row.blob_hash).length = row.size.toNat
  slice : ∀ key row, fs.files.get? key = some row → ∀ offset length,
    offset.toNat + length.toNat ≤ row.size.toNat →
    fs.blob_reader row.blob_hash offset length =
      .ok (((blob row.blob_hash).drop offset.toNat).take length.toNat)

/-- The blob of the row at `path`. -/
def contentAt (fs : FolderManifestBackend) (blob : String → Bytes) (path : Bytes) : Bytes :=
  match fs.files.get? path with
  | some row => blob row.blob_hash
  | none => []

variable {fs : FolderManifestBackend} {blob : String → Bytes}

theorem read_eq_slice (reads : fs.ReadsBlobs blob) {path p : Bytes} {offset : UInt64}
    {size : UInt32} (same : canonicalPath path = .ok (some p)) (member : p ∈ fs.files.keys)
    (bounded : size.toNat ≤ MAX_FS_IO_BYTES) :
    fs.read path offset size =
      .ok (((fs.contentAt blob p).drop offset.toNat).take size.toNat) := by
  obtain ⟨row, found⟩ := SortedMap.mem_keys.mp member
  have length := reads.size p row found
  unfold FolderManifestBackend.read contentAt
  rw [require_of bounded, ok_bind, MemoryInner.canonicalFile_eq_ok.mpr same, ok_bind, found]
  simp only
  split
  · rename_i beyond
    rw [List.drop_eq_nil_of_le (by rw [length]; exact UInt64.le_iff_toNat_le.mp beyond),
      List.take_nil]
    rfl
  · rename_i inside
    have before : offset ≤ row.size := UInt64.le_of_lt (UInt64.not_le.mp inside)
    have remaining : (row.size - offset).toNat = row.size.toNat - offset.toNat :=
      UInt64.toNat_sub_of_le _ _ before
    have before' := UInt64.le_iff_toNat_le.mp before
    have small : min size.toNat (row.size - offset).toNat < 2 ^ 32 :=
      lt_of_le_of_lt (Nat.min_le_left _ _) size.toNat_lt
    have asked : (UInt32.ofNat (min size.toNat (row.size - offset).toNat)).toNat =
        min size.toNat (row.size - offset).toNat := UInt32.toNat_ofNat_of_lt' small
    have answer := reads.slice p row found offset
      (UInt32.ofNat (min size.toNat (row.size - offset).toNat)) (by omega)
    rw [require_of small, ok_bind, answer, ok_bind, asked]
    rw [require_of (List.length_take_le _ _), ok_bind, remaining]
    have rest : row.size.toNat - offset.toNat =
        ((blob row.blob_hash).drop offset.toNat).length := by rw [List.length_drop, length]
    show Except.ok _ = _
    rw [rest, ← List.take_eq_take_min]

theorem showsTree_of (reads : fs.ReadsBlobs blob) (canonical : ∀ key ∈ fs.files.keys, Canonical key)
    (independent : Independent slash fs.files.keys) :
    ShowsTree fs.callbacks fs.files.keys (fs.contentAt blob) :=
  showsTree canonical (fun _ _ => rfl) rfl independent rfl rfl
    fun _ _ _ _ same member bounded => read_eq_slice reads same member bounded

end FolderManifestBackend

/-- **A manifest that passes is mounted as it is**: the tree shows its rows and nothing else. -/
theorem validated_mount {fs : FolderManifestBackend} {blob : String → Bytes}
    {rows : List (Bytes × ManifestRow)} (valid : validateManifest rows = .ok fs.files)
    (reads : fs.ReadsBlobs blob) :
    ShowsTree fs.callbacks fs.files.keys (fs.contentAt blob) ∧
      ∀ path row, fs.files.get? path = some row ↔ (path, row) ∈ rows := by
  unfold validateManifest at valid
  simp only [bind_eq_ok, require_eq_ok, exists_const] at valid
  obtain ⟨-, _, inserted, _, checked, same⟩ := valid
  cases same
  obtain ⟨canonical, found⟩ := insertRows_spec inserted
  have entries (path : Bytes) (row : ManifestRow) :
      fs.files.get? path = some row ↔ (path, row) ∈ rows := by
    rw [found]
    simp
  refine ⟨fs.showsTree_of reads (fun key member => ?_) fun key member other member' below => ?_,
    entries⟩
  · obtain ⟨row, here⟩ := SortedMap.mem_keys.mp member
    exact canonical _ ((entries key row).mp here)
  · exact not_ancestor_of_checkAncestors checked other member'
      (MemoryInner.hasFileAncestor_iff.mpr ⟨key, member, below⟩)

/-- One empty file. -/
def emptyFile : ManifestRow := ⟨0, 0, String.ofList (List.replicate 64 '0')⟩

def oneFile : FolderManifestBackend := ⟨.alter .empty [97] fun _ => emptyFile, fun _ _ _ => .ok []⟩

theorem validated_mount_one : ShowsTree oneFile.callbacks oneFile.files.keys
    (oneFile.contentAt fun _ => []) := by
  have hash : validateBlobHash emptyFile.blob_hash = .ok () :=
    require_of ⟨by decide +kernel, by simp [emptyFile]⟩ _
  have inserted : insertRows [([97], emptyFile)] .empty = .ok oneFile.files := by
    rw [insertRows, hash]
    rfl
  have valid : validateManifest [([97], emptyFile)] = .ok oneFile.files := by
    rw [validateManifest, inserted]
    rfl
  refine (@validated_mount oneFile (fun _ => []) _ valid ⟨fun key row found => ?_, ?_⟩).1
  · obtain ⟨-, rfl⟩ : [97] = key ∧ emptyFile = row := by
      simpa [oneFile, SortedMap.get?_alter] using found
    rfl
  · intros
    simp [oneFile]

/-! ## Both back ends -/

open MemoryInner World in
/-- **A mounted folder is a tree that shows every file**, for a manifest none of whose
paths descends from another, and for the in-memory back end after any calls; an error
leaves either as it was. -/
theorem mounted_trees (fs : FolderManifestBackend) (blob : String → Bytes)
    (reads : fs.ReadsBlobs blob) (canonical : ∀ key ∈ fs.files.keys, Canonical key)
    (independent : Independent slash fs.files.keys) (calls : List Call) :
    (ShowsTree fs.callbacks fs.files.keys (fs.contentAt blob) ∧
      (∀ path offset data e, (FolderManifestBackend.write path offset data fs).1 = .error e →
        (FolderManifestBackend.write path offset data fs).2 = fs) ∧
      ∀ path e, (FolderManifestBackend.unlink path fs).1 = .error e →
        (FolderManifestBackend.unlink path fs).2 = fs) ∧
    (ShowsTree (run step initial calls).inner.callbacks (run step initial calls).inner.files.keys
        (fun p => contentOf (writesTo p (run step initial calls).changes)) ∧
      (∀ p, p ∈ (run step initial calls).inner.files.keys ↔
        writesTo p (run step initial calls).changes ≠ []) ∧
      (∀ now path offset data e,
        (write now path offset data (run step initial calls).inner).1 = .error e →
        (write now path offset data (run step initial calls).inner).2 =
          (run step initial calls).inner) ∧
      ∀ path e, (unlink path (run step initial calls).inner).1 = .error e →
        (unlink path (run step initial calls).inner).2 = (run step initial calls).inner) := by
  refine ⟨⟨fs.showsTree_of reads canonical independent, fun _ _ _ _ _ => rfl, fun _ _ _ => rfl⟩,
    showsTree_run calls, mem_keys_run calls, ?_, ?_⟩
  · intro now path offset data e raised
    exact (write_attempts _ now path offset data).unchanged raised
  · intro path e raised
    exact (unlink_attempts _ path).unchanged raised

def twoBytes : ManifestRow := ⟨2, 0, "blob"⟩

def twoBytesReader (_ : String) (offset : UInt64) (length : UInt32) : Except FsError Bytes :=
  .ok ((([7, 8] : Bytes).drop offset.toNat).take length.toNat)

/-- The files `d-` and `d/f`: the first sorts between the directory `d` and what is in it. -/
def siblings : FolderManifestBackend where
  files := ⟨[([100, 45], twoBytes), ([100, 47, 102], twoBytes)], by decide⟩
  blob_reader := twoBytesReader

/-- The files `a` and `a/b`. -/
def nested : FolderManifestBackend where
  files := ⟨[([97], twoBytes), ([97, 47, 98], twoBytes)], by decide⟩
  blob_reader := twoBytesReader

theorem readsBlobs_of_items {fs : FolderManifestBackend} (reader : fs.blob_reader = twoBytesReader)
    (rows : ∀ entry ∈ fs.files.items, entry.2 = twoBytes) : fs.ReadsBlobs fun _ => [7, 8] := by
  have row_eq : ∀ key row, fs.files.get? key = some row → row = twoBytes :=
    fun key row found => rows (key, row) (SortedMap.mem_of_get? found)
  refine ⟨fun key row found => ?_, fun key row _ offset length _ => ?_⟩
  · rw [row_eq key row found]
    rfl
  · rw [reader]
    rfl

theorem siblings_mounted : ShowsTree siblings.callbacks siblings.files.keys
    (siblings.contentAt fun _ => [7, 8]) :=
  (mounted_trees siblings (fun _ => [7, 8]) (readsBlobs_of_items rfl (by decide)) (by decide)
    (by unfold Independent; decide) []).1.1

/-- The keys are canonical, but `a` is a file with a path below it, and no walk comes past
`a/b`. -/
theorem below_a_file_unseen : nested.ReadsBlobs (fun _ => [7, 8]) ∧
    (∀ key ∈ nested.files.keys, Canonical key) ∧
    ¬ ShowsTree nested.callbacks nested.files.keys (nested.contentAt fun _ => [7, 8]) ∧
    [97, 47, 98] ∈ nested.files.keys ∧
    ∀ depth met, walk slash (listing nested.callbacks) depth [] = some met →
      [97, 47, 98] ∉ met := by
  refine ⟨readsBlobs_of_items rfl (by decide), by decide, fun shows => ?_, by decide, ?_⟩
  · obtain ⟨-, p, -, same, none_below⟩ := shows.file [97] ⟨.File, 2, 0, 0o444⟩ (by decide) rfl
    cases same
    exact none_below [97, 47, 98] (by decide) (by decide)
  · intro depth met walked
    cases depth with
    | zero => cases walked
    | succ depth =>
      have root : listing nested.callbacks [] = some [([97], true)] := by decide
      rw [walk, root] at walked
      cases walked
      decide

end OneLink.Fuse
