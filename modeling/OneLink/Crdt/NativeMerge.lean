/-
# Crdt.NativeMerge — the manifest merge that asks the native folder

`merge_entries_via_native` builds a native folder for each of two entries, merges
them, and lets the OR-set say whether the file is there; content and clock follow the
rules of `merge_manifest_entries`.  The two agree on hash and clock wherever the
native side takes the numbers: sizes and times go into the folder as `u64`, and a
negative or larger one raises, upon which the engine falls back to the other merge.

`blake3` gives 32 bytes; the digests of the native crate are parameters.
-/
import OneLink.Crdt.Manifest
import OneLink.Library.ByteOrder
import OneLink.Library.Checked
import OneLink.Library.Framing
import OneLink.NativeCrdt.Folder

namespace OneLink.Crdt

open Library
open OneLink.NativeCrdt (Digests Folder)

set_option autoImplicit false

inductive NativeError where
  /-- `ValueError("merge_entries_via_native called on different paths")`. -/
  | differentPaths
  /-- `OverflowError`: an integer that is no `u64`. -/
  | overflow
  /-- `ValueError("{field} must be exactly 32 bytes, got {got}")`. -/
  | length (field : String) (got : Nat)
  deriving DecidableEq, Repr

section Native

variable {Tag Hash : Type} [LinearOrder Tag] [LinearOrder Hash]

/- `blake3.blake3(data).digest()`, and the digests of the native crate -/
variable (blake3 : Bytes → Bytes) (D : Digests Bytes Tag Hash)

def fileIdForPath (filePath : String) : Bytes := blake3 filePath.toUTF8.toList

def replicaIdForFingerprint (peerFingerprint : Bytes) : Bytes :=
  if peerFingerprint.length = 32 then peerFingerprint else blake3 peerFingerprint

/-- A `u64` argument of the binding. -/
def asU64 (n : Int) : Except NativeError Nat := do
  require (0 ≤ n ∧ n < 2 ^ 64) .overflow
  return n.toNat

/-- `PyFolder.add_file` -/
def pyAddFile (folder : Folder Bytes Bytes Tag) (replica fileId : Bytes) (displayName : String)
    (sizeBytes lastModifiedMs : Int) : Except NativeError (Folder Bytes Bytes Tag) := do
  let size ← asU64 sizeBytes
  let mtime ← asU64 lastModifiedMs
  require (replica.length = 32) (.length "replica" replica.length)
  require (fileId.length = 32) (.length "file_id" fileId.length)
  return folder.addFile D replica fileId displayName size mtime

/-- `PyFolder.remove_file` -/
def pyRemoveFile (folder : Folder Bytes Bytes Tag) (replica fileId : Bytes) :
    Except NativeError (Folder Bytes Bytes Tag) := do
  require (replica.length = 32) (.length "replica" replica.length)
  require (fileId.length = 32) (.length "file_id" fileId.length)
  return folder.removeFile replica fileId

/-- `entry.size or 0`. -/
def ManifestEntry.sizeOrZero (e : ManifestEntry) : Int := e.size.getD 0

/-- The loop body of `manifest_entries_to_native_folder`. -/
def addEntry (rid : Bytes) (folder : Folder Bytes Bytes Tag) (e : ManifestEntry) :
    Except NativeError (Folder Bytes Bytes Tag) := do
  let fid := fileIdForPath blake3 e.filePath
  let folder ← pyAddFile D folder rid fid e.filePath e.sizeOrZero e.mtime
  match e.blobHash with
  | none => pyRemoveFile folder rid fid
  | some _ => return folder

def manifestEntriesToNativeFolder (entries : List ManifestEntry) (replicaId : Bytes) :
    Except NativeError (Folder Bytes Bytes Tag) :=
  entries.foldlM (addEntry blake3 D (replicaIdForFingerprint blake3 replicaId)) .new

/-- The id of the other side: the peer's, or each byte of the local one plus one. -/
def remoteReplicaId (ridLocal : Bytes) : Option Bytes → Bytes
  | some peerReplicaId => replicaIdForFingerprint blake3 peerReplicaId
  | none => (ridLocal ++ List.replicate (32 - ridLocal.length) 0).map (· + 1)

/-- The branches of `merge_entries_via_native` after the folders have been merged. -/
def resolveNative (present : Bool) (l r : ManifestEntry) : ManifestEntry :=
  let mergedClock := l.vclock.merge r.vclock
  if !present then
    { filePath := l.filePath, blobHash := none, size := none,
      mtimeMs := some (max l.mtime r.mtime), vclock := mergedClock }
  else if l.vclock = r.vclock then l
  else if l.vclock.happensBefore r.vclock then r
  else if r.vclock.happensBefore l.vclock then l
  else
    match l.blobHash, r.blobHash with
    | none, _ => { r with vclock := mergedClock }
    | some _, none => { l with vclock := mergedClock }
    | some lHash, some rHash =>
      let winner :=
        if lHash ≠ rHash then if rHash < lHash then l else r
        else if r.mtime ≤ l.mtime then l else r
      { winner with mtimeMs := some (max l.mtime r.mtime), vclock := mergedClock }

def mergeEntriesViaNative (loc rem : Option ManifestEntry) (replicaId : Bytes)
    (peerReplicaId : Option Bytes) : Except NativeError (Option ManifestEntry) :=
  match loc, rem with
  | none, none => .ok none
  | none, some r => .ok (some r)
  | some l, none => .ok (some l)
  | some l, some r => do
    require (l.filePath = r.filePath) .differentPaths
    let ridLocal := replicaIdForFingerprint blake3 replicaId
    let ridRemote := remoteReplicaId blake3 ridLocal peerReplicaId
    let localFolder ← manifestEntriesToNativeFolder blake3 D [l] ridLocal
    let remoteFolder ← manifestEntriesToNativeFolder blake3 D [r] ridRemote
    let merged := localFolder.merge D remoteFolder
    return some (resolveNative (merged.Contains (fileIdForPath blake3 r.filePath)) l r)

/-! ## The folder of one entry -/

/-- Size and modification time are `u64` values. -/
def ManifestEntry.FitsNative (e : ManifestEntry) : Prop :=
  (0 ≤ e.sizeOrZero ∧ e.sizeOrZero < 2 ^ 64) ∧ 0 ≤ e.mtime ∧ e.mtime < 2 ^ 64

/-- The two sides of the OR-set built from one entry. -/
def Holding (f : Folder Bytes Bytes Tag) (fid : Bytes) (tag : Tag) (e : ManifestEntry) : Prop :=
  f.files.added = {(fid, tag)} ∧ f.files.removed = if e.blobHash = none then {tag} else ∅

variable {blake3} {D}

theorem replicaIdForFingerprint_length (digest : ∀ data, (blake3 data).length = 32)
    (fp : Bytes) : (replicaIdForFingerprint blake3 fp).length = 32 := by
  unfold replicaIdForFingerprint
  split
  · assumption
  · exact digest fp

theorem replicaIdForFingerprint_of_length {fp : Bytes} (length : fp.length = 32) :
    replicaIdForFingerprint blake3 fp = fp :=
  if_pos length

/-- An entry whose numbers fit becomes a folder with one add, removed if it is a
tombstone. -/
theorem manifestEntriesToNativeFolder_of_fits (digest : ∀ data, (blake3 data).length = 32)
    {e : ManifestEntry} (fits : e.FitsNative) {rid : Bytes} (length : rid.length = 32) :
    ∃ f, manifestEntriesToNativeFolder blake3 D [e] rid = .ok f ∧
      Holding f (fileIdForPath blake3 e.filePath) (D.deriveTag rid 1) e := by
  have fid32 : (fileIdForPath blake3 e.filePath).length = 32 := digest _
  have adds : pyAddFile D (.new : Folder Bytes Bytes Tag) rid (fileIdForPath blake3 e.filePath)
      e.filePath e.sizeOrZero e.mtime =
      .ok (Folder.addFile D .new rid (fileIdForPath blake3 e.filePath) e.filePath
        e.sizeOrZero.toNat e.mtime.toNat) := by
    simp only [pyAddFile, asU64, require_of fits.1, require_of fits.2, ok_bind, require_of length,
      require_of fid32, pure, Except.pure]
  rw [manifestEntriesToNativeFolder, replicaIdForFingerprint_of_length length]
  simp only [List.foldlM_cons, List.foldlM_nil, addEntry, adds, ok_bind]
  cases tombstone : e.blobHash with
  | none =>
    simp only [pyRemoveFile, require_of length, require_of fid32, ok_bind, bind_pure]
    refine ⟨_, rfl, ?_, ?_⟩
    · rfl
    · rw [if_pos tombstone]
      simp [Folder.removeFile, Folder.addFile, Folder.new, NativeCrdt.OrSet.remove,
        NativeCrdt.OrSet.add, Finset.filter_singleton]
      rfl
  | some hash =>
    refine ⟨_, rfl, ?_, ?_⟩
    · rfl
    · rw [if_neg (by simp [tombstone])]
      rfl

/-- A number that is no `u64` stops the conversion. -/
theorem manifestEntriesToNativeFolder_of_not_fits {e : ManifestEntry} (large : ¬ e.FitsNative)
    (rid : Bytes) : manifestEntriesToNativeFolder blake3 D [e] rid = .error .overflow := by
  have stops : ∀ folder : Folder Bytes Bytes Tag, addEntry blake3 D
      (replicaIdForFingerprint blake3 rid) folder e = .error .overflow := by
    intro folder
    by_cases size : 0 ≤ e.sizeOrZero ∧ e.sizeOrZero < 2 ^ 64
    · have time : ¬ (0 ≤ e.mtime ∧ e.mtime < 2 ^ 64) := fun time => large ⟨size, time⟩
      simp only [addEntry, pyAddFile, asU64, require_of size, require_of_not time, ok_bind,
        error_bind, pure, Except.pure]
    · simp only [addEntry, pyAddFile, asU64, require_of_not size, error_bind]
  simp only [manifestEntriesToNativeFolder, List.foldlM_cons, stops, error_bind]

/-- The merged folder contains the file iff one of the two entries is live. -/
theorem contains_merged_iff {f g : Folder Bytes Bytes Tag} {fid : Bytes} {tag tag' : Tag}
    {l r : ManifestEntry} (holds : Holding f fid tag l) (holds' : Holding g fid tag' r)
    (apart : tag ≠ tag') :
    (f.merge D g).Contains fid ↔ l.blobHash ≠ none ∨ r.blobHash ≠ none := by
  simp only [Folder.Contains, NativeCrdt.OrSet.Contains, Folder.merge, NativeCrdt.OrSet.merge,
    holds.1, holds.2, holds'.1, holds'.2, Finset.mem_union, Finset.mem_singleton, or_and_right,
    exists_or, exists_eq_left, true_and]
  by_cases deadL : l.blobHash = none
  · by_cases deadR : r.blobHash = none
    · simp [deadL, deadR]
    · simp [deadL, deadR, apart.symm]
  · by_cases deadR : r.blobHash = none
    · simp [deadL, deadR, apart]
    · simp [deadL, deadR]

/-! ## The two merges -/

open ManifestEntry in
/-- With a live side the branches are those of the other merge. -/
theorem resolveNative_present {l r : ManifestEntry}
    (live : l.blobHash ≠ none ∨ r.blobHash ≠ none) :
    resolveNative true l r = mergeEntry l r := by
  unfold resolveNative mergeEntry mergeConcurrent tieBreak
  cases left : l.blobHash with
  | none =>
    cases right : r.blobHash with
    | none => simp [left, right] at live
    | some rHash => rfl
  | some lHash =>
    cases right : r.blobHash with
    | none => rfl
    | some rHash => rfl

open ManifestEntry in
/-- Of two tombstones both merges make a tombstone under the joined clock. -/
theorem resolveNative_absent {l r : ManifestEntry} (deadL : l.blobHash = none)
    (deadR : r.blobHash = none) :
    (resolveNative false l r).blobHash = (mergeEntry l r).blobHash ∧
      (resolveNative false l r).vclock = (mergeEntry l r).vclock := by
  refine ⟨?_, (vclock_mergeEntry l r).symm⟩
  have dead : (mergeEntry l r).blobHash = none := by
    rcases mergeEntry_cases l r with ⟨-, same⟩ | ⟨-, same⟩ | ⟨-, -, same⟩
    · rw [same, deadL]
    · rw [same, deadR]
    · rw [same]
      simp [mergeConcurrent, deadL, deadR]
  exact dead.symm

/-- Both absent, or the same hash and clocks equal at every node. -/
def Agree : Option ManifestEntry → Option ManifestEntry → Prop
  | none, none => True
  | some m, some m' => m.blobHash = m'.blobHash ∧ ∀ node, m.vclock.get node = m'.vclock.get node
  | _, _ => False

theorem remoteReplicaId_length (digest : ∀ data, (blake3 data).length = 32) {ridLocal : Bytes}
    (length : ridLocal.length = 32) (peer : Option Bytes) :
    (remoteReplicaId blake3 ridLocal peer).length = 32 := by
  cases peer with
  | none => simp [remoteReplicaId, length]
  | some peer => exact replicaIdForFingerprint_length digest peer

/-- The id made up for an unknown peer is not the local one. -/
theorem remoteReplicaId_none_ne {ridLocal : Bytes} (length : ridLocal.length = 32) :
    remoteReplicaId blake3 ridLocal none ≠ ridLocal := by
  simp only [remoteReplicaId, length, Nat.sub_self, List.replicate_zero, List.append_nil]
  cases ridLocal with
  | nil => simp at length
  | cons b rest =>
    intro same
    have head : b + 1 = b := (List.cons.inj same).1
    simp at head

theorem mergeEntriesViaNative_of_fits (digest : ∀ data, (blake3 data).length = 32)
    (tags : ∀ r c r' c', D.deriveTag r c = D.deriveTag r' c' → r = r' ∧ c = c')
    {replicaId : Bytes} {peerReplicaId : Option Bytes}
    (distinct : ∀ peer ∈ peerReplicaId, replicaIdForFingerprint blake3 replicaId ≠
      replicaIdForFingerprint blake3 peer)
    {l r : ManifestEntry} (samePath : l.filePath = r.filePath) (fits : l.FitsNative)
    (fits' : r.FitsNative) :
    mergeEntriesViaNative blake3 D (some l) (some r) replicaId peerReplicaId =
      .ok (some (resolveNative (l.blobHash ≠ none ∨ r.blobHash ≠ none) l r)) := by
  have length := replicaIdForFingerprint_length digest replicaId
  have apart : remoteReplicaId blake3 (replicaIdForFingerprint blake3 replicaId) peerReplicaId ≠
      replicaIdForFingerprint blake3 replicaId := by
    cases peerReplicaId with
    | none => exact remoteReplicaId_none_ne length
    | some peer => exact (distinct peer rfl).symm
  have apartTags := fun same => apart (tags _ 1 _ 1 same).1.symm
  obtain ⟨f, built, holds⟩ := manifestEntriesToNativeFolder_of_fits (D := D) digest fits length
  obtain ⟨g, built', holds'⟩ := manifestEntriesToNativeFolder_of_fits (D := D) digest fits'
    (remoteReplicaId_length digest length peerReplicaId)
  rw [samePath] at holds
  have present := contains_merged_iff (D := D) holds holds' apartTags
  simp only [mergeEntriesViaNative, require_of samePath, built, built', ok_bind, present]
  rfl

theorem mergeEntriesViaNative_of_not_fits {replicaId : Bytes} {peerReplicaId : Option Bytes}
    {l r : ManifestEntry} (samePath : l.filePath = r.filePath)
    (large : ¬ (l.FitsNative ∧ r.FitsNative)) (digest : ∀ data, (blake3 data).length = 32) :
    mergeEntriesViaNative blake3 D (some l) (some r) replicaId peerReplicaId =
      .error .overflow := by
  by_cases fits : l.FitsNative
  · obtain ⟨f, built, -⟩ := manifestEntriesToNativeFolder_of_fits (D := D) digest fits
      (replicaIdForFingerprint_length digest replicaId)
    have large' : ¬ r.FitsNative := fun fits' => large ⟨fits, fits'⟩
    simp only [mergeEntriesViaNative, require_of samePath, built, ok_bind,
      manifestEntriesToNativeFolder_of_not_fits large', error_bind]
  · simp only [mergeEntriesViaNative, require_of samePath, ok_bind,
      manifestEntriesToNativeFolder_of_not_fits fits, error_bind]

/-- **On one path, the native merge and the other give the same hash and the same clock
where all numbers fit a `u64`; elsewhere the native one raises.** -/
theorem native_merge_agrees (digest : ∀ data, (blake3 data).length = 32)
    (tags : ∀ r c r' c', D.deriveTag r c = D.deriveTag r' c' → r = r' ∧ c = c')
    (replicaId : Bytes) (peerReplicaId : Option Bytes)
    (distinct : ∀ peer ∈ peerReplicaId, replicaIdForFingerprint blake3 replicaId ≠
      replicaIdForFingerprint blake3 peer)
    (loc rem : Option ManifestEntry)
    (samePath : ∀ l ∈ loc, ∀ r ∈ rem, l.filePath = r.filePath) :
    ((∀ l ∈ loc, ∀ r ∈ rem, l.FitsNative ∧ r.FitsNative) →
      ∃ native legacy, mergeEntriesViaNative blake3 D loc rem replicaId peerReplicaId =
          .ok native ∧
        mergeManifestEntries loc rem = .ok legacy ∧ Agree native legacy) ∧
      ((∃ l ∈ loc, ∃ r ∈ rem, ¬ (l.FitsNative ∧ r.FitsNative)) →
        mergeEntriesViaNative blake3 D loc rem replicaId peerReplicaId = .error .overflow) := by
  cases loc with
  | none =>
    refine ⟨fun _ => ?_, fun ⟨_, absent, _⟩ => nomatch absent⟩
    cases rem with
    | none => exact ⟨none, none, rfl, rfl, trivial⟩
    | some r => exact ⟨some r, some r, rfl, rfl, rfl, fun _ => rfl⟩
  | some l =>
    cases rem with
    | none =>
      refine ⟨fun _ => ?_, fun ⟨_, _, _, absent, _⟩ => nomatch absent⟩
      exact ⟨some l, some l, rfl, rfl, rfl, fun _ => rfl⟩
    | some r =>
      have same : l.filePath = r.filePath := samePath l rfl r rfl
      constructor
      · intro fit
        obtain ⟨fits, fits'⟩ := fit l rfl r rfl
        refine ⟨_, _, mergeEntriesViaNative_of_fits digest tags distinct same fits fits',
          ManifestEntry.mergeManifestEntries_eq_ok.mpr ⟨same, rfl⟩, ?_⟩
        by_cases live : l.blobHash ≠ none ∨ r.blobHash ≠ none
        · rw [decide_eq_true live, resolveNative_present live]
          exact ⟨rfl, fun _ => rfl⟩
        · obtain ⟨deadL, deadR⟩ := not_or.mp live
          obtain ⟨hash, clock⟩ := resolveNative_absent (not_not.mp deadL) (not_not.mp deadR)
          rw [decide_eq_false live]
          exact ⟨hash, fun _ => by rw [clock]⟩
      · rintro ⟨_, ⟨⟩, _, ⟨⟩, large⟩
        exact mergeEntriesViaNative_of_not_fits same large digest

end Native

/-! ## A time before 1970 -/

/-- Digests of the native crate that keep their input. -/
def textDigests : Digests Bytes (Bytes ×ₗ Nat) (Bytes ×ₗ Nat) where
  deriveTag replica counter := toLex (replica, counter)
  deriveKey replica _ timestamp := toLex (replica, timestamp)
  debugString name := name

def zeros (_ : Bytes) : Bytes := List.replicate 32 0

/-- A file of one node with a modification time. -/
def dated (node : String) (hash : String) (mtime : Int) : ManifestEntry where
  filePath := "notes.txt"
  blobHash := some hash
  size := some 3
  mtimeMs := some mtime
  vclock := VectorClock.empty.increment node

theorem native_merge_raises :
    mergeEntriesViaNative zeros textDigests (some (dated "a" "aa" (-1)))
        (some (dated "b" "bb" 5)) (List.replicate 32 1) (some (List.replicate 32 2)) =
      .error .overflow ∧
    ∃ merged, mergeManifestEntries (some (dated "a" "aa" (-1))) (some (dated "b" "bb" 5)) =
      .ok (some merged) ∧ merged.blobHash = some "bb" := by
  refine ⟨by decide +kernel, _, rfl, by decide +kernel⟩

theorem native_merge_agrees_dated :
    ∃ native legacy, mergeEntriesViaNative zeros textDigests (some (dated "a" "aa" 7))
        (some (dated "b" "bb" 5)) (List.replicate 32 1) (some (List.replicate 32 2)) =
        .ok native ∧
      mergeManifestEntries (some (dated "a" "aa" 7)) (some (dated "b" "bb" 5)) = .ok legacy ∧
      Agree native legacy := by
  have digest : ∀ data, (zeros data).length = 32 := fun _ => rfl
  refine (native_merge_agrees digest ?_ _ _ ?_ _ _ ?_).1 ?_
  · intro r c r' c' same
    exact Prod.ext_iff.mp (congrArg ofLex same)
  · rintro peer ⟨⟩
    decide
  · rintro l ⟨⟩ r ⟨⟩
    rfl
  · rintro l ⟨⟩ r ⟨⟩
    exact ⟨by unfold ManifestEntry.FitsNative; decide, by unfold ManifestEntry.FitsNative; decide⟩

end OneLink.Crdt
