/-
# Crdt.Conflict — what the conflict log says about a merge

After the merge of a remote entry has been applied, `_maybe_record_conflict` logs
two concurrent live entries of one path, with the side that won.  It does not ask
the merge: it predicts, by modification time first and by hash between equal times,
while the merge goes by the hash alone.  The row is right exactly when the later
time, if there is one, is on the side with the larger hash.
-/
import OneLink.Crdt.Manifest

namespace OneLink.Crdt

set_option autoImplicit false

/-- `applied_choice`: `"local"` or `"remote"`. -/
inductive AppliedChoice where
  | localSide
  | remoteSide
  deriving DecidableEq, Repr

/-- The columns of a row that the caller supplies. -/
structure ConflictRow where
  folderName : String
  filePath : String
  peerFp : Option String
  localBlobHash : String
  localSize : Option Nat
  localMtimeMs : Option Int
  localVclock : VectorClock
  remoteBlobHash : String
  remoteSize : Option Nat
  remoteMtimeMs : Option Int
  remoteVclock : VectorClock
  appliedChoice : AppliedChoice
  deriving DecidableEq

/-- A row of `manifest_conflicts`, with its id. -/
structure StoredConflict where
  id : Nat
  row : ConflictRow
  resolved : Bool
  deriving DecidableEq

/-- Of two values, that of the side named. -/
def AppliedChoice.pick {α : Type} (choice : AppliedChoice) (l r : α) : α :=
  match choice with
  | .localSide => l
  | .remoteSide => r

/-- The hash of the side a row names. -/
def ConflictRow.appliedHash (row : ConflictRow) : String :=
  row.appliedChoice.pick row.localBlobHash row.remoteBlobHash

/-- The prediction of `_maybe_record_conflict`. -/
def predictChoice (l r : ManifestEntry) (lHash rHash : String) : AppliedChoice :=
  if l.mtime ≠ r.mtime then
    if r.mtime < l.mtime then .localSide else .remoteSide
  else if rHash ≤ lHash then .localSide
  else .remoteSide

/-- The arguments of `record_manifest_conflict`. -/
def rowOf (folderName : String) (l r : ManifestEntry) (peerFp : Option String)
    (lHash rHash : String) : ConflictRow where
  folderName := folderName
  filePath := r.filePath
  peerFp := peerFp
  localBlobHash := lHash
  localSize := l.size
  localMtimeMs := l.mtimeMs
  localVclock := l.vclock
  remoteBlobHash := rHash
  remoteSize := r.size
  remoteMtimeMs := r.mtimeMs
  remoteVclock := r.vclock
  appliedChoice := predictChoice l r lHash rHash

/-- The row that `_maybe_record_conflict` passes on, where it does not return early. -/
def conflictRow (folderName : String) (loc : Option ManifestEntry) (r : ManifestEntry)
    (peerFp : Option String) : Option ConflictRow :=
  match loc with
  | none => none
  | some l =>
    match l.blobHash, r.blobHash with
    | some lHash, some rHash =>
      if lHash = rHash then none
      else if !l.vclock.concurrentWith r.vclock then none
      else some (rowOf folderName l r peerFp lHash rHash)
    | _, _ => none

/-- An unresolved row for the same path and the same two clocks. -/
def StoredConflict.repeats (stored : StoredConflict) (row : ConflictRow) : Bool :=
  stored.row.folderName = row.folderName ∧ stored.row.filePath = row.filePath ∧
    stored.row.localVclock = row.localVclock ∧ stored.row.remoteVclock = row.remoteVclock ∧
    stored.resolved = false

/-- `record_manifest_conflict`: the id of the row, and the table after it.  `fresh` is
the row id SQLite assigns. -/
def recordManifestConflict (table : List StoredConflict) (fresh : Nat) (row : ConflictRow) :
    Nat × List StoredConflict :=
  match table.find? (·.repeats row) with
  | some existing => (existing.id, table)
  | none => (fresh, table ++ [⟨fresh, row, false⟩])

/-- `_maybe_record_conflict` on the table. -/
def maybeRecordConflict (table : List StoredConflict) (fresh : Nat) (folderName : String)
    (loc : Option ManifestEntry) (r : ManifestEntry) (peerFp : Option String) :
    List StoredConflict :=
  match conflictRow folderName loc r peerFp with
  | none => table
  | some row => (recordManifestConflict table fresh row).2

/-! ## What is logged -/

/-- Two concurrent live entries with different hashes are logged, nothing else is. -/
theorem conflictRow_eq_some {folderName : String} {loc : Option ManifestEntry}
    {r : ManifestEntry} {peerFp : Option String} {row : ConflictRow} :
    conflictRow folderName loc r peerFp = some row ↔
      ∃ l lHash rHash, loc = some l ∧ l.blobHash = some lHash ∧ r.blobHash = some rHash ∧
        lHash ≠ rHash ∧ l.vclock.concurrentWith r.vclock = true ∧
        rowOf folderName l r peerFp lHash rHash = row := by
  cases loc with
  | none => simp [conflictRow]
  | some l =>
    cases left : l.blobHash with
    | none => simp [conflictRow, left]
    | some lHash =>
      cases right : r.blobHash with
      | none => simp [conflictRow, left, right]
      | some rHash =>
        by_cases same : lHash = rHash
        · simp [conflictRow, left, right, same]
        · cases concurrent : l.vclock.concurrentWith r.vclock with
          | false => simp [conflictRow, left, right, same, concurrent]
          | true => simp [conflictRow, left, right, same, concurrent]

/-! ## Prediction and merge -/

/-- The prediction goes by the times, and by the hashes between equal times. -/
theorem pick_predictChoice (l r : ManifestEntry) (lHash rHash : String) :
    (predictChoice l r lHash rHash).pick lHash rHash =
      if l.mtime = r.mtime then max lHash rHash
      else if r.mtime < l.mtime then lHash else rHash := by
  unfold predictChoice
  by_cases sameTime : l.mtime = r.mtime
  · by_cases larger : rHash ≤ lHash
    · simp [sameTime, larger, AppliedChoice.pick]
    · simp [sameTime, larger, AppliedChoice.pick, (not_le.mp larger).le]
  · by_cases later : r.mtime < l.mtime
    · simp [sameTime, later, AppliedChoice.pick]
    · simp [sameTime, later, AppliedChoice.pick]

/-- The prediction finds the larger hash iff the later time goes with it. -/
theorem pick_eq_max_iff {l r : ManifestEntry} {lHash rHash : String} (differ : lHash ≠ rHash) :
    (predictChoice l r lHash rHash).pick lHash rHash = max lHash rHash ↔
      l.mtime = r.mtime ∨ (r.mtime < l.mtime ↔ rHash < lHash) := by
  rw [pick_predictChoice]
  by_cases sameTime : l.mtime = r.mtime
  · simp [sameTime]
  · rw [if_neg sameTime]
    by_cases later : r.mtime < l.mtime
    · rw [if_pos later, eq_comm, max_eq_left_iff, le_iff_lt_or_eq, or_iff_left differ.symm]
      simp only [sameTime, later, false_or, true_iff]
    · rw [if_neg later, eq_comm, max_eq_right_iff, ← not_lt]
      simp only [sameTime, later, false_or, false_iff]

/-- The merge of two concurrent live entries keeps the larger hash. -/
theorem blobHash_mergeEntry_of_live {l r : ManifestEntry} {lHash rHash : String}
    (left : l.blobHash = some lHash) (right : r.blobHash = some rHash)
    (concurrent : l.vclock.concurrentWith r.vclock = true) :
    (ManifestEntry.mergeEntry l r).blobHash = some (max lHash rHash) := by
  obtain ⟨notLe, notGe⟩ := VectorClock.concurrentWith_iff.mp concurrent
  rw [ManifestEntry.mergeEntry_of_concurrent notLe notGe]
  simp only [ManifestEntry.mergeConcurrent, left, right]
  exact ManifestEntry.blobHash_tieBreak left right

/-- **The logged choice names the merged side exactly when the later modification time,
if the times differ, is on the side with the larger hash.** -/
theorem applied_choice_iff {l r : ManifestEntry} {lHash rHash : String}
    (left : l.blobHash = some lHash) (right : r.blobHash = some rHash)
    (differ : lHash ≠ rHash) (concurrent : l.vclock.concurrentWith r.vclock = true)
    (samePath : l.filePath = r.filePath) (folderName : String) (peerFp : Option String) :
    ∃ row merged,
      (∀ table fresh, maybeRecordConflict table fresh folderName (some l) r peerFp =
        (recordManifestConflict table fresh row).2) ∧
      mergeManifestEntries (some l) (some r) = .ok (some merged) ∧
      (some row.appliedHash = merged.blobHash ↔
        l.mtime = r.mtime ∨ (r.mtime < l.mtime ↔ rHash < lHash)) := by
  obtain ⟨row, logged⟩ : ∃ row, conflictRow folderName (some l) r peerFp = some row := by
    simp [conflictRow, left, right, differ, concurrent]
  refine ⟨row, ManifestEntry.mergeEntry l r, fun table fresh => ?_,
    ManifestEntry.mergeManifestEntries_eq_ok.mpr ⟨samePath, rfl⟩, ?_⟩
  · simp only [maybeRecordConflict, logged]
  · obtain ⟨_, _, _, same, left', right', -, -, rfl⟩ := conflictRow_eq_some.mp logged
    cases same
    rw [left] at left'
    rw [right] at right'
    cases left'
    cases right'
    rw [blobHash_mergeEntry_of_live left right concurrent, Option.some_inj]
    exact pick_eq_max_iff differ

/-! ## A row that is wrong -/

/-- A file as one node wrote it. -/
def written (node : String) (hash : Char) (mtime : Int) : ManifestEntry where
  filePath := "notes.txt"
  blobHash := some (String.ofList (List.replicate 64 hash))
  size := some 3
  mtimeMs := some mtime
  vclock := VectorClock.empty.increment node

/-- The older file has the larger hash: the row says `"remote"`, the merge kept local. -/
theorem conflict_row_wrong :
    ∃ row merged, conflictRow "docs" (some (written "a" 'b' 100)) (written "b" 'a' 200) none =
        some row ∧
      mergeManifestEntries (some (written "a" 'b' 100)) (some (written "b" 'a' 200)) =
        .ok (some merged) ∧
      row.appliedChoice = .remoteSide ∧
      merged.blobHash = (written "a" 'b' 100).blobHash ∧
      some row.appliedHash ≠ merged.blobHash := by
  refine ⟨_, _, rfl, rfl, ?_, ?_, ?_⟩
  · decide +kernel
  · decide +kernel
  · decide +kernel

theorem conflict_row_right :
    (written "a" 'b' 200).vclock.concurrentWith (written "b" 'a' 100).vclock = true ∧
      ∃ row merged,
        (∀ table fresh, maybeRecordConflict table fresh "docs" (some (written "a" 'b' 200))
          (written "b" 'a' 100) none = (recordManifestConflict table fresh row).2) ∧
        mergeManifestEntries (some (written "a" 'b' 200)) (some (written "b" 'a' 100)) =
          .ok (some merged) ∧
        some row.appliedHash = merged.blobHash := by
  have concurrent : (written "a" 'b' 200).vclock.concurrentWith (written "b" 'a' 100).vclock =
      true := by decide +kernel
  obtain ⟨row, merged, logs, merges, names⟩ := applied_choice_iff (l := written "a" 'b' 200)
    (r := written "b" 'a' 100) rfl rfl (by decide +kernel) concurrent rfl "docs" none
  exact ⟨concurrent, row, merged, logs, merges, names.mpr (by decide +kernel)⟩

end OneLink.Crdt
