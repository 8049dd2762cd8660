/-
# Crdt.Manifest — merging two manifest entries

`merge_manifest_entries` keeps the entry whose clock dominates; two concurrent
entries give the joined clock and the content of the side that outranks the
other: a live entry outranks a tombstone, and of two live ones the larger hash
wins.  `ManifestEntry.rank` is that order and `mergeEntry_cases` says everything
the merge does to clock, hash and size.
-/
import OneLink.Crdt.VectorClock
import Mathlib.Order.WithBot

namespace OneLink.Crdt

set_option autoImplicit false

structure ManifestEntry where
  filePath : String
  /-- `none` is a tombstone. -/
  blobHash : Option String
  size : Option Nat
  mtimeMs : Option Int
  vclock : VectorClock
  deriving DecidableEq

/-- `ValueError("merge_manifest_entries called on different paths")`. -/
inductive MergeError where
  | differentPaths
  deriving DecidableEq, Repr

namespace ManifestEntry

/-- `mtime_ms or 0`. -/
def mtime (e : ManifestEntry) : Int := e.mtimeMs.getD 0

/-- The tie-break of `merge_manifest_entries`, both entries live. -/
def tieBreak (l r : ManifestEntry) (lHash rHash : String) : ManifestEntry :=
  if lHash ≠ rHash then
    if rHash < lHash then l else r
  else if r.mtime ≤ l.mtime then l else r

/-- The branch of `merge_manifest_entries` for concurrent clocks. -/
def mergeConcurrent (l r : ManifestEntry) : ManifestEntry :=
  let mergedClock := l.vclock.merge r.vclock
  match l.blobHash, r.blobHash with
  | none, none =>
    { filePath := l.filePath, blobHash := none, size := none,
      mtimeMs := some (max l.mtime r.mtime), vclock := mergedClock }
  | none, some _ => { r with vclock := mergedClock }
  | some _, none => { l with vclock := mergedClock }
  | some lHash, some rHash =>
    let winner := tieBreak l r lHash rHash
    { winner with mtimeMs := some (max l.mtime r.mtime), vclock := mergedClock }

/-- `merge_manifest_entries` on two entries of one path. -/
def mergeEntry (l r : ManifestEntry) : ManifestEntry :=
  if l.vclock = r.vclock then l
  else if l.vclock.happensBefore r.vclock then r
  else if r.vclock.happensBefore l.vclock then l
  else mergeConcurrent l r

end ManifestEntry

open ManifestEntry

def mergeManifestEntries : Option ManifestEntry → Option ManifestEntry →
    Except MergeError (Option ManifestEntry)
  | none, none => .ok none
  | none, some r => .ok (some r)
  | some l, none => .ok (some l)
  | some l, some r =>
    if l.filePath ≠ r.filePath then .error .differentPaths else .ok (some (mergeEntry l r))

namespace ManifestEntry

/-- Tombstones below live entries, live entries by hash. -/
def rank (e : ManifestEntry) : WithBot String :=
  match e.blobHash with
  | none => ⊥
  | some hash => hash

/-- Equal but for the modification time. -/
def Same (e e' : ManifestEntry) : Prop :=
  e.blobHash = e'.blobHash ∧ e.size = e'.size ∧ e.vclock = e'.vclock

/-- The size recorded is the size of the content with that hash. -/
def Sized (sizeOf : String → Nat) (e : ManifestEntry) : Prop := e.size = e.blobHash.map sizeOf

theorem tieBreak_choice (l r : ManifestEntry) (lHash rHash : String) :
    tieBreak l r lHash rHash = l ∨ tieBreak l r lHash rHash = r := by
  unfold tieBreak
  split
  · split
    · exact .inl rfl
    · exact .inr rfl
  · split
    · exact .inl rfl
    · exact .inr rfl

theorem blobHash_tieBreak {l r : ManifestEntry} {lHash rHash : String}
    (left : l.blobHash = some lHash) (right : r.blobHash = some rHash) :
    (tieBreak l r lHash rHash).blobHash = some (max lHash rHash) := by
  unfold tieBreak
  split
  · split
    · rename_i greater
      rw [left, max_eq_left greater.le]
    · rename_i notGreater
      rw [right, max_eq_right (not_lt.mp notGreater)]
  · rename_i same
    rw [not_not] at same
    split
    · rw [left, same, max_self]
    · rw [right, same, max_self]

theorem rank_of_none {e : ManifestEntry} (tombstone : e.blobHash = none) : e.rank = ⊥ := by
  rw [rank, tombstone]

theorem rank_of_some {e : ManifestEntry} {hash : String} (live : e.blobHash = some hash) :
    e.rank = (hash : WithBot String) := by
  rw [rank, live]

theorem rank_injective {e e' : ManifestEntry} (same : e.rank = e'.rank) :
    e.blobHash = e'.blobHash := by
  cases left : e.blobHash with
  | none =>
    cases right : e'.blobHash with
    | none => rfl
    | some hash =>
      rw [rank_of_none left, rank_of_some right] at same
      simp at same
  | some hash =>
    cases right : e'.blobHash with
    | none =>
      rw [rank_of_some left, rank_of_none right] at same
      simp at same
    | some hash' =>
      rw [rank_of_some left, rank_of_some right, WithBot.coe_inj] at same
      rw [same]

theorem rank_mergeConcurrent (l r : ManifestEntry) :
    (mergeConcurrent l r).rank = max l.rank r.rank := by
  cases left : l.blobHash with
  | none =>
    cases right : r.blobHash with
    | none => simp [mergeConcurrent, left, right, rank]
    | some rHash => simp [mergeConcurrent, left, right, rank]
  | some lHash =>
    cases right : r.blobHash with
    | none => simp [mergeConcurrent, left, right, rank]
    | some rHash =>
      have live : (mergeConcurrent l r).blobHash = some (max lHash rHash) := by
        simp only [mergeConcurrent, left, right]
        exact blobHash_tieBreak left right
      rw [rank_of_some live, rank_of_some left, rank_of_some right, WithBot.coe_max]

theorem vclock_mergeConcurrent (l r : ManifestEntry) :
    (mergeConcurrent l r).vclock = l.vclock ⊔ r.vclock := by
  unfold mergeConcurrent
  split <;> rfl

theorem sized_mergeConcurrent {sizeOf : String → Nat} {l r : ManifestEntry} (hl : l.Sized sizeOf)
    (hr : r.Sized sizeOf) : (mergeConcurrent l r).Sized sizeOf := by
  unfold mergeConcurrent
  split
  · rfl
  · exact hr
  · exact hl
  · rename_i lHash rHash _ _
    rcases tieBreak_choice l r lHash rHash with left | right
    · show (tieBreak l r lHash rHash).Sized sizeOf
      rw [left]
      exact hl
    · show (tieBreak l r lHash rHash).Sized sizeOf
      rw [right]
      exact hr

theorem filePath_mergeConcurrent {l r : ManifestEntry} (same : l.filePath = r.filePath) :
    (mergeConcurrent l r).filePath = l.filePath := by
  unfold mergeConcurrent
  split
  · rfl
  · exact same.symm
  · rfl
  · rename_i lHash rHash _ _
    rcases tieBreak_choice l r lHash rHash with left | right
    · show (tieBreak l r lHash rHash).filePath = l.filePath
      rw [left]
    · show (tieBreak l r lHash rHash).filePath = l.filePath
      rw [right, same]

/-- The merge takes a dominating side as it is, or merges concurrent ones. -/
theorem mergeEntry_cases (l r : ManifestEntry) :
    (r.vclock ≤ l.vclock ∧ mergeEntry l r = l) ∨ (l.vclock ≤ r.vclock ∧ mergeEntry l r = r) ∨
      (¬ l.vclock ≤ r.vclock ∧ ¬ r.vclock ≤ l.vclock ∧
        mergeEntry l r = mergeConcurrent l r) := by
  unfold mergeEntry
  split
  · rename_i same
    exact .inl ⟨same.ge, rfl⟩
  rename_i ne
  split
  · rename_i before
    exact .inr (.inl ⟨(VectorClock.happensBefore_iff.mp before).le, rfl⟩)
  rename_i notBefore
  split
  · rename_i after
    exact .inl ⟨(VectorClock.happensBefore_iff.mp after).le, rfl⟩
  rename_i notAfter
  rw [VectorClock.happensBefore_iff] at notBefore notAfter
  refine .inr (.inr ⟨fun le => notBefore (lt_of_le_of_ne le ne), fun ge => ?_, rfl⟩)
  exact notAfter (lt_of_le_of_ne ge (Ne.symm ne))

theorem mergeEntry_of_lt {l r : ManifestEntry} (lt : l.vclock < r.vclock) :
    mergeEntry l r = r := by
  rw [mergeEntry, if_neg (ne_of_lt lt), if_pos (VectorClock.happensBefore_iff.mpr lt)]

theorem mergeEntry_of_concurrent {l r : ManifestEntry} (nle : ¬ l.vclock ≤ r.vclock)
    (nge : ¬ r.vclock ≤ l.vclock) : mergeEntry l r = mergeConcurrent l r := by
  rcases mergeEntry_cases l r with ⟨ge, -⟩ | ⟨le, -⟩ | ⟨-, -, merged⟩
  · exact absurd ge nge
  · exact absurd le nle
  · exact merged

theorem vclock_mergeEntry (l r : ManifestEntry) :
    (mergeEntry l r).vclock = l.vclock ⊔ r.vclock := by
  rcases mergeEntry_cases l r with ⟨ge, same⟩ | ⟨le, same⟩ | ⟨-, -, same⟩
  · rw [same, sup_eq_left.mpr ge]
  · rw [same, sup_eq_right.mpr le]
  · rw [same, vclock_mergeConcurrent]

theorem sized_mergeEntry {sizeOf : String → Nat} {l r : ManifestEntry} (hl : l.Sized sizeOf)
    (hr : r.Sized sizeOf) : (mergeEntry l r).Sized sizeOf := by
  rcases mergeEntry_cases l r with ⟨-, same⟩ | ⟨-, same⟩ | ⟨-, -, same⟩
  · rwa [same]
  · rwa [same]
  · rw [same]
    exact sized_mergeConcurrent hl hr

theorem filePath_mergeEntry {l r : ManifestEntry} (same : l.filePath = r.filePath) :
    (mergeEntry l r).filePath = l.filePath := by
  rcases mergeEntry_cases l r with ⟨-, eq⟩ | ⟨-, eq⟩ | ⟨-, -, eq⟩
  · rw [eq]
  · rw [eq, same]
  · rw [eq, filePath_mergeConcurrent same]

theorem mergeManifestEntries_eq_ok {l r m : ManifestEntry} :
    mergeManifestEntries (some l) (some r) = .ok (some m) ↔
      l.filePath = r.filePath ∧ mergeEntry l r = m := by
  by_cases same : l.filePath = r.filePath
  · simp [mergeManifestEntries, same]
  · simp [mergeManifestEntries, same]

end ManifestEntry

end OneLink.Crdt
