/-
# NativeCrdt.Folder — the folder lattice of `ol_crdt`

A vector clock, an observed-remove set of file ids and three last-writer-wins
registers per file.  Each merge is a join: pointwise maximum, union, and the maximum
under the stamp of a register.

Ids, tags and digests are ordered types; `Digests` holds what the crate takes from
BLAKE3.  Counters are `u64` and wrap.
-/
import OneLink.Library.SortedMap

namespace OneLink.NativeCrdt

open Library

set_option autoImplicit false

/-- The digests of the crate: `derive_tag`, and `blake3::derive_key` over a replica
id, the `Debug` text of a value and a timestamp. -/
structure Digests (ReplicaId Tag Hash : Type) where
  deriveTag : ReplicaId → (counter : Nat) → Tag
  deriveKey : ReplicaId → (valueRepr : String) → (timestamp : Nat) → Hash
  /-- `format!("{:?}", name)` -/
  debugString : String → String

/-! ## Registers -/

@[ext]
structure LwwRegister (V ReplicaId : Type) where
  value : V
  timestamp : Nat
  replica : ReplicaId
  deriving DecidableEq

namespace LwwRegister

variable {V ReplicaId Tag Hash : Type} [LinearOrder Hash]
    (D : Digests ReplicaId Tag Hash) (debug : V → String)

def tiebreakHash (r : LwwRegister V ReplicaId) : Hash :=
  D.deriveKey r.replica (debug r.value) r.timestamp

/-- `other` should overwrite `self`. -/
def dominates (self other : LwwRegister V ReplicaId) : Prop :=
  self.timestamp < other.timestamp ∨
    (self.timestamp = other.timestamp ∧ tiebreakHash D debug self < tiebreakHash D debug other)

instance (self other : LwwRegister V ReplicaId) : Decidable (dominates D debug self other) :=
  inferInstanceAs (Decidable (_ ∨ _))

def merge (self other : LwwRegister V ReplicaId) : LwwRegister V ReplicaId :=
  if dominates D debug self other then other else self

/-- The stamp a merge maximises. -/
def stamp (r : LwwRegister V ReplicaId) : Nat ×ₗ Hash :=
  toLex (r.timestamp, tiebreakHash D debug r)

theorem dominates_iff (self other : LwwRegister V ReplicaId) :
    dominates D debug self other ↔ stamp D debug self < stamp D debug other := by
  rw [stamp, stamp, Prod.Lex.toLex_lt_toLex]
  rfl

theorem merge_eq (self other : LwwRegister V ReplicaId) :
    merge D debug self other =
      if stamp D debug self < stamp D debug other then other else self := by
  simp only [merge, dominates_iff]

theorem stamp_merge (a b : LwwRegister V ReplicaId) :
    stamp D debug (merge D debug a b) = max (stamp D debug a) (stamp D debug b) := by
  rw [merge_eq]
  split
  · next less => exact (max_eq_right less.le).symm
  · next notLess => exact (max_eq_left (not_lt.mp notLess)).symm

variable {D debug}

omit [LinearOrder Hash] in
theorem eq_of_stamp
    (collisionFree : ∀ a b : LwwRegister V ReplicaId,
      a.tiebreakHash D debug = b.tiebreakHash D debug → a = b)
    {a b : LwwRegister V ReplicaId} (same : stamp D debug a = stamp D debug b) : a = b :=
  collisionFree a b (congrArg (fun s => (ofLex s).2) same)

variable (collisionFree : ∀ a b : LwwRegister V ReplicaId,
    a.tiebreakHash D debug = b.tiebreakHash D debug → a = b)

include collisionFree

theorem merge_comm (a b : LwwRegister V ReplicaId) : merge D debug a b = merge D debug b a := by
  apply eq_of_stamp collisionFree
  rw [stamp_merge, stamp_merge, max_comm]

theorem merge_assoc (a b c : LwwRegister V ReplicaId) :
    merge D debug (merge D debug a b) c = merge D debug a (merge D debug b c) := by
  apply eq_of_stamp collisionFree
  simp only [stamp_merge, max_assoc]

omit collisionFree in
theorem merge_self (a : LwwRegister V ReplicaId) : merge D debug a a = a := by
  rw [merge_eq, ite_self]

end LwwRegister

/-! ## The parts of a folder -/

section Entry

variable {ReplicaId Tag Hash : Type} [LinearOrder Hash]

structure FileEntry (ReplicaId : Type) where
  displayName : LwwRegister String ReplicaId
  sizeBytes : LwwRegister Nat ReplicaId
  lastModifiedMs : LwwRegister Nat ReplicaId
  deriving DecidableEq

def FileEntry.merge (D : Digests ReplicaId Tag Hash) (self other : FileEntry ReplicaId) :
    FileEntry ReplicaId where
  displayName := self.displayName.merge D D.debugString other.displayName
  sizeBytes := self.sizeBytes.merge D toString other.sizeBytes
  lastModifiedMs := self.lastModifiedMs.merge D toString other.lastModifiedMs

/-- The tie-break hash of the registers and the tag derivation have no collisions. -/
structure CollisionFree (D : Digests ReplicaId Tag Hash) : Prop where
  names : ∀ a b : LwwRegister String ReplicaId,
    a.tiebreakHash D D.debugString = b.tiebreakHash D D.debugString → a = b
  numbers : ∀ a b : LwwRegister Nat ReplicaId,
    a.tiebreakHash D toString = b.tiebreakHash D toString → a = b
  tags : ∀ r c r' c', D.deriveTag r c = D.deriveTag r' c' → r = r' ∧ c = c'

variable {D : Digests ReplicaId Tag Hash}

theorem FileEntry.merge_comm (free : CollisionFree D) (a b : FileEntry ReplicaId) :
    a.merge D b = b.merge D a := by
  simp only [merge, LwwRegister.merge_comm free.names a.displayName,
    LwwRegister.merge_comm free.numbers a.sizeBytes,
    LwwRegister.merge_comm free.numbers a.lastModifiedMs]

theorem FileEntry.merge_assoc (free : CollisionFree D) (a b c : FileEntry ReplicaId) :
    (a.merge D b).merge D c = a.merge D (b.merge D c) := by
  simp only [merge, LwwRegister.merge_assoc free.names, LwwRegister.merge_assoc free.numbers]

theorem FileEntry.merge_self (a : FileEntry ReplicaId) : a.merge D a = a := by
  simp only [merge, LwwRegister.merge_self]

end Entry

section Model

variable {ReplicaId FileId Tag Hash : Type}
    [LinearOrder ReplicaId] [LinearOrder FileId] [LinearOrder Tag] [LinearOrder Hash]

/-- Elements with the tags of their adds, and the tags that were removed. -/
structure OrSet (FileId Tag : Type) where
  added : Finset (FileId × Tag)
  removed : Finset Tag
  deriving DecidableEq

namespace OrSet

def add (s : OrSet FileId Tag) (element : FileId) (tag : Tag) : OrSet FileId Tag :=
  { s with added := insert (element, tag) s.added }

def remove (s : OrSet FileId Tag) (element : FileId) : OrSet FileId Tag :=
  { s with
    removed := s.removed ∪
      (s.added.filter fun p => p.1 = element ∧ p.2 ∉ s.removed).image Prod.snd }

def Contains (s : OrSet FileId Tag) (element : FileId) : Prop :=
  ∃ p ∈ s.added, p.1 = element ∧ p.2 ∉ s.removed

instance (s : OrSet FileId Tag) (element : FileId) : Decidable (s.Contains element) :=
  inferInstanceAs (Decidable (∃ p ∈ s.added, _))

def merge (s other : OrSet FileId Tag) : OrSet FileId Tag :=
  ⟨s.added ∪ other.added, s.removed ∪ other.removed⟩

end OrSet

/-- Counters per replica. -/
abbrev VectorClock (ReplicaId : Type) [LinearOrder ReplicaId] : Type := SortedMap ReplicaId Nat

namespace VectorClock

/-- The counter after a tick; `u64` addition wraps. -/
def tick (clock : VectorClock ReplicaId) (replica : ReplicaId) : Nat :=
  ((clock.get? replica).getD 0 + 1) % 2 ^ 64

def ticked (clock : VectorClock ReplicaId) (replica : ReplicaId) : VectorClock ReplicaId :=
  clock.alter replica fun _ => clock.tick replica

/-- Pointwise maximum, absent counters inserted as zero first. -/
def merge (clock other : VectorClock ReplicaId) : VectorClock ReplicaId :=
  clock.mergeWith (fun entry v => if v > entry then v else entry) other

end VectorClock

structure Folder (ReplicaId FileId Tag : Type) [LinearOrder ReplicaId] [LinearOrder FileId] where
  clock : VectorClock ReplicaId
  files : OrSet FileId Tag
  entries : SortedMap FileId (FileEntry ReplicaId)
  deriving DecidableEq

namespace Folder

def new : Folder ReplicaId FileId Tag := ⟨.empty, ⟨∅, ∅⟩, .empty⟩

/-- The values an add stamps with its counter. -/
def stamped (replica : ReplicaId) (counter : Nat) (displayName : String)
    (sizeBytes lastModifiedMs : Nat) : FileEntry ReplicaId where
  displayName := ⟨displayName, counter, replica⟩
  sizeBytes := ⟨sizeBytes, counter, replica⟩
  lastModifiedMs := ⟨lastModifiedMs, counter, replica⟩

variable (D : Digests ReplicaId Tag Hash)

def addFile (f : Folder ReplicaId FileId Tag) (replica : ReplicaId) (id : FileId)
    (displayName : String) (sizeBytes lastModifiedMs : Nat) : Folder ReplicaId FileId Tag :=
  let counter := f.clock.tick replica
  let entry := stamped replica counter displayName sizeBytes lastModifiedMs
  { clock := f.clock.ticked replica
    files := f.files.add id (D.deriveTag replica counter)
    entries := f.entries.alter id fun
      | none => entry
      | some existing => existing.merge D entry }

def removeFile (f : Folder ReplicaId FileId Tag) (replica : ReplicaId) (id : FileId) :
    Folder ReplicaId FileId Tag :=
  { f with clock := f.clock.ticked replica, files := f.files.remove id }

def Contains (f : Folder ReplicaId FileId Tag) (id : FileId) : Prop := f.files.Contains id

instance (f : Folder ReplicaId FileId Tag) (id : FileId) : Decidable (f.Contains id) :=
  inferInstanceAs (Decidable (f.files.Contains id))

def merge (f other : Folder ReplicaId FileId Tag) : Folder ReplicaId FileId Tag where
  clock := f.clock.merge other.clock
  files := f.files.merge other.files
  entries := f.entries.mergeWith (FileEntry.merge D) other.entries

end Folder

/-! ## The laws -/

variable {D : Digests ReplicaId Tag Hash}

namespace OrSet

theorem merge_comm (a b : OrSet FileId Tag) : a.merge b = b.merge a := by
  simp only [merge, Finset.union_comm]

theorem merge_assoc (a b c : OrSet FileId Tag) : (a.merge b).merge c = a.merge (b.merge c) := by
  simp only [merge, Finset.union_assoc]

theorem merge_self (a : OrSet FileId Tag) : a.merge a = a := by
  simp only [merge, Finset.union_self]

end OrSet

namespace VectorClock

/-- The larger of two counters, as the merge loop picks it. -/
theorem larger_eq_max (entry v : Nat) : (if v > entry then v else entry) = max entry v := by
  split
  · next larger => exact (max_eq_right larger.le).symm
  · next notLarger => exact (max_eq_left (not_lt.mp notLarger)).symm

theorem merge_comm (a b : VectorClock ReplicaId) : a.merge b = b.merge a := by
  apply SortedMap.mergeWith_comm
  intro x y
  rw [larger_eq_max, larger_eq_max, max_comm]

theorem merge_assoc (a b c : VectorClock ReplicaId) :
    (a.merge b).merge c = a.merge (b.merge c) := by
  apply SortedMap.mergeWith_assoc
  intro x y z
  simp only [larger_eq_max, max_assoc]

theorem merge_self (a : VectorClock ReplicaId) : a.merge a = a := by
  apply SortedMap.mergeWith_self
  intro x
  rw [ite_self]

end VectorClock

namespace Folder

theorem merge_comm (free : CollisionFree D) (a b : Folder ReplicaId FileId Tag) :
    a.merge D b = b.merge D a := by
  simp only [merge, VectorClock.merge_comm a.clock, OrSet.merge_comm a.files,
    SortedMap.mergeWith_comm (FileEntry.merge_comm free) a.entries]

theorem merge_assoc (free : CollisionFree D) (a b c : Folder ReplicaId FileId Tag) :
    (a.merge D b).merge D c = a.merge D (b.merge D c) := by
  simp only [merge, VectorClock.merge_assoc, OrSet.merge_assoc,
    SortedMap.mergeWith_assoc (FileEntry.merge_assoc free)]

theorem merge_self (a : Folder ReplicaId FileId Tag) : a.merge D a = a := by
  simp only [merge, VectorClock.merge_self, OrSet.merge_self,
    SortedMap.mergeWith_self FileEntry.merge_self]

end Folder

end Model

end OneLink.NativeCrdt
