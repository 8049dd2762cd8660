/-
# NativeCrdt.Causal — when a later add keeps its values

`Holds D H f`: the folder `f` is what the operations `H` built, by adds, removes and
merges in any order, of any replica at any folder; an operation carries the counter it
ticked to.  The counters are `u64`: a tick past the last of them has no `Holds`.

What `H` says about `f`: every register is the latest of those written for its file
(`Latest`), and every tag comes from a counter the clock has reached.  So an add is
always contained afterwards, and its values stay exactly where the registers in place
do not outrank the new stamp.  The stamp is the replica's own counter: a replica that
has seen another's third write may stamp its own with 1.
-/
import OneLink.NativeCrdt.Exchange

namespace OneLink.NativeCrdt

open Library

set_option autoImplicit false

/-! ## Registers -/

section Registers

variable {V ReplicaId Tag Hash : Type} [LinearOrder Hash]
    {D : Digests ReplicaId Tag Hash} {debug : V → String}

/-- The register is one of those written, and none of them outranks it. -/
structure Latest (D : Digests ReplicaId Tag Hash) (debug : V → String)
    (written : Set (LwwRegister V ReplicaId)) (reg : LwwRegister V ReplicaId) : Prop where
  mem : reg ∈ written
  upper : ∀ other ∈ written, other.stamp D debug ≤ reg.stamp D debug

theorem Latest.singleton (reg : LwwRegister V ReplicaId) : Latest D debug {reg} reg where
  mem := rfl
  upper := by
    rintro other rfl
    exact le_rfl

theorem Latest.merge {written written' : Set (LwwRegister V ReplicaId)}
    {a b : LwwRegister V ReplicaId} (latest : Latest D debug written a)
    (latest' : Latest D debug written' b) :
    Latest D debug (written ∪ written') (a.merge D debug b) where
  mem := by
    rw [LwwRegister.merge_eq]
    split
    · exact .inr latest'.mem
    · exact .inl latest.mem
  upper := by
    rw [LwwRegister.stamp_merge]
    rintro other (old | new)
    · exact (latest.upper other old).trans (le_max_left _ _)
    · exact (latest'.upper other new).trans (le_max_right _ _)

/-- A register that is at least as high as every one written before survives a merge
into a register of those. -/
theorem merge_keeps (free : ∀ a b : LwwRegister V ReplicaId,
      a.tiebreakHash D debug = b.tiebreakHash D debug → a = b)
    {older reg : LwwRegister V ReplicaId} (le : older.stamp D debug ≤ reg.stamp D debug) :
    older.merge D debug reg = reg := by
  rw [LwwRegister.merge_eq]
  split
  · rfl
  · next notLess => exact LwwRegister.eq_of_stamp free (le_antisymm le (not_lt.mp notLess))

end Registers

/-! ## Operations and folders -/

section Causal

set_option linter.unusedSectionVars false

variable {ReplicaId FileId Tag Hash : Type}
    [LinearOrder ReplicaId] [LinearOrder FileId] [LinearOrder Tag] [LinearOrder Hash]

/-- An operation with the counter it ticked to and all it wrote. -/
inductive Edit (ReplicaId FileId : Type) where
  | add (replica : ReplicaId) (counter : Nat) (id : FileId) (displayName : String)
      (sizeBytes lastModifiedMs : Nat)
  | remove (replica : ReplicaId) (counter : Nat) (id : FileId)

def Edit.replica : Edit ReplicaId FileId → ReplicaId
  | .add replica .. => replica
  | .remove replica .. => replica

def Edit.counter : Edit ReplicaId FileId → Nat
  | .add _ counter .. => counter
  | .remove _ counter _ => counter

namespace VectorClock

def get (clock : VectorClock ReplicaId) (replica : ReplicaId) : Nat :=
  (clock.get? replica).getD 0

/-- The next tick of the replica fits in a `u64`. -/
def Room (clock : VectorClock ReplicaId) (replica : ReplicaId) : Prop :=
  clock.get replica + 1 < 2 ^ 64

instance (clock : VectorClock ReplicaId) (replica : ReplicaId) :
    Decidable (clock.Room replica) :=
  inferInstanceAs (Decidable (_ < _))

theorem tick_of_room {clock : VectorClock ReplicaId} {replica : ReplicaId}
    (room : clock.Room replica) : clock.tick replica = clock.get replica + 1 :=
  Nat.mod_eq_of_lt room

theorem get_ticked {clock : VectorClock ReplicaId} {replica : ReplicaId}
    (room : clock.Room replica) (other : ReplicaId) :
    (clock.ticked replica).get other =
      if replica = other then clock.get replica + 1 else clock.get other := by
  rw [get, ticked, SortedMap.get?_alter]
  split
  · exact tick_of_room room
  · rfl

theorem get_merge (clock clock' : VectorClock ReplicaId) (replica : ReplicaId) :
    (clock.merge clock').get replica = max (clock.get replica) (clock'.get replica) := by
  rw [get, get, get, merge, SortedMap.get?_mergeWith]
  cases clock.get? replica with
  | none => cases clock'.get? replica <;> simp [Option.merge]
  | some entry =>
    cases clock'.get? replica with
    | none => simp [Option.merge]
    | some v => simp [Option.merge, larger_eq_max]

end VectorClock

variable (D : Digests ReplicaId Tag Hash)

/-- The folder these operations built. -/
inductive Holds : Set (Edit ReplicaId FileId) → Folder ReplicaId FileId Tag → Prop where
  | new : Holds ∅ .new
  | addFile {H : Set (Edit ReplicaId FileId)} {f : Folder ReplicaId FileId Tag}
      (held : Holds H f) (replica : ReplicaId) (room : f.clock.Room replica) (id : FileId)
      (displayName : String) (sizeBytes lastModifiedMs : Nat) :
      Holds (insert (.add replica (f.clock.tick replica) id displayName sizeBytes
          lastModifiedMs) H)
        (f.addFile D replica id displayName sizeBytes lastModifiedMs)
  | removeFile {H : Set (Edit ReplicaId FileId)} {f : Folder ReplicaId FileId Tag}
      (held : Holds H f) (replica : ReplicaId) (room : f.clock.Room replica) (id : FileId) :
      Holds (insert (.remove replica (f.clock.tick replica) id) H) (f.removeFile replica id)
  | merge {H H' : Set (Edit ReplicaId FileId)} {f g : Folder ReplicaId FileId Tag}
      (held : Holds H f) (held' : Holds H' g) : Holds (H ∪ H') (f.merge D g)

variable {D}

section Built

variable {H H' : Set (Edit ReplicaId FileId)} {f g : Folder ReplicaId FileId Tag}

/-! ## Clock and tags -/

theorem le_get_ticked {clock : VectorClock ReplicaId} {replica : ReplicaId}
    (room : clock.Room replica) (other : ReplicaId) :
    clock.get other ≤ (clock.ticked replica).get other := by
  rw [VectorClock.get_ticked room]
  split
  · next same =>
      subst same
      exact Nat.le_succ _
  · exact le_rfl

theorem get_ticked_self {clock : VectorClock ReplicaId} {replica : ReplicaId}
    (room : clock.Room replica) : (clock.ticked replica).get replica = clock.tick replica := by
  rw [VectorClock.get_ticked room, if_pos rfl, VectorClock.tick_of_room room]

/-- No operation has a counter its replica's clock has not reached. -/
theorem Holds.counter_le (held : Holds D H f) : ∀ e ∈ H, e.counter ≤ f.clock.get e.replica := by
  induction held with
  | new => exact fun _ none => none.elim
  | addFile held replica room id displayName sizeBytes lastModifiedMs ih =>
    rintro e (rfl | old)
    · exact (get_ticked_self room).ge
    · exact (ih e old).trans (le_get_ticked room _)
  | removeFile held replica room id ih =>
    rintro e (rfl | old)
    · exact (get_ticked_self room).ge
    · exact (ih e old).trans (le_get_ticked room _)
  | merge held held' ih ih' =>
    rintro e (old | new)
    · exact (ih e old).trans (le_of_le_of_eq (le_max_left _ _) (VectorClock.get_merge ..).symm)
    · exact (ih' e new).trans (le_of_le_of_eq (le_max_right _ _) (VectorClock.get_merge ..).symm)

/-- A counter the clock shows is that of an operation. -/
theorem Holds.clock_mem (held : Holds D H f) (replica : ReplicaId) :
    f.clock.get replica = 0 ∨
      ∃ e ∈ H, e.replica = replica ∧ e.counter = f.clock.get replica := by
  induction held with
  | new => exact .inl rfl
  | @addFile H f held r room id displayName sizeBytes lastModifiedMs ih =>
    by_cases same : r = replica
    · subst same
      exact .inr ⟨_, Set.mem_insert _ _, rfl, (get_ticked_self room).symm⟩
    · have stays : (f.clock.ticked r).get replica = f.clock.get replica := by
        rw [VectorClock.get_ticked room, if_neg same]
      show (f.clock.ticked r).get replica = 0 ∨ _
      rw [show (Folder.addFile D f r id displayName sizeBytes lastModifiedMs).clock.get replica =
        f.clock.get replica from stays, stays]
      exact ih.imp_right fun ⟨e, mem, rest⟩ => ⟨e, Set.mem_insert_of_mem _ mem, rest⟩
  | @removeFile H f held r room id ih =>
    by_cases same : r = replica
    · subst same
      exact .inr ⟨_, Set.mem_insert _ _, rfl, (get_ticked_self room).symm⟩
    · have stays : (f.removeFile r id).clock.get replica = f.clock.get replica := by
        show (f.clock.ticked r).get replica = _
        rw [VectorClock.get_ticked room, if_neg same]
      rw [stays]
      exact ih.imp_right fun ⟨e, mem, rest⟩ => ⟨e, Set.mem_insert_of_mem _ mem, rest⟩
  | @merge H H' f g held held' ih ih' =>
    have joined : (f.merge D g).clock.get replica =
        max (f.clock.get replica) (g.clock.get replica) := VectorClock.get_merge ..
    rw [joined]
    rcases le_total (f.clock.get replica) (g.clock.get replica) with le | ge
    · rw [max_eq_right le]
      exact ih'.imp_right fun ⟨e, mem, rest⟩ => ⟨e, .inr mem, rest⟩
    · rw [max_eq_left ge]
      exact ih.imp_right fun ⟨e, mem, rest⟩ => ⟨e, .inl mem, rest⟩

/-- A folder built by fewer operations has a lower clock. -/
theorem Holds.clock_le (held : Holds D H f) (held' : Holds D H' g) (subset : H' ⊆ H)
    (replica : ReplicaId) : g.clock.get replica ≤ f.clock.get replica := by
  rcases held'.clock_mem replica with zero | ⟨e, mem, rfl, same⟩
  · omega
  · rw [← same]
    exact held.counter_le e (subset mem)

/-- Every tag of the OR-set comes from a counter the clock has reached. -/
theorem Holds.tag_counter (held : Holds D H f) {tag : Tag}
    (known : tag ∈ f.files.removed ∨ ∃ id, (id, tag) ∈ f.files.added) :
    ∃ replica counter, tag = D.deriveTag replica counter ∧ counter ≤ f.clock.get replica := by
  induction held with
  | new => simp [Folder.new] at known
  | @addFile H f held r room id displayName sizeBytes lastModifiedMs ih =>
    have grown : ∀ replica, f.clock.get replica ≤
        (f.addFile D r id displayName sizeBytes lastModifiedMs).clock.get replica :=
      le_get_ticked room
    simp only [Folder.addFile, OrSet.add, Finset.mem_insert, Prod.mk.injEq] at known
    rcases known with removed | ⟨id', ⟨rfl, rfl⟩ | added⟩
    · obtain ⟨replica, counter, rfl, le⟩ := ih (.inl removed)
      exact ⟨replica, counter, rfl, le.trans (grown replica)⟩
    · exact ⟨r, _, rfl, (get_ticked_self room).ge⟩
    · obtain ⟨replica, counter, rfl, le⟩ := ih (.inr ⟨id', added⟩)
      exact ⟨replica, counter, rfl, le.trans (grown replica)⟩
  | @removeFile H f held r room id ih =>
    have grown : ∀ replica, f.clock.get replica ≤ (f.removeFile r id).clock.get replica :=
      le_get_ticked room
    have older : tag ∈ f.files.removed ∨ ∃ id, (id, tag) ∈ f.files.added := by
      simp only [Folder.removeFile, OrSet.remove, Finset.mem_union, Finset.mem_image,
        Finset.mem_filter] at known
      rcases known with (removed | ⟨p, ⟨added, -⟩, rfl⟩) | added
      · exact .inl removed
      · exact .inr ⟨p.1, added⟩
      · exact .inr added
    obtain ⟨replica, counter, rfl, le⟩ := ih older
    exact ⟨replica, counter, rfl, le.trans (grown replica)⟩
  | @merge H H' f g held held' ih ih' =>
    have joined : ∀ replica, (f.merge D g).clock.get replica =
        max (f.clock.get replica) (g.clock.get replica) := fun _ => VectorClock.get_merge ..
    have either : (tag ∈ f.files.removed ∨ ∃ id, (id, tag) ∈ f.files.added) ∨
        (tag ∈ g.files.removed ∨ ∃ id, (id, tag) ∈ g.files.added) := by
      simp only [Folder.merge, OrSet.merge, Finset.mem_union] at known
      rcases known with (removed | removed) | ⟨id, added | added⟩
      · exact .inl (.inl removed)
      · exact .inr (.inl removed)
      · exact .inl (.inr ⟨id, added⟩)
      · exact .inr (.inr ⟨id, added⟩)
    rcases either with left | right
    · obtain ⟨replica, counter, rfl, le⟩ := ih left
      exact ⟨replica, counter, rfl, by rw [joined]; exact le.trans (le_max_left _ _)⟩
    · obtain ⟨replica, counter, rfl, le⟩ := ih' right
      exact ⟨replica, counter, rfl, by rw [joined]; exact le.trans (le_max_right _ _)⟩

/-- The tag of the next add has been removed nowhere among the operations so far. -/
theorem Holds.fresh_tag (free : CollisionFree D) (held : Holds D H f) (held' : Holds D H' g)
    (subset : H' ⊆ H) {replica : ReplicaId} (room : f.clock.Room replica) :
    D.deriveTag replica (f.clock.tick replica) ∉ g.files.removed := by
  intro removed
  obtain ⟨r, c, same, le⟩ := held'.tag_counter (.inl removed)
  obtain ⟨rfl, rfl⟩ := free.tags _ _ _ _ same
  have lower := held.clock_le held' subset replica
  rw [VectorClock.tick_of_room room] at le
  omega

/-! ## Entries -/

/-- The registers of display names written for a file. -/
def writtenNames (H : Set (Edit ReplicaId FileId)) (id : FileId) :
    Set (LwwRegister String ReplicaId) :=
  {reg | ∃ size mtime, .add reg.replica reg.timestamp id reg.value size mtime ∈ H}

def writtenSizes (H : Set (Edit ReplicaId FileId)) (id : FileId) :
    Set (LwwRegister Nat ReplicaId) :=
  {reg | ∃ name mtime, .add reg.replica reg.timestamp id name reg.value mtime ∈ H}

def writtenTimes (H : Set (Edit ReplicaId FileId)) (id : FileId) :
    Set (LwwRegister Nat ReplicaId) :=
  {reg | ∃ name size, .add reg.replica reg.timestamp id name size reg.value ∈ H}

/-- Each register of the entry is the latest written for the file. -/
structure EntryLatest (D : Digests ReplicaId Tag Hash) (H : Set (Edit ReplicaId FileId))
    (id : FileId) (e : FileEntry ReplicaId) : Prop where
  names : Latest D D.debugString (writtenNames H id) e.displayName
  sizes : Latest D toString (writtenSizes H id) e.sizeBytes
  times : Latest D toString (writtenTimes H id) e.lastModifiedMs

/-- What the operations say about the entry of a file. -/
def EntryOf (D : Digests ReplicaId Tag Hash) (H : Set (Edit ReplicaId FileId)) (id : FileId) :
    Option (FileEntry ReplicaId) → Prop
  | none => writtenNames H id = ∅ ∧ writtenSizes H id = ∅ ∧ writtenTimes H id = ∅
  | some e => EntryLatest D H id e

theorem written_union (H H' : Set (Edit ReplicaId FileId)) (id : FileId) :
    writtenNames (H ∪ H') id = writtenNames H id ∪ writtenNames H' id ∧
      writtenSizes (H ∪ H') id = writtenSizes H id ∪ writtenSizes H' id ∧
      writtenTimes (H ∪ H') id = writtenTimes H id ∪ writtenTimes H' id := by
  refine ⟨?_, ?_, ?_⟩
  · ext reg
    simp [writtenNames, exists_or]
  · ext reg
    simp [writtenSizes, exists_or]
  · ext reg
    simp [writtenTimes, exists_or]

theorem EntryOf.merge {id : FileId} {o o' : Option (FileEntry ReplicaId)}
    (entry : EntryOf D H id o) (entry' : EntryOf D H' id o') :
    EntryOf D (H ∪ H') id (Option.merge (FileEntry.merge D) o o') := by
  obtain ⟨names, sizes, times⟩ := written_union H H' id
  cases o with
  | none =>
    obtain ⟨noNames, noSizes, noTimes⟩ := entry
    rw [noNames, Set.empty_union] at names
    rw [noSizes, Set.empty_union] at sizes
    rw [noTimes, Set.empty_union] at times
    cases o' with
    | none => exact ⟨names.trans entry'.1, sizes.trans entry'.2.1, times.trans entry'.2.2⟩
    | some e =>
      exact ⟨names ▸ entry'.names, sizes ▸ entry'.sizes, times ▸ entry'.times⟩
  | some e =>
    cases o' with
    | none =>
      obtain ⟨noNames, noSizes, noTimes⟩ := entry'
      rw [noNames, Set.union_empty] at names
      rw [noSizes, Set.union_empty] at sizes
      rw [noTimes, Set.union_empty] at times
      exact ⟨names ▸ entry.names, sizes ▸ entry.sizes, times ▸ entry.times⟩
    | some e' =>
      exact ⟨names ▸ entry.names.merge entry'.names, sizes ▸ entry.sizes.merge entry'.sizes,
        times ▸ entry.times.merge entry'.times⟩

theorem entryOf_singleton (replica : ReplicaId) (counter : Nat) (id : FileId)
    (displayName : String) (sizeBytes lastModifiedMs : Nat) :
    EntryOf D {.add replica counter id displayName sizeBytes lastModifiedMs} id
      (some (Folder.stamped replica counter displayName sizeBytes lastModifiedMs)) := by
  have names : writtenNames
      {Edit.add replica counter id displayName sizeBytes lastModifiedMs} id =
      {⟨displayName, counter, replica⟩} := by
    ext reg
    cases reg
    simp [writtenNames, and_comm, and_assoc, and_left_comm]
  have sizes : writtenSizes
      {Edit.add replica counter id displayName sizeBytes lastModifiedMs} id =
      {⟨sizeBytes, counter, replica⟩} := by
    ext reg
    cases reg
    simp [writtenSizes, and_comm, and_assoc, and_left_comm]
  have times : writtenTimes
      {Edit.add replica counter id displayName sizeBytes lastModifiedMs} id =
      {⟨lastModifiedMs, counter, replica⟩} := by
    ext reg
    cases reg
    simp [writtenTimes, and_comm, and_assoc, and_left_comm]
  exact ⟨names ▸ Latest.singleton _, sizes ▸ Latest.singleton _, times ▸ Latest.singleton _⟩

theorem entryOf_other {e : Edit ReplicaId FileId} {id : FileId}
    (other : ∀ replica counter displayName sizeBytes lastModifiedMs,
      e ≠ .add replica counter id displayName sizeBytes lastModifiedMs) :
    EntryOf D {e} id none := by
  refine ⟨?_, ?_, ?_⟩
  · ext reg
    simp [writtenNames, (other _ _ _ _ _).symm]
  · ext reg
    simp [writtenSizes, (other _ _ _ _ _).symm]
  · ext reg
    simp [writtenTimes, (other _ _ _ _ _).symm]

/-- The entries of a folder are what its operations say. -/
theorem Holds.entryOf (held : Holds D H f) (id : FileId) :
    EntryOf D H id (f.entries.get? id) := by
  induction held with
  | new => exact ⟨by simp [writtenNames], by simp [writtenSizes], by simp [writtenTimes]⟩
  | @addFile H f held r room id' displayName sizeBytes lastModifiedMs ih =>
    rw [← Set.union_singleton]
    by_cases same : id' = id
    · subst same
      have merged := ih.merge (entryOf_singleton (D := D) r (f.clock.tick r) id' displayName
        sizeBytes lastModifiedMs)
      have found : (f.addFile D r id' displayName sizeBytes lastModifiedMs).entries.get? id' =
          Option.merge (FileEntry.merge D) (f.entries.get? id')
            (some (Folder.stamped r (f.clock.tick r) displayName sizeBytes lastModifiedMs)) := by
        rw [Folder.addFile, SortedMap.get?_alter_self]
        cases f.entries.get? id' <;> rfl
      rwa [found]
    · have merged := ih.merge (entryOf_other (D := D)
        (e := .add r (f.clock.tick r) id' displayName sizeBytes lastModifiedMs)
        (fun _ _ _ _ _ equal => by cases equal; exact same rfl))
      have found : (f.addFile D r id' displayName sizeBytes lastModifiedMs).entries.get? id =
          f.entries.get? id := by
        rw [Folder.addFile, SortedMap.get?_alter, if_neg same]
      rw [found]
      simpa using merged
  | @removeFile H f held r room id' ih =>
    rw [← Set.union_singleton]
    have other : EntryOf D {Edit.remove r (f.clock.tick r) id'} id none :=
      entryOf_other fun _ _ _ _ _ equal => by cases equal
    have merged := ih.merge other
    simpa [Folder.removeFile] using merged
  | @merge H H' f g held held' ih ih' =>
    have found : (f.merge D g).entries.get? id =
        Option.merge (FileEntry.merge D) (f.entries.get? id) (g.entries.get? id) :=
      SortedMap.get?_mergeWith ..
    rw [found]
    exact ih.merge ih'

/-! ## A later add -/

/-- The register in place yields to the new one, or has its value already. -/
def Yields {V : Type} (D : Digests ReplicaId Tag Hash) (debug : V → String)
    (present new : LwwRegister V ReplicaId) : Prop :=
  present.dominates D debug new ∨ present.value = new.value

/-- Every register in place for the file yields to the one the add writes. -/
def AddYields (D : Digests ReplicaId Tag Hash) (f : Folder ReplicaId FileId Tag)
    (replica : ReplicaId) (id : FileId) (displayName : String)
    (sizeBytes lastModifiedMs : Nat) : Prop :=
  ∀ e, f.entries.get? id = some e →
    Yields D D.debugString e.displayName ⟨displayName, f.clock.tick replica, replica⟩ ∧
    Yields D toString e.sizeBytes ⟨sizeBytes, f.clock.tick replica, replica⟩ ∧
    Yields D toString e.lastModifiedMs ⟨lastModifiedMs, f.clock.tick replica, replica⟩

def EntryShows (e : FileEntry ReplicaId) (displayName : String)
    (sizeBytes lastModifiedMs : Nat) : Prop :=
  e.displayName.value = displayName ∧ e.sizeBytes.value = sizeBytes ∧
    e.lastModifiedMs.value = lastModifiedMs

/-- The folder contains the file, with exactly these attributes. -/
def Shows (f : Folder ReplicaId FileId Tag) (id : FileId) (displayName : String)
    (sizeBytes lastModifiedMs : Nat) : Prop :=
  f.Contains id ∧ ∃ e, f.entries.get? id = some e ∧
    EntryShows e displayName sizeBytes lastModifiedMs

theorem value_merge_iff {V : Type} {debug : V → String}
    (present new : LwwRegister V ReplicaId) :
    (present.merge D debug new).value = new.value ↔ Yields D debug present new := by
  unfold LwwRegister.merge Yields
  split
  · next dominates => exact iff_of_true rfl (.inl dominates)
  · next stays => exact (or_iff_right stays).symm

variable {replica : ReplicaId} {id : FileId} {displayName : String}
    {sizeBytes lastModifiedMs : Nat}

/-- The entry after an add shows its values iff the registers in place yield. -/
theorem entryShows_addFile_iff :
    (∃ e, (f.addFile D replica id displayName sizeBytes lastModifiedMs).entries.get? id =
        some e ∧ EntryShows e displayName sizeBytes lastModifiedMs) ↔
      AddYields D f replica id displayName sizeBytes lastModifiedMs := by
  rw [Folder.addFile, SortedMap.get?_alter_self]
  unfold AddYields
  cases f.entries.get? id with
  | none => simp [EntryShows, Folder.stamped]
  | some e =>
    simp only [Option.some.injEq, forall_eq', exists_eq_left', EntryShows, FileEntry.merge]
    exact and_congr (value_merge_iff _ _)
      (and_congr (value_merge_iff _ _) (value_merge_iff _ _))

theorem written_mono {H H' : Set (Edit ReplicaId FileId)} (subset : H' ⊆ H) (id : FileId) :
    writtenNames H' id ⊆ writtenNames H id ∧ writtenSizes H' id ⊆ writtenSizes H id ∧
      writtenTimes H' id ⊆ writtenTimes H id :=
  ⟨fun _ ⟨size, mtime, mem⟩ => ⟨size, mtime, subset mem⟩,
    fun _ ⟨name, mtime, mem⟩ => ⟨name, mtime, subset mem⟩,
    fun _ ⟨name, size, mem⟩ => ⟨name, size, subset mem⟩⟩

/-- An entry built by fewer operations gives way to the one built by all of them. -/
theorem merge_of_subset (free : CollisionFree D) {e e' : FileEntry ReplicaId}
    (latest : EntryLatest D H id e) (latest' : EntryLatest D H' id e') (subset : H' ⊆ H) :
    e'.merge D e = e := by
  obtain ⟨names, sizes, times⟩ := written_mono subset id
  have name := merge_keeps free.names (latest.names.upper _ (names latest'.names.mem))
  have size := merge_keeps free.numbers (latest.sizes.upper _ (sizes latest'.sizes.mem))
  have time := merge_keeps free.numbers (latest.times.upper _ (times latest'.times.mem))
  simp only [FileEntry.merge, name, size, time]

/-- Merging a folder into one built by fewer operations keeps its entries. -/
theorem entries_merge_of_subset (free : CollisionFree D) (held : Holds D H f)
    (held' : Holds D H' g) (subset : H' ⊆ H) {e : FileEntry ReplicaId}
    (found : f.entries.get? id = some e) : (g.merge D f).entries.get? id = some e := by
  have latest := held.entryOf id
  have latest' := held'.entryOf id
  rw [Folder.merge, SortedMap.get?_mergeWith, found]
  rw [found] at latest
  cases found' : g.entries.get? id with
  | none => rfl
  | some e' =>
    rw [found'] at latest'
    exact congrArg some (merge_of_subset free latest latest' subset)

/-- The file is there after the add, and after merging it into any folder built by
operations the adder had seen. -/
theorem contains_merge_addFile (free : CollisionFree D) (held : Holds D H f)
    (room : f.clock.Room replica) (held' : Holds D H' g) (subset : H' ⊆ H) :
    (g.merge D (f.addFile D replica id displayName sizeBytes lastModifiedMs)).Contains id := by
  refine ⟨(id, D.deriveTag replica (f.clock.tick replica)), ?_, rfl, ?_⟩
  · simp [Folder.merge, OrSet.merge, Folder.addFile, OrSet.add]
  · simp only [Folder.merge, OrSet.merge, Folder.addFile, OrSet.add, Finset.mem_union, not_or]
    exact ⟨held.fresh_tag free held' subset room, held.fresh_tag free held subset_rfl room⟩

theorem contains_addFile (free : CollisionFree D) (held : Holds D H f)
    (room : f.clock.Room replica) :
    (f.addFile D replica id displayName sizeBytes lastModifiedMs).Contains id :=
  ⟨(id, D.deriveTag replica (f.clock.tick replica)), by simp [Folder.addFile, OrSet.add], rfl,
    held.fresh_tag free held subset_rfl room⟩

/-- **An add holds its arguments, here and in every folder of operations it has seen that
merges it, exactly when the registers in place yield to its counter.** -/
theorem addFile_wins_iff (free : CollisionFree D) (held : Holds D H f)
    (room : f.clock.Room replica) :
    (Shows (f.addFile D replica id displayName sizeBytes lastModifiedMs) id displayName
        sizeBytes lastModifiedMs ∧
      ∀ H' g, Holds D H' g → H' ⊆ H →
        Shows (g.merge D (f.addFile D replica id displayName sizeBytes lastModifiedMs)) id
          displayName sizeBytes lastModifiedMs) ↔
      AddYields D f replica id displayName sizeBytes lastModifiedMs := by
  constructor
  · rintro ⟨⟨-, shows⟩, -⟩
    exact entryShows_addFile_iff.mp shows
  · intro yields
    obtain ⟨e, found, shows⟩ := entryShows_addFile_iff.mpr yields
    refine ⟨⟨contains_addFile free held room, e, found, shows⟩, ?_⟩
    intro H' g held' subset
    have added := held.addFile replica room id displayName sizeBytes lastModifiedMs
    have kept := entries_merge_of_subset free added held'
      (subset.trans (Set.subset_insert _ _)) found
    exact ⟨contains_merge_addFile free held room held' subset, e, kept, shows⟩

end Built

end Causal

/-! ## A rename that is lost -/

/-- Replica 1 writes the name of the file three times. -/
def thrice : Folder Nat Nat (Nat ×ₗ Nat) :=
  ((Folder.new.addFile plainDigests 1 7 "draft" 3 10).addFile plainDigests 1 7 "notes" 3
    11).addFile plainDigests 1 7 "plan" 3 12

theorem holds_thrice : ∃ H, Holds plainDigests H thrice :=
  ⟨_, ((Holds.new.addFile 1 (by decide) 7 "draft" 3 10).addFile 1 (by decide) 7 "notes" 3
    11).addFile 1 (by decide) 7 "plan" 3 12⟩

/-- Replica 2 has merged all three and renames the file; its counter is 1. -/
theorem later_rename_lost :
    ∃ H, Holds plainDigests H (Folder.new.merge plainDigests thrice) ∧
      (Folder.new.merge plainDigests thrice).clock.Room 2 ∧
      ¬ Shows ((Folder.new.merge plainDigests thrice).addFile plainDigests 2 7 "final" 3 13) 7
        "final" 3 13 := by
  obtain ⟨H, held⟩ := holds_thrice
  refine ⟨_, Holds.new.merge held, by decide, ?_⟩
  rintro ⟨-, shows⟩
  have yields := entryShows_addFile_iff.mp shows _
    (show (Folder.new.merge plainDigests thrice).entries.get? 7 =
      some (Folder.stamped 1 3 "plan" 3 12) by decide)
  exact absurd yields.1 (by unfold Yields; decide)

theorem own_rename_kept :
    CollisionFree plainDigests ∧ (∃ H, Holds plainDigests H thrice) ∧ thrice.clock.Room 1 ∧
      Shows (thrice.addFile plainDigests 1 7 "final" 3 13) 7 "final" 3 13 := by
  obtain ⟨H, held⟩ := holds_thrice
  refine ⟨plainDigests_collisionFree, ⟨H, held⟩, by decide, ?_⟩
  refine ((addFile_wins_iff plainDigests_collisionFree held (by decide)).mpr ?_).1
  intro e found
  have present : thrice.entries.get? 7 = some (Folder.stamped 1 3 "plan" 3 12) := by decide
  cases present.symm.trans found
  refine ⟨.inl ?_, .inl ?_, .inl ?_⟩
  · decide
  · decide
  · decide

end OneLink.NativeCrdt
