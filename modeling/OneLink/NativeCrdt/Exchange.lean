/-
# NativeCrdt.Exchange — replicas that edit, share and merge

Every replica id has one writer.  A site keeps its folder and, beside it, the
operations that reached it: its own and those of every snapshot it merged.  A remove
is recorded with the tags of the adds its issuer had merged, which is what it
observed.  Snapshots wait in `mail` and may be merged late, twice or never.

`Site.Faithful` reads the two sets of the OR-set off the operations; every action
keeps it, so what a folder contains is a function of the operations that reached it.
-/
import OneLink.NativeCrdt.Folder
import OneLink.Library.Run

namespace OneLink.NativeCrdt

open Library

set_option autoImplicit false

/-- An operation, as its issuer recorded it. -/
inductive Op (ReplicaId FileId Tag : Type) where
  | add (replica : ReplicaId) (counter : Nat) (id : FileId)
  | remove (replica : ReplicaId) (counter : Nat) (id : FileId) (observed : Finset Tag)
  deriving DecidableEq

section Exchange

variable {ReplicaId FileId Tag Hash : Type}
    [LinearOrder ReplicaId] [LinearOrder FileId] [LinearOrder Tag] [LinearOrder Hash]

set_option linter.unusedSectionVars false

/-- A folder with the operations merged into it. -/
structure Site (ReplicaId FileId Tag : Type) [LinearOrder ReplicaId] [LinearOrder FileId] where
  folder : Folder ReplicaId FileId Tag
  history : Finset (Op ReplicaId FileId Tag)

namespace Site

variable (D : Digests ReplicaId Tag Hash)

/-- An add of the file with this tag is among the operations. -/
def AddedWith (s : Site ReplicaId FileId Tag) (id : FileId) (tag : Tag) : Prop :=
  ∃ replica counter, .add replica counter id ∈ s.history ∧ D.deriveTag replica counter = tag

/-- A remove among the operations observed the tag. -/
def Observed (s : Site ReplicaId FileId Tag) (tag : Tag) : Prop :=
  ∃ replica counter id observed, .remove replica counter id observed ∈ s.history ∧ tag ∈ observed

/-- The tags of the adds of a file. -/
def tagsOf (s : Site ReplicaId FileId Tag) (id : FileId) : Finset Tag :=
  s.history.biUnion fun
    | .add replica counter added => if added = id then {D.deriveTag replica counter} else ∅
    | .remove .. => ∅

def addFile (s : Site ReplicaId FileId Tag) (replica : ReplicaId) (id : FileId)
    (displayName : String) (sizeBytes lastModifiedMs : Nat) : Site ReplicaId FileId Tag where
  folder := s.folder.addFile D replica id displayName sizeBytes lastModifiedMs
  history := insert (.add replica (s.folder.clock.tick replica) id) s.history

def removeFile (s : Site ReplicaId FileId Tag) (replica : ReplicaId) (id : FileId) :
    Site ReplicaId FileId Tag where
  folder := s.folder.removeFile replica id
  history := insert (.remove replica (s.folder.clock.tick replica) id (s.tagsOf D id)) s.history

def merge (s other : Site ReplicaId FileId Tag) : Site ReplicaId FileId Tag where
  folder := s.folder.merge D other.folder
  history := s.history ∪ other.history

/-- The OR-set holds what the operations say. -/
structure Faithful (s : Site ReplicaId FileId Tag) : Prop where
  added_iff : ∀ id tag, (id, tag) ∈ s.folder.files.added ↔ s.AddedWith D id tag
  removed_iff : ∀ tag, tag ∈ s.folder.files.removed ↔ s.Observed tag

variable {D}

theorem mem_tagsOf {s : Site ReplicaId FileId Tag} {id : FileId} {tag : Tag} :
    tag ∈ s.tagsOf D id ↔ s.AddedWith D id tag := by
  simp only [tagsOf, Finset.mem_biUnion, AddedWith]
  constructor
  · rintro ⟨op, known, tagged⟩
    cases op with
    | add replica counter added =>
      dsimp only at tagged
      split at tagged
      · next same =>
          subst same
          exact ⟨replica, counter, known, (Finset.mem_singleton.mp tagged).symm⟩
      · simp at tagged
    | remove => simp at tagged
  · rintro ⟨replica, counter, known, rfl⟩
    exact ⟨_, known, by simp⟩

theorem addedWith_insert_add {s : Site ReplicaId FileId Tag} {folder : Folder ReplicaId FileId Tag}
    {replica : ReplicaId} {counter : Nat} {id id' : FileId} {tag : Tag} :
    AddedWith D ⟨folder, insert (.add replica counter id) s.history⟩ id' tag ↔
      (id' = id ∧ tag = D.deriveTag replica counter) ∨ s.AddedWith D id' tag := by
  simp only [AddedWith, Finset.mem_insert, Op.add.injEq]
  constructor
  · rintro ⟨r, c, ⟨rfl, rfl, rfl⟩ | known, tagged⟩
    · exact .inl ⟨rfl, tagged.symm⟩
    · exact .inr ⟨r, c, known, tagged⟩
  · rintro (⟨rfl, rfl⟩ | ⟨r, c, known, tagged⟩)
    · exact ⟨replica, counter, .inl ⟨rfl, rfl, rfl⟩, rfl⟩
    · exact ⟨r, c, .inr known, tagged⟩

theorem observed_insert_remove {s : Site ReplicaId FileId Tag}
    {folder : Folder ReplicaId FileId Tag} {replica : ReplicaId} {counter : Nat} {id : FileId}
    {observed : Finset Tag} {tag : Tag} :
    Observed ⟨folder, insert (.remove replica counter id observed) s.history⟩ tag ↔
      tag ∈ observed ∨ s.Observed tag := by
  simp only [Observed, Finset.mem_insert, Op.remove.injEq]
  constructor
  · rintro ⟨r, c, id', seen, ⟨rfl, rfl, rfl, rfl⟩ | known, mem⟩
    · exact .inl mem
    · exact .inr ⟨r, c, id', seen, known, mem⟩
  · rintro (mem | ⟨r, c, id', seen, known, mem⟩)
    · exact ⟨replica, counter, id, observed, .inl ⟨rfl, rfl, rfl, rfl⟩, mem⟩
    · exact ⟨r, c, id', seen, .inr known, mem⟩

theorem Faithful.new : Faithful D (⟨.new, ∅⟩ : Site ReplicaId FileId Tag) where
  added_iff := by simp [Folder.new, AddedWith]
  removed_iff := by simp [Folder.new, Observed]

theorem Faithful.addFile {s : Site ReplicaId FileId Tag} (faithful : s.Faithful D)
    (replica : ReplicaId) (id : FileId) (displayName : String) (sizeBytes lastModifiedMs : Nat) :
    (s.addFile D replica id displayName sizeBytes lastModifiedMs).Faithful D where
  added_iff id' tag := by
    rw [Site.addFile, addedWith_insert_add, ← faithful.added_iff]
    simp [Folder.addFile, OrSet.add]
  removed_iff tag := by
    refine (faithful.removed_iff tag).trans ?_
    simp [Site.addFile, Observed]

/-- A remove tombstones the tags it observed; those already tombstoned were observed
by an earlier remove. -/
theorem Faithful.removeFile {s : Site ReplicaId FileId Tag} (faithful : s.Faithful D)
    (replica : ReplicaId) (id : FileId) : (s.removeFile D replica id).Faithful D where
  added_iff id' tag := by
    refine (faithful.added_iff id' tag).trans ?_
    simp [Site.removeFile, AddedWith]
  removed_iff tag := by
    rw [Site.removeFile, observed_insert_remove, mem_tagsOf, ← faithful.added_iff,
      ← faithful.removed_iff]
    simp only [Folder.removeFile, OrSet.remove, Finset.mem_union, Finset.mem_image,
      Finset.mem_filter]
    constructor
    · rintro (old | ⟨⟨id', tag'⟩, ⟨present, rfl, -⟩, rfl⟩)
      · exact .inr old
      · exact .inl present
    · rintro (present | old)
      · by_cases old : tag ∈ s.folder.files.removed
        · exact .inl old
        · exact .inr ⟨(id, tag), ⟨present, rfl, old⟩, rfl⟩
      · exact .inl old

theorem Faithful.merge {s other : Site ReplicaId FileId Tag} (faithful : s.Faithful D)
    (faithfulOther : other.Faithful D) : (s.merge D other).Faithful D where
  added_iff id tag := by
    simp only [Site.merge, Folder.merge, OrSet.merge, Finset.mem_union, faithful.added_iff,
      faithfulOther.added_iff, AddedWith, or_and_right, exists_or]
  removed_iff tag := by
    simp only [Site.merge, Folder.merge, OrSet.merge, Finset.mem_union, faithful.removed_iff,
      faithfulOther.removed_iff, Observed, or_and_right, exists_or]

theorem Faithful.contains_iff {s : Site ReplicaId FileId Tag} (faithful : s.Faithful D)
    (id : FileId) :
    s.folder.Contains id ↔ ∃ tag, s.AddedWith D id tag ∧ ¬ s.Observed tag := by
  simp only [Folder.Contains, OrSet.Contains, ← faithful.added_iff, ← faithful.removed_iff]
  constructor
  · rintro ⟨⟨id', tag⟩, present, rfl, live⟩
    exact ⟨tag, present, live⟩
  · rintro ⟨tag, present, live⟩
    exact ⟨(id, tag), present, rfl, live⟩

end Site

/-! ## Exchanges -/

inductive Action (ReplicaId FileId : Type) where
  | addFile (replica : ReplicaId) (id : FileId) (displayName : String)
      (sizeBytes lastModifiedMs : Nat)
  | removeFile (replica : ReplicaId) (id : FileId)
  | share (replica : ReplicaId)
  | merge (replica : ReplicaId) (snapshot : Nat)

/-- One site per replica id, and every snapshot that was shared. -/
structure Exchange (ReplicaId FileId Tag : Type) [LinearOrder ReplicaId] [LinearOrder FileId] where
  sites : ReplicaId → Site ReplicaId FileId Tag
  mail : List (Site ReplicaId FileId Tag)

namespace Exchange

variable (D : Digests ReplicaId Tag Hash)

def start : Exchange ReplicaId FileId Tag := ⟨fun _ => ⟨.new, ∅⟩, []⟩

def write (x : Exchange ReplicaId FileId Tag) (replica : ReplicaId)
    (site : Site ReplicaId FileId Tag) : Exchange ReplicaId FileId Tag :=
  { x with sites := Function.update x.sites replica site }

def step (x : Exchange ReplicaId FileId Tag) :
    Action ReplicaId FileId → Exchange ReplicaId FileId Tag
  | .addFile replica id displayName sizeBytes lastModifiedMs =>
    x.write replica
      ((x.sites replica).addFile D replica id displayName sizeBytes lastModifiedMs)
  | .removeFile replica id => x.write replica ((x.sites replica).removeFile D replica id)
  | .share replica => { x with mail := x.mail ++ [x.sites replica] }
  | .merge replica snapshot =>
    match x.mail[snapshot]? with
    | some other => x.write replica ((x.sites replica).merge D other)
    | none => x

/-- Every site and every snapshot holds what its operations say. -/
def Faithful (x : Exchange ReplicaId FileId Tag) : Prop :=
  (∀ replica, (x.sites replica).Faithful D) ∧ ∀ snapshot ∈ x.mail, snapshot.Faithful D

variable {D}

theorem Faithful.write {x : Exchange ReplicaId FileId Tag} (faithful : x.Faithful D)
    (replica : ReplicaId) {site : Site ReplicaId FileId Tag} (written : site.Faithful D) :
    (x.write replica site).Faithful D := by
  refine ⟨fun r => ?_, faithful.2⟩
  simp only [Exchange.write]
  by_cases same : r = replica
  · subst same
    rwa [Function.update_self]
  · rw [Function.update_of_ne same]
    exact faithful.1 r

theorem step_faithful (x : Exchange ReplicaId FileId Tag) (action : Action ReplicaId FileId)
    (faithful : x.Faithful D) : (x.step D action).Faithful D := by
  cases action with
  | addFile replica id displayName sizeBytes lastModifiedMs =>
    exact faithful.write replica ((faithful.1 replica).addFile ..)
  | removeFile replica id => exact faithful.write replica ((faithful.1 replica).removeFile ..)
  | share replica =>
    refine ⟨faithful.1, fun snapshot mem => ?_⟩
    obtain old | rfl := (List.mem_append.mp mem).imp_right List.mem_singleton.mp
    · exact faithful.2 snapshot old
    · exact faithful.1 replica
  | merge replica snapshot =>
    simp only [step]
    split
    · next other found =>
        have faithfulOther := faithful.2 other (List.mem_of_getElem? found)
        exact faithful.write replica ((faithful.1 replica).merge faithfulOther)
    · exact faithful

theorem run_faithful (actions : List (Action ReplicaId FileId)) :
    (run (step D) (start : Exchange ReplicaId FileId Tag) actions).Faithful D := by
  apply run_preserves step_faithful actions
  exact ⟨fun _ => .new, by simp [start]⟩

end Exchange

/-- Folders form a join semilattice, and after any exchange a replica contains exactly
the files with an add whose tag no remove it merged had observed. -/
theorem folder_join_and_contents {D : Digests ReplicaId Tag Hash} (free : CollisionFree D) :
    ((∀ a b : Folder ReplicaId FileId Tag, a.merge D b = b.merge D a) ∧
      (∀ a b c : Folder ReplicaId FileId Tag,
        (a.merge D b).merge D c = a.merge D (b.merge D c)) ∧
      (∀ a : Folder ReplicaId FileId Tag, a.merge D a = a)) ∧
    ∀ (actions : List (Action ReplicaId FileId)) (x : Exchange ReplicaId FileId Tag),
      run (Exchange.step D) .start actions = x →
      (∀ replica id, (x.sites replica).folder.Contains id ↔
        ∃ tag, (x.sites replica).AddedWith D id tag ∧ ¬ (x.sites replica).Observed tag) ∧
      (∀ replica replica', (x.sites replica).history = (x.sites replica').history →
        ∀ id, (x.sites replica).folder.Contains id ↔ (x.sites replica').folder.Contains id) := by
  refine ⟨⟨Folder.merge_comm free, Folder.merge_assoc free, Folder.merge_self⟩, ?_⟩
  rintro actions x rfl
  have faithful := (Exchange.run_faithful (D := D) actions).1
  refine ⟨fun replica => (faithful replica).contains_iff, fun replica replica' same id => ?_⟩
  rw [(faithful replica).contains_iff, (faithful replica').contains_iff]
  simp only [Site.AddedWith, Site.Observed, same]

end Exchange

/-! ## A run -/

/-- Digests that keep their input. -/
def plainDigests : Digests Nat (Nat ×ₗ Nat) (Nat ×ₗ (String ×ₗ Nat)) where
  deriveTag replica counter := toLex (replica, counter)
  deriveKey replica valueRepr timestamp := toLex (replica, toLex (valueRepr, timestamp))
  debugString name := "\"" ++ name ++ "\""

theorem plainDigests_collisionFree : CollisionFree plainDigests where
  names a b same := by
    have parts := congrArg ofLex same
    have rest := congrArg ofLex (Prod.ext_iff.mp parts).2
    ext1
    · have text : "\"" ++ a.value ++ "\"" = "\"" ++ b.value ++ "\"" := (Prod.ext_iff.mp rest).1
      simpa using text
    · exact (Prod.ext_iff.mp rest).2
    · exact (Prod.ext_iff.mp parts).1
  numbers a b same := by
    have parts := congrArg ofLex same
    have rest := congrArg ofLex (Prod.ext_iff.mp parts).2
    ext1
    · have text : a.value.repr = b.value.repr := (Prod.ext_iff.mp rest).1
      have digits := congrArg (fun s => Nat.ofDigitChars 10 s.toList 0) text
      simpa using digits
    · exact (Prod.ext_iff.mp rest).2
    · exact (Prod.ext_iff.mp parts).1
  tags r c r' c' same := Prod.ext_iff.mp (congrArg ofLex same)

/-- Replica 2 removes the file it merged while replica 1 adds it again. -/
def concurrentReadd : List (Action Nat Nat) :=
  [.addFile 1 7 "notes" 3 10, .share 1, .merge 2 0, .removeFile 2 7, .share 2,
    .addFile 1 7 "notes" 4 11, .merge 1 1, .share 1, .merge 2 2]

theorem concurrentReadd_contains :
    CollisionFree plainDigests ∧
      ((run (Exchange.step plainDigests) .start concurrentReadd).sites 2).folder.Contains 7 ∧
      ∃ tag, ((run (Exchange.step plainDigests) .start concurrentReadd).sites 2).AddedWith
          plainDigests 7 tag ∧
        ¬ ((run (Exchange.step plainDigests) .start concurrentReadd).sites 2).Observed tag := by
  have contains := ((folder_join_and_contents plainDigests_collisionFree).2 concurrentReadd _
    rfl).1 2 7
  have present :
      ((run (Exchange.step plainDigests) .start concurrentReadd).sites 2).folder.Contains 7 := by
    decide
  exact ⟨plainDigests_collisionFree, present, contains.mp present⟩

end OneLink.NativeCrdt
