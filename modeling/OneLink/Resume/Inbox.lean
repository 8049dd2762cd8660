/-
# Resume.Inbox — the sidecars of one inbox, from write to restart

The registry knows a transfer by peer and blob, its sidecar's file by the blob alone.  So
a run keeps every record apart only as long as no two peers have one for the same blob
(`Guard`); then a restart finds exactly the live records that the loader admits, whatever
the order in which the directory is listed (`registry_holds`).
-/
import OneLink.Library.Run
import OneLink.Resume.RoundTrip

namespace OneLink.Resume

open Library Library.PyJson

set_option autoImplicit false

variable {F : Type} (fl : Floats F) (H : Cdc.Blake3)

/-- A string field; the validator admits no other value there. -/
def textOf : Value F → PyStr
  | .str s => s
  | _ => []

/-- `(sc.peer_fp, sc.blob_hex)` -/
def ResumeSidecar.key (sc : ResumeSidecar F) : PyStr × PyStr := (textOf sc.peerFp, textOf sc.blobHex)

/-- The sidecar directory: the `.json` files by their stem. -/
abbrev Dir := OrderedDict PyStr Text

def persistSidecar (dir : Dir) (sc : ResumeSidecar F) : Except ResumeError Dir := do
  validateUntrustedFields fl (stamped fl H sc)
  return dir.set sc.key.2 (toJson fl H sc)

def deleteSidecar (dir : Dir) (blobHex : PyStr) : Dir := dir.erase blobHex

/-- What the loader asks the file system. -/
structure Disk where
  /-- `Path(path).resolve()`, or `none` where that raises. -/
  resolve : PyStr → Option PyStr
  /-- `path.relative_to(inbox_resolved)` does not raise. -/
  inside : PyStr → Bool
  isFile : PyStr → Bool

section Load

variable (disk : Disk) (now : Int × Int) (pruneBeforeMs : Int)

/-- The checks of the paths; `none` where resolving the final path raises. -/
def Disk.admits (sc : ResumeSidecar F) : Option Bool :=
  match disk.resolve (textOf sc.outPath) with
  | none => some false
  | some op =>
    if ¬ disk.inside op then some false
    else if truthy fl sc.finalPath then
      (disk.resolve (textOf sc.finalPath)).map fun path => disk.inside path && disk.isFile op
    else some (disk.isFile op)

/-- `scan_inbox` over the names that `iterdir` lists; a file that is not taken is unlinked. -/
def scanInbox : List PyStr → Dir → Option (List (ResumeSidecar F) × Dir)
  | [], dir => some ([], dir)
  | name :: names, dir =>
    match fromJson fl H now ((dir.get? name).getD []) with
    | .error _ => scanInbox names (dir.erase name)
    | .ok sc =>
      match disk.admits fl sc with
      | none => none
      | some false => scanInbox names (dir.erase name)
      | some true => (scanInbox names dir).map fun (out, dir) => (sc :: out, dir)

/-- `sc.updated_ms < prune_before_ms` -/
def stale (sc : ResumeSidecar F) : Bool :=
  match sc.updatedMs with
  | .int updated => updated < pruneBeforeMs
  | _ => false

/-- Fill the registry; the sidecar of a stale record is deleted. -/
def registerAll : List (ResumeSidecar F) → OrderedDict (PyStr × PyStr) (ResumeSidecar F) → Dir →
    OrderedDict (PyStr × PyStr) (ResumeSidecar F) × Dir
  | [], byKey, dir => (byKey, dir)
  | sc :: recovered, byKey, dir =>
    if stale pruneBeforeMs sc then registerAll recovered byKey (deleteSidecar dir sc.key.2)
    else registerAll recovered (byKey.set sc.key sc) dir

/-- `load_from_inbox`, with nothing in the historical directory to migrate. -/
def loadFromInbox (names : List PyStr) (dir : Dir) :
    Option (OrderedDict (PyStr × PyStr) (ResumeSidecar F) × Dir) := do
  let (recovered, dir) ← scanInbox fl H disk now names dir
  return registerAll pruneBeforeMs recovered .empty dir

end Load

/-! ## Runs -/

inductive Call (F : Type) where
  | persist (sc : ResumeSidecar F)
  | delete (peerFp blobHex : PyStr)

/-- The directory, and which records have been persisted and not deleted since. -/
structure World (F : Type) where
  dir : Dir
  live : PyStr × PyStr → Option (ResumeSidecar F)

def World.initial : World F := ⟨.empty, fun _ => none⟩

def World.step (w : World F) : Call F → World F
  | .persist sc =>
    match persistSidecar fl H w.dir sc with
    | .ok dir => ⟨dir, Function.update w.live sc.key (some sc)⟩
    | .error _ => w
  | .delete peerFp blobHex =>
    ⟨deleteSidecar w.dir blobHex, Function.update w.live (peerFp, blobHex) none⟩

def Call.key : Call F → PyStr × PyStr
  | .persist sc => sc.key
  | .delete peerFp blobHex => (peerFp, blobHex)

/-- No other peer has a record for the blob, and a record that is written can be read back. -/
structure Guard (w : World F) (c : Call F) : Prop where
  alone : ∀ other, other ≠ c.key.1 → w.live (other, c.key.2) = none
  restores : ∀ sc, c = .persist sc → Restores fl H sc

variable {fl H}

structure Inv (fl : Floats F) (H : Cdc.Blake3) (w : World F) : Prop where
  /-- Each file holds the text of a live record, and each live record has its file. -/
  files : ∀ blob text, w.dir.get? blob = some text ↔
    ∃ peer sc, w.live (peer, blob) = some sc ∧ toJson fl H sc = text
  keyed : ∀ key sc, w.live key = some sc → sc.key = key ∧ Restores fl H sc
  alone : ∀ peer other blob, w.live (peer, blob) ≠ none → w.live (other, blob) ≠ none → peer = other

theorem inv_initial : Inv fl H (World.initial : World F) := by
  refine ⟨fun blob text => ?_, fun _ _ nothing => ?_, fun _ _ _ nothing => absurd rfl nothing⟩
  · simp [World.initial]
  · cases nothing

/-- A call on the key of a blob that no other peer has a record for. -/
theorem Inv.update {w : World F} (inv : Inv fl H w) {key : PyStr × PyStr}
    (alone : ∀ other, other ≠ key.1 → w.live (other, key.2) = none)
    {next : Option (ResumeSidecar F)} (fits : ∀ sc, next = some sc → sc.key = key ∧ Restores fl H sc)
    {dir : Dir} (here : dir.get? key.2 = next.map (toJson fl H))
    (elsewhere : ∀ blob, blob ≠ key.2 → dir.get? blob = w.dir.get? blob) :
    Inv fl H ⟨dir, Function.update w.live key next⟩ := by
  have own : ∀ peer, Function.update w.live key next (peer, key.2) ≠ none → peer = key.1 := by
    intro peer live
    by_contra foreign
    rw [Function.update_of_ne fun same => foreign (congrArg Prod.fst same)] at live
    exact live (alone peer foreign)
  have same : Function.update w.live key next key = next := Function.update_self ..
  have other : ∀ key', key' ≠ key → Function.update w.live key next key' = w.live key' :=
    fun _ foreign => Function.update_of_ne foreign ..
  generalize Function.update w.live key next = live at own same other
  refine ⟨fun blob text => ?_, fun key' sc found => ?_, fun peer peer' blob some some' => ?_⟩
  · by_cases own' : blob = key.2
    · subst own'
      rw [here]
      constructor
      · intro found
        obtain ⟨sc, isNext, written⟩ := Option.map_eq_some_iff.mp found
        exact ⟨key.1, sc, same.trans isNext, written⟩
      · rintro ⟨peer, sc, here, written⟩
        obtain rfl := own peer fun nothing => by cases here.symm.trans nothing
        rw [← same, show live key = some sc from here, Option.map_some, written]
    · have apart (peer : PyStr) : live (peer, blob) = w.live (peer, blob) :=
        other _ fun same => own' (congrArg Prod.snd same)
      simp only [elsewhere blob own', apart]
      exact inv.files blob text
  · by_cases own' : key' = key
    · subst own'
      exact fits sc (same.symm.trans found)
    · exact inv.keyed key' sc ((other key' own').symm.trans found)
  · by_cases own' : blob = key.2
    · subst own'
      exact (own peer some).trans (own peer' some').symm
    · have apart (peer : PyStr) : live (peer, blob) = w.live (peer, blob) :=
        other _ fun same => own' (congrArg Prod.snd same)
      exact inv.alone peer peer' blob (apart peer ▸ some) (apart peer' ▸ some')

theorem Inv.step {w : World F} (inv : Inv fl H w) {c : Call F} (guard : Guard fl H w c) :
    Inv fl H (w.step fl H c) := by
  cases c with
  | persist sc =>
    rw [World.step]
    cases written : persistSidecar fl H w.dir sc with
    | error _ => exact inv
    | ok dir =>
      simp only [persistSidecar, bind_eq_ok, pure_eq_ok_iff] at written
      obtain ⟨-, -, rfl⟩ := written
      refine inv.update guard.alone (fun sc' same => ?_) (OrderedDict.get?_set_self ..)
        fun blob foreign => OrderedDict.get?_set_of_ne _ (Ne.symm foreign) _
      cases same
      exact ⟨rfl, guard.restores sc rfl⟩
  | delete peerFp blobHex =>
    exact inv.update guard.alone (fun _ nothing => by cases nothing) (OrderedDict.get?_erase_self ..)
      fun blob foreign => OrderedDict.get?_erase_of_ne _ (Ne.symm foreign)

/-! ## What a restart finds -/

section Load

variable {disk : Disk} {now : Int × Int} {pruneBeforeMs : Int}

/-- The scan takes the records that can be read and have their paths admitted. -/
theorem scanInbox_eq {names : List PyStr} (distinct : names.Nodup) (dir : Dir)
    (resolves : ∀ name ∈ names, ∀ sc, fromJson fl H now ((dir.get? name).getD []) = .ok sc →
      disk.admits fl sc ≠ none) :
    ∃ dir', scanInbox fl H disk now names dir = some ((names.filterMap fun name =>
      (fromJson fl H now ((dir.get? name).getD [])).toOption).filter
        fun sc => disk.admits fl sc = some true, dir') := by
  induction names generalizing dir with
  | nil => exact ⟨dir, rfl⟩
  | cons name names ih =>
    obtain ⟨own, distinct⟩ := List.nodup_cons.mp distinct
    have kept : ∀ other ∈ names, (dir.erase name).get? other = dir.get? other :=
      fun other member => OrderedDict.get?_erase_of_ne dir (ne_of_mem_of_not_mem member own).symm
    have resolves' := fun other member => resolves other (List.mem_cons_of_mem name member)
    obtain ⟨rest, scanned⟩ := ih distinct dir resolves'
    obtain ⟨rest', dropped⟩ := ih distinct (dir.erase name) fun other member => by
      rw [kept other member]
      exact resolves' other member
    rw [List.filterMap_congr fun other member => by rw [kept other member]] at dropped
    rw [scanInbox]
    cases read : fromJson fl H now ((dir.get? name).getD []) with
    | error _ => exact ⟨rest', by simpa [read, Except.toOption] using dropped⟩
    | ok sc =>
      cases admitted : disk.admits fl sc with
      | none => exact absurd admitted (resolves name List.mem_cons_self sc read)
      | some admits =>
        cases admits with
        | false => exact ⟨rest', by simpa [read, admitted, Except.toOption] using dropped⟩
        | true => exact ⟨rest, by simp [scanned, read, admitted, Except.toOption]⟩

theorem get?_registerAll {recovered : List (ResumeSidecar F)}
    (unique : ∀ a ∈ recovered, ∀ b ∈ recovered, a.key = b.key → a = b)
    (byKey : OrderedDict (PyStr × PyStr) (ResumeSidecar F)) (dir : Dir) (key : PyStr × PyStr) :
    (registerAll pruneBeforeMs recovered byKey dir).1.get? key =
      (recovered.find? fun sc => !stale pruneBeforeMs sc && sc.key = key).or (byKey.get? key) := by
  induction recovered generalizing byKey dir with
  | nil => rfl
  | cons sc recovered ih =>
    have rest := ih fun a here b here' =>
      unique a (List.mem_cons_of_mem _ here) b (List.mem_cons_of_mem _ here')
    rw [registerAll, List.find?_cons]
    cases old : stale pruneBeforeMs sc with
    | true => exact rest byKey _
    | false =>
      rw [if_neg Bool.false_ne_true, rest]
      by_cases own : sc.key = key
      · subst own
        rw [OrderedDict.get?_set_self]
        cases found : recovered.find? fun other => !stale pruneBeforeMs other && other.key = sc.key with
        | none => simp
        | some other =>
          have same := List.find?_some found
          simp only [Bool.and_eq_true, decide_eq_true_eq] at same
          have equal := unique other (List.mem_cons_of_mem _ (List.mem_of_find?_eq_some found)) sc
            List.mem_cons_self same.2
          simp [equal]
      · simp [own, OrderedDict.get?_set_of_ne _ own]

theorem Inv.loads {w : World F} (inv : Inv fl H w) {names : List PyStr}
    (listed : names.Perm w.dir.keys)
    (resolves : ∀ key sc, w.live key = some sc → disk.admits fl (stamped fl H sc) ≠ none) :
    ∃ registry dir, loadFromInbox fl H disk now pruneBeforeMs names w.dir = some (registry, dir) ∧
      ∀ key sc', registry.get? key = some sc' ↔ ∃ sc, w.live key = some sc ∧
        stamped fl H sc = sc' ∧ disk.admits fl sc' = some true ∧ stale pruneBeforeMs sc' = false := by
  have reads : ∀ name ∈ names, ∃ peer sc, w.live (peer, name) = some sc ∧
      fromJson fl H now ((w.dir.get? name).getD []) = .ok (stamped fl H sc) := by
    intro name member
    obtain ⟨text, found⟩ := (OrderedDict.mem_keys_iff _).mp (listed.mem_iff.mp member)
    obtain ⟨peer, sc, live, rfl⟩ := (inv.files name text).mp found
    exact ⟨peer, sc, live, by rw [found]; exact (inv.keyed _ _ live).2 now⟩
  obtain ⟨dir, scanned⟩ := @scanInbox_eq F fl H disk now _
    (listed.nodup_iff.mpr w.dir.nodup_keys) w.dir fun name member sc read => by
      obtain ⟨peer, sc', live, read'⟩ := reads name member
      cases read.symm.trans read'
      exact resolves _ _ live
  generalize taken : List.filter _ _ = recovered at scanned
  have mem_taken : ∀ sc', sc' ∈ recovered ↔ ∃ sc, w.live sc'.key = some sc ∧
      stamped fl H sc = sc' ∧ disk.admits fl sc' = some true := by
    intro sc'
    rw [← taken, List.mem_filter, List.mem_filterMap, decide_eq_true_eq]
    constructor
    · rintro ⟨⟨name, member, read⟩, admitted⟩
      obtain ⟨peer, sc, live, read'⟩ := reads name member
      rw [read'] at read
      cases read
      exact ⟨sc, (inv.keyed _ _ live).1 ▸ live, rfl, admitted⟩
    · rintro ⟨sc, live, rfl, admitted⟩
      have file := (inv.files sc.key.2 (toJson fl H sc)).mpr ⟨sc.key.1, sc, live, rfl⟩
      refine ⟨⟨sc.key.2, listed.mem_iff.mpr ((OrderedDict.mem_keys_iff _).mpr ⟨_, file⟩), ?_⟩, admitted⟩
      rw [file, Option.getD_some, (inv.keyed _ _ live).2 now]
      rfl
  have unique : ∀ a ∈ recovered, ∀ b ∈ recovered, a.key = b.key → a = b := by
    intro a member b member' same
    obtain ⟨sc, live, rfl, -⟩ := (mem_taken a).mp member
    obtain ⟨sc', live', rfl, -⟩ := (mem_taken b).mp member'
    rw [same, live'] at live
    cases live
    rfl
  refine ⟨_, _, by rw [loadFromInbox, scanned]; rfl, fun key sc' => ?_⟩
  rw [get?_registerAll unique, OrderedDict.get?_empty, Option.or_none]
  constructor
  · intro found
    obtain ⟨sc, live, same, admitted⟩ := (mem_taken sc').mp (List.mem_of_find?_eq_some found)
    have matching := List.find?_some found
    simp only [Bool.and_eq_true, Bool.not_eq_true', decide_eq_true_eq] at matching
    exact ⟨sc, matching.2 ▸ live, same, admitted, matching.1⟩
  · rintro ⟨sc, live, rfl, admitted, fresh⟩
    have own : (stamped fl H sc).key = key := (inv.keyed _ _ live).1
    have member := (mem_taken _).mpr ⟨sc, own ▸ live, rfl, admitted⟩
    cases found : recovered.find? fun sc => !stale pruneBeforeMs sc && sc.key = key with
    | none => exact absurd (List.find?_eq_none.mp found _ member) (by simp [fresh, own])
    | some other =>
      have matching := List.find?_some found
      simp only [Bool.and_eq_true, decide_eq_true_eq] at matching
      rw [unique other (List.mem_of_find?_eq_some found) _ member (matching.2.trans own.symm)]

end Load

end OneLink.Resume
