/-
# Library.FaultyDisk — files that may lose what was not synced

A file on disk is what the last sync made durable and the bytes written since.
A crash keeps, of every file, the durable part and some prefix of the rest
(`Survives`).

An operation on disk may return, raise, or be cut off by a crash (`Exit`), and
each I/O call it makes has a fate: it is done, fails after some of its bytes, or
the machine stops after some of them.  `Faulty` is the monad of such operations:
its state is what is left in every case, also behind an error.
-/
import Mathlib.Data.List.Forall2
import OneLink.Library.Framing

namespace OneLink.Library

set_option autoImplicit false

/-! ## Files -/

structure DiskFile where
  id : Nat
  durable : Bytes
  /-- Written since the last sync. -/
  cached : Bytes
deriving DecidableEq, Repr

namespace DiskFile

def contents (f : DiskFile) : Bytes := f.durable ++ f.cached

def write (bytes : Bytes) (f : DiskFile) : DiskFile := { f with cached := f.cached ++ bytes }

def sync (f : DiskFile) : DiskFile := { f with durable := f.contents, cached := [] }

/-- `set_len` to no more than the present length, and a sync. -/
def setLen (length : Nat) (f : DiskFile) : DiskFile :=
  { f with durable := f.contents.take length, cached := [] }

end DiskFile

/-- The files of one directory, in the order it lists them. -/
abbrev Disk := List DiskFile

def Disk.modifyFile (disk : Disk) (id : Nat) (change : DiskFile → DiskFile) : Disk :=
  disk.map fun f => if f.id = id then change f else f

theorem Disk.modifyFile_append {early : Disk} {last : DiskFile} {id : Nat}
    {change : DiskFile → DiskFile} (others : ∀ f ∈ early, f.id ≠ id) (this : last.id = id) :
    Disk.modifyFile (early ++ [last]) id change = early ++ [change last] := by
  have kept : early.map (fun f => if f.id = id then change f else f) = early := by
    conv_rhs => rw [← List.map_id early]
    apply List.map_congr_left
    intro f member
    exact if_neg (others f member)
  simp [Disk.modifyFile, kept, this]

/-- What a crash may leave of a file. -/
def DiskFile.Survivor (f g : DiskFile) : Prop :=
  ∃ kept, kept <+: f.cached ∧ g = ⟨f.id, f.durable ++ kept, []⟩

/-- What a crash may leave of a disk. -/
def Survives (disk left : Disk) : Prop := List.Forall₂ DiskFile.Survivor disk left

/-- Files that are synced survive as they are. -/
theorem Survives.of_synced {disk left : Disk} (synced : ∀ f ∈ disk, f.cached = [])
    (survives : Survives disk left) : left = disk := by
  induction survives with
  | nil => rfl
  | @cons f g disk left first _ ih =>
    obtain ⟨kept, isPrefix, rfl⟩ := first
    rw [List.forall_mem_cons] at synced
    rw [synced.1, List.prefix_nil] at isPrefix
    subst isPrefix
    rw [ih synced.2]
    obtain ⟨id, durable, cached⟩ := f
    obtain rfl : cached = [] := synced.1
    rw [List.append_nil]

theorem Survives.append_inv {early late left : Disk} (survives : Survives (early ++ late) left) :
    ∃ left₁ left₂, left = left₁ ++ left₂ ∧ Survives early left₁ ∧ Survives late left₂ := by
  induction early generalizing left with
  | nil => exact ⟨[], left, rfl, .nil, survives⟩
  | cons f early ih =>
    cases survives with
    | cons first rest =>
      obtain ⟨left₁, left₂, rfl, earlier, later⟩ := ih rest
      exact ⟨_ :: left₁, left₂, rfl, .cons first earlier, later⟩

/-- Only the last file had bytes to lose. -/
theorem Survives.last_inv {early left : Disk} {last : DiskFile}
    (synced : ∀ f ∈ early, f.cached = []) (survives : Survives (early ++ [last]) left) :
    ∃ kept, kept <+: last.cached ∧ left = early ++ [⟨last.id, last.durable ++ kept, []⟩] := by
  obtain ⟨left₁, left₂, rfl, earlier, later⟩ := survives.append_inv
  cases later with
  | cons first rest =>
    cases rest
    obtain ⟨kept, isPrefix, rfl⟩ := first
    exact ⟨kept, isPrefix, by rw [Survives.of_synced synced earlier]⟩

/-! ## Operations that may fail or be cut off -/

/-- How one I/O call goes. -/
inductive Fate where
  | done
  /-- It fails with an error after this many of its bytes. -/
  | fails (written : Nat)
  /-- The machine stops after this many of its bytes. -/
  | crashes (written : Nat)
deriving DecidableEq, Repr

def Fate.isFault : Fate → Bool
  | .fails _ => true
  | _ => false

inductive Exit (ε α : Type) where
  | returned (a : α)
  | raised (err : ε)
  | crashed
deriving DecidableEq, Repr

/-- The exit of an operation inside another, whose errors wrap its own. -/
def Exit.wrap {δ ε α : Type} (wrap : δ → ε) : Exit δ α → Exit ε α
  | .returned a => .returned a
  | .raised err => .raised (wrap err)
  | .crashed => .crashed

def Faulty (S ε α : Type) : Type := S → Exit ε α × S

namespace Faulty

variable {S T ε δ α β : Type}

/-- Go on from an exit, unless it raised or crashed. -/
def resume (exit : Exit ε α × S) (f : α → Faulty S ε β) : Exit ε β × S :=
  match exit with
  | (.returned a, s) => f a s
  | (.raised err, s) => (.raised err, s)
  | (.crashed, s) => (.crashed, s)

instance : Monad (Faulty S ε) where
  pure a := fun s => (.returned a, s)
  bind m f := fun s => resume (m s) f

def raise (err : ε) : Faulty S ε α := fun s => (.raised err, s)

def read (f : S → α) : Faulty S ε α := fun s => (.returned (f s), s)

def modify (f : S → S) : Faulty S ε Unit := fun s => (.returned (), f s)

def ofExcept : Except ε α → Faulty S ε α
  | .ok a => pure a
  | .error err => raise err

/-- An operation on a part of the state. -/
def onPart (get : S → T) (set : T → S → S) (wrap : δ → ε) (m : Faulty T δ α) : Faulty S ε α :=
  fun s =>
    match m (get s) with
    | (.returned a, t) => (.returned a, set t s)
    | (.raised err, t) => (.raised (wrap err), set t s)
    | (.crashed, t) => (.crashed, set t s)

@[simp] theorem run_pure (a : α) (s : S) :
    (pure a : Faulty S ε α) s = (.returned a, s) := rfl

@[simp] theorem run_modify (f : S → S) (s : S) :
    (modify f : Faulty S ε Unit) s = (.returned (), f s) := rfl

theorem bind_returned {m : Faulty S ε α} {f : α → Faulty S ε β} {s t : S} {a : α}
    (first : m s = (.returned a, t)) : (m >>= f) s = f a t := by
  show resume (m s) f = _
  rw [first]
  rfl

theorem bind_raised {m : Faulty S ε α} {f : α → Faulty S ε β} {s t : S} {err : ε}
    (first : m s = (.raised err, t)) : (m >>= f) s = (.raised err, t) := by
  show resume (m s) f = _
  rw [first]
  rfl

theorem bind_crashed {m : Faulty S ε α} {f : α → Faulty S ε β} {s t : S}
    (first : m s = (.crashed, t)) : (m >>= f) s = (.crashed, t) := by
  show resume (m s) f = _
  rw [first]
  rfl

@[simp] theorem ofExcept_ok (a : α) : (ofExcept (.ok a) : Faulty S ε α) = pure a := rfl

@[simp] theorem ofExcept_error (err : ε) : (ofExcept (.error err) : Faulty S ε α) = raise err := rfl

@[simp] theorem read_bind (g : S → α) (f : α → Faulty S ε β) (s : S) :
    ((read g : Faulty S ε α) >>= f) s = f (g s) s := rfl

@[simp] theorem raise_bind (err : ε) (f : α → Faulty S ε β) (s : S) :
    ((raise err : Faulty S ε α) >>= f) s = (.raised err, s) := rfl

@[simp] theorem pure_bind_run (a : α) (f : α → Faulty S ε β) (s : S) :
    ((pure a : Faulty S ε α) >>= f) s = f a s := rfl

@[simp] theorem modify_bind (g : S → S) (f : Unit → Faulty S ε β) (s : S) :
    ((modify g : Faulty S ε Unit) >>= f) s = f () (g s) := rfl

/-! ### Reading a run back -/

/-- A bind ran its first part, and its second where that returned. -/
theorem bind_inv {m : Faulty S ε α} {f : α → Faulty S ε β} {s t : S} {exit : Exit ε β}
    (ran : (m >>= f) s = (exit, t)) :
    (∃ a s', m s = (.returned a, s') ∧ f a s' = (exit, t)) ∨
      (∃ err, m s = (.raised err, t) ∧ exit = .raised err) ∨
      m s = (.crashed, t) ∧ exit = .crashed := by
  cases first : m s with
  | mk inner s' =>
    cases inner with
    | returned a =>
      rw [bind_returned first] at ran
      exact .inl ⟨a, s', rfl, ran⟩
    | raised err =>
      rw [bind_raised first] at ran
      obtain ⟨rfl, rfl⟩ := Prod.mk.inj ran
      exact .inr (.inl ⟨err, rfl, rfl⟩)
    | crashed =>
      rw [bind_crashed first] at ran
      obtain ⟨rfl, rfl⟩ := Prod.mk.inj ran
      exact .inr (.inr ⟨rfl, rfl⟩)

theorem onPart_run {get : S → T} {set : T → S → S} {wrap : δ → ε} {m : Faulty T δ α} {s : S}
    {inner : Exit δ α} {part : T} (ran : m (get s) = (inner, part)) :
    onPart get set wrap m s = (inner.wrap wrap, set part s) := by
  rw [onPart, ran]
  cases inner <;> rfl

theorem onPart_inv {get : S → T} {set : T → S → S} {wrap : δ → ε} {m : Faulty T δ α} {s t : S}
    {exit : Exit ε α} (ran : onPart get set wrap m s = (exit, t)) :
    ∃ inner part, m (get s) = (inner, part) ∧ t = set part s ∧ exit = inner.wrap wrap := by
  obtain ⟨rfl, rfl⟩ := Prod.mk.inj (ran.symm.trans (onPart_run rfl))
  exact ⟨_, _, rfl, rfl, rfl⟩

end Faulty

/-! ## I/O calls -/

section Calls

variable {ε : Type} (ioError : ε)

/-- `write_all` at the end of a file. -/
def writeAll (id : Nat) (fate : Fate) (bytes : Bytes) : Faulty Disk ε Unit := fun disk =>
  match fate with
  | .done => (.returned (), disk.modifyFile id (·.write bytes))
  | .fails written => (.raised ioError, disk.modifyFile id (·.write (bytes.take written)))
  | .crashes written => (.crashed, disk.modifyFile id (·.write (bytes.take written)))

/-- `sync_data` -/
def syncData (id : Nat) (fate : Fate) : Faulty Disk ε Unit := fun disk =>
  match fate with
  | .done => (.returned (), disk.modifyFile id (·.sync))
  | .fails _ => (.raised ioError, disk)
  | .crashes _ => (.crashed, disk)

/-- `OpenOptions::create_new`: an existing file is an error. -/
def createNew (id : Nat) (fate : Fate) : Faulty Disk ε Unit := fun disk =>
  match fate with
  | .done =>
    if ∃ f ∈ disk, f.id = id then (.raised ioError, disk)
    else (.returned (), disk ++ [⟨id, [], []⟩])
  | .fails _ => (.raised ioError, disk)
  | .crashes _ => (.crashed, disk)

end Calls

end OneLink.Library
