/-
# Library.Trap -- computations that may trap

Indexing outside a slice, copying from a slice of another length and arithmetic outside the machine
word stop a program before it can return an error of its own.  `Safe` says that a computation does
not stop so; it holds of a sequence when each step is safe given what the steps before it returned
(`Safe.bind`).
-/
import OneLink.Library.ByteReader
import OneLink.Library.Checked

namespace OneLink.Library

set_option autoImplicit false

/-- How a computation stops without a result. -/
inductive Stop (ε : Type) where
  | trap
  | fail (err : ε)
deriving DecidableEq

variable {ε α β : Type}

/-- An error of the program's own. -/
def orFail (x : Except ε α) : Except (Stop ε) α :=
  match x with
  | .ok a => .ok a
  | .error err => .error (.fail err)

/-- Code that does not return has trapped. -/
def orTrap (x : Option α) : Except (Stop ε) α :=
  match x with
  | some a => .ok a
  | none => .error .trap

/-- `data[start..stop]`. -/
def sliceAt (data : Bytes) (start stop : Nat) : Except (Stop ε) Bytes := do
  require (start ≤ stop ∧ stop ≤ data.length) .trap
  return slice data start stop

/-- `data[i]`. -/
def byteAt (data : Bytes) (i : Nat) : Except (Stop ε) UInt8 :=
  match data[i]? with
  | some byte => .ok byte
  | none => .error .trap

/-- `a + b` in a 64-bit word. -/
def addWord (a b : Nat) : Except (Stop ε) Nat := do
  require (a + b < 2 ^ 64) .trap
  return a + b

/-- `a - b` in an unsigned word. -/
def subWord (a b : Nat) : Except (Stop ε) Nat := do
  require (b ≤ a) .trap
  return a - b

/-- `Vec::with_capacity`, of elements of `size` bytes. -/
def withCapacity (count size : Nat) : Except (Stop ε) Unit := require (count * size < 2 ^ 63) .trap

/-- `copy_from_slice` into `n` bytes. -/
def copyFromSlice (n : Nat) (data : Bytes) : Except (Stop ε) { bytes : Bytes // bytes.length = n } :=
  if fits : data.length = n then .ok ⟨data, fits⟩ else .error .trap

/-- `<[u8; n]>::try_from`. -/
def tryInto (n : Nat) (data : Bytes) (err : ε) :
    Except (Stop ε) { bytes : Bytes // bytes.length = n } :=
  if fits : data.length = n then .ok ⟨data, fits⟩ else .error (.fail err)

/-! ## What they return -/

theorem orFail_eq_ok {x : Except ε α} {a : α} : orFail x = .ok a ↔ x = .ok a := by
  cases x with
  | ok b => simp [orFail]
  | error err => simp [orFail]

theorem sliceAt_eq_ok {data part : Bytes} {start stop : Nat} :
    (sliceAt data start stop : Except (Stop ε) Bytes) = .ok part ↔
      (start ≤ stop ∧ stop ≤ data.length) ∧ slice data start stop = part := by
  simp only [sliceAt, bind_eq_ok, require_eq_ok, exists_const, pure_eq_ok_iff]

theorem byteAt_eq_ok {data : Bytes} {i : Nat} {byte : UInt8} :
    (byteAt data i : Except (Stop ε) UInt8) = .ok byte ↔ data[i]? = some byte := by
  rw [byteAt]
  cases data[i]? with
  | some b => simp
  | none => simp

theorem addWord_eq_ok {a b n : Nat} :
    (addWord a b : Except (Stop ε) Nat) = .ok n ↔ a + b < 2 ^ 64 ∧ a + b = n := by
  simp only [addWord, bind_eq_ok, require_eq_ok, exists_const, pure_eq_ok_iff]

theorem subWord_eq_ok {a b n : Nat} :
    (subWord a b : Except (Stop ε) Nat) = .ok n ↔ b ≤ a ∧ a - b = n := by
  simp only [subWord, bind_eq_ok, require_eq_ok, exists_const, pure_eq_ok_iff]

theorem copyFromSlice_eq_ok {n : Nat} {data : Bytes} {copied : { bytes : Bytes // bytes.length = n }} :
    (copyFromSlice n data : Except (Stop ε) _) = .ok copied ↔ data = copied.val := by
  rw [copyFromSlice]
  split
  · rw [Except.ok.injEq, Subtype.ext_iff]
  · rename_i other
    exact ⟨nofun, fun same => absurd (same ▸ copied.property) other⟩

theorem tryInto_eq_ok {n : Nat} {data : Bytes} {err : ε}
    {copied : { bytes : Bytes // bytes.length = n }} :
    tryInto n data err = .ok copied ↔ data = copied.val := by
  rw [tryInto]
  split
  · rw [Except.ok.injEq, Subtype.ext_iff]
  · rename_i other
    exact ⟨nofun, fun same => absurd (same ▸ copied.property) other⟩

/-! ## What does not trap -/

def Safe (x : Except (Stop ε) α) : Prop := x ≠ .error .trap

theorem safe_ok (a : α) : Safe (.ok a : Except (Stop ε) α) := nofun

theorem safe_pure (a : α) : Safe (pure a : Except (Stop ε) α) := nofun

theorem safe_fail (err : ε) : Safe (.error (.fail err) : Except (Stop ε) α) := nofun

theorem Safe.bind {x : Except (Stop ε) α} {f : α → Except (Stop ε) β} (first : Safe x)
    (next : ∀ a, x = .ok a → Safe (f a)) : Safe (x >>= f) := by
  cases x with
  | ok a => exact next a rfl
  | error stop =>
    intro trapped
    rw [error_bind] at trapped
    cases trapped
    exact first rfl

theorem safe_require (p : Prop) [Decidable p] (err : ε) :
    Safe (require p (.fail err) : Except (Stop ε) Unit) := by
  rw [require]
  split
  · exact safe_ok ()
  · exact safe_fail err

/-- A guard hands its condition to what follows. -/
theorem Safe.require_bind {p : Prop} [Decidable p] {err : ε} {f : Unit → Except (Stop ε) β}
    (next : p → Safe (f ())) : Safe (require p (.fail err) >>= f) :=
  (safe_require p err).bind fun _ passed => next (require_eq_ok.mp passed)

theorem safe_sliceAt {data : Bytes} {start stop : Nat} (order : start ≤ stop)
    (inside : stop ≤ data.length) : Safe (sliceAt data start stop : Except (Stop ε) Bytes) := by
  rw [sliceAt, require_of ⟨order, inside⟩]
  exact safe_ok _

theorem safe_byteAt {data : Bytes} {i : Nat} (inside : i < data.length) :
    Safe (byteAt data i : Except (Stop ε) UInt8) := by
  rw [byteAt, List.getElem?_eq_getElem inside]
  exact safe_ok _

theorem safe_addWord {a b : Nat} (fits : a + b < 2 ^ 64) :
    Safe (addWord a b : Except (Stop ε) Nat) := by
  rw [addWord, require_of fits]
  exact safe_ok _

theorem safe_subWord {a b : Nat} (fits : b ≤ a) : Safe (subWord a b : Except (Stop ε) Nat) := by
  rw [subWord, require_of fits]
  exact safe_ok _

theorem safe_withCapacity {count size : Nat} (fits : count * size < 2 ^ 63) :
    Safe (withCapacity count size : Except (Stop ε) Unit) := by
  rw [withCapacity, require_of fits]
  exact safe_ok _

theorem safe_copyFromSlice {n : Nat} {data : Bytes} (fits : data.length = n) :
    Safe (copyFromSlice n data : Except (Stop ε) _) := by
  rw [copyFromSlice, dif_pos fits]
  exact safe_ok _

theorem safe_tryInto (n : Nat) (data : Bytes) (err : ε) : Safe (tryInto n data err) := by
  rw [tryInto]
  split
  · exact safe_ok _
  · exact safe_fail err

end OneLink.Library
