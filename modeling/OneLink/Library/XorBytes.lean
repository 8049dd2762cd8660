/-
# Library.XorBytes -- byte strings of one length under exclusive or

Exclusive or, byte by byte, is commutative and undoes itself on strings of one
length.  `xorSum` adds the strings of a list of indexes; taking an index out of
the list takes its string out of the sum (`xorSum_erase`).
-/
import Mathlib.Data.List.Basic

namespace OneLink.Library

set_option autoImplicit false

def xorBytes (a b : List UInt8) : List UInt8 := List.zipWith (· ^^^ ·) a b

theorem length_xorBytes {a b : List UInt8} (length : a.length = b.length) :
    (xorBytes a b).length = b.length := by
  rw [xorBytes, List.length_zipWith, length, Nat.min_self]

theorem xorBytes_comm (a b : List UInt8) : xorBytes a b = xorBytes b a :=
  List.zipWith_comm_of_comm UInt8.xor_comm

theorem xorBytes_assoc (a b c : List UInt8) :
    xorBytes (xorBytes a b) c = xorBytes a (xorBytes b c) := by
  simp only [xorBytes]
  induction a generalizing b c with
  | nil => simp
  | cons x a ih =>
    cases b with
    | nil => simp
    | cons y b =>
      cases c with
      | nil => simp
      | cons z c => simp only [List.zipWith_cons_cons, ih, UInt8.xor_assoc]

theorem xorBytes_left_comm (a b c : List UInt8) :
    xorBytes a (xorBytes b c) = xorBytes b (xorBytes a c) := by
  rw [← xorBytes_assoc, xorBytes_comm a b, xorBytes_assoc]

theorem xorBytes_zeros {a : List UInt8} {len : Nat} (length : a.length = len) :
    xorBytes a (List.replicate len 0) = a := by
  subst length
  induction a with
  | nil => rfl
  | cons x a ih =>
    show (x ^^^ 0) :: xorBytes a (List.replicate a.length 0) = x :: a
    rw [ih, UInt8.xor_zero]

theorem xorBytes_self {a : List UInt8} {len : Nat} (length : a.length = len) :
    xorBytes a a = List.replicate len 0 := by
  subst length
  induction a with
  | nil => rfl
  | cons x a ih =>
    show (x ^^^ x) :: xorBytes a a = 0 :: List.replicate a.length 0
    rw [ih, UInt8.xor_self]

/-- Adding a string twice changes nothing. -/
theorem xorBytes_cancel {a b : List UInt8} (length : a.length = b.length) :
    xorBytes (xorBytes a b) a = b := by
  rw [xorBytes_comm a b, xorBytes_assoc, xorBytes_self length, xorBytes_zeros rfl]

section Sum

variable {V : Type} (len : Nat) (text : V → List UInt8)

/-- The sum of the strings of some indexes. -/
def xorSum (indexes : List V) : List UInt8 :=
  indexes.foldr (fun v rest => xorBytes (text v) rest) (List.replicate len 0)

@[simp] theorem xorSum_nil : xorSum len text [] = List.replicate len 0 := rfl

@[simp] theorem xorSum_cons (v : V) (rest : List V) :
    xorSum len text (v :: rest) = xorBytes (text v) (xorSum len text rest) := rfl

variable {len text}

theorem length_xorSum {indexes : List V} (lengths : ∀ v ∈ indexes, (text v).length = len) :
    (xorSum len text indexes).length = len := by
  induction indexes with
  | nil => exact List.length_replicate
  | cons v rest ih =>
    have tail := ih fun w later => lengths w (List.mem_cons_of_mem v later)
    rw [xorSum_cons, length_xorBytes ((lengths v List.mem_cons_self).trans tail.symm), tail]

theorem xorSum_singleton {v : V} (length : (text v).length = len) :
    xorSum len text [v] = text v :=
  xorBytes_zeros length

theorem xorSum_append {early late : List V} (lengths : ∀ v ∈ late, (text v).length = len) :
    xorSum len text (early ++ late) = xorBytes (xorSum len text early) (xorSum len text late) := by
  induction early with
  | nil =>
    rw [List.nil_append, xorSum_nil, xorBytes_comm, xorBytes_zeros (length_xorSum lengths)]
  | cons v early ih => rw [List.cons_append, xorSum_cons, ih, xorSum_cons, xorBytes_assoc]

theorem xorSum_erase [DecidableEq V] {indexes : List V} {v : V} (member : v ∈ indexes) :
    xorBytes (text v) (xorSum len text (indexes.erase v)) = xorSum len text indexes := by
  induction indexes with
  | nil => simp at member
  | cons w rest ih =>
    by_cases same : w = v
    · rw [same, List.erase_cons_head, xorSum_cons]
    · rw [List.erase_cons_tail (by simpa using same), xorSum_cons, xorSum_cons, xorBytes_left_comm,
        ih ((List.mem_cons.1 member).resolve_left (Ne.symm same))]

/-- A fold that adds the strings one after the other. -/
theorem foldl_xorBytes {start : List UInt8} {indexes : List V} (startLength : start.length = len)
    (lengths : ∀ v ∈ indexes, (text v).length = len) :
    indexes.foldl (fun out v => xorBytes out (text v)) start =
      xorBytes start (xorSum len text indexes) := by
  induction indexes generalizing start with
  | nil => exact (xorBytes_zeros startLength).symm
  | cons v rest ih =>
    have head := lengths v List.mem_cons_self
    rw [List.foldl_cons, xorSum_cons, ← xorBytes_assoc]
    exact ih ((length_xorBytes (startLength.trans head.symm)).trans head) fun w later =>
      lengths w (List.mem_cons_of_mem v later)

end Sum

end OneLink.Library
