/-
# Library.Cutter — cutting a stream by a rolling summary

A cutter folds a stream into pieces: it rolls a summary over the elements of the
piece at hand and closes the piece when the length and the summary say so.  Nothing
is lost (`feed_flatten`), and a cutter that never cuts below `lo` and always cuts at
`hi` keeps every piece between them (`feed_bounds`).
-/
import Mathlib.Data.List.Basic
import Mathlib.Data.List.Induction

namespace OneLink.Library

set_option autoImplicit false

structure Cutter (α R : Type) where
  start : R
  roll : R → α → R
  cuts : (length : Nat) → R → Bool

namespace Cutter

variable {α R : Type} (c : Cutter α R)

/-- The pieces closed so far, the piece at hand and its summary. -/
structure Progress (α R : Type) where
  pieces : List (List α)
  pending : List α
  rolling : R

def begin : Progress α R := ⟨[], [], c.start⟩

def step (p : Progress α R) (a : α) : Progress α R :=
  let rolling := c.roll p.rolling a
  let pending := p.pending ++ [a]
  if c.cuts pending.length rolling then ⟨p.pieces ++ [pending], [], c.start⟩
  else ⟨p.pieces, pending, rolling⟩

def feed (p : Progress α R) (stream : List α) : Progress α R := stream.foldl c.step p

/-- All pieces, the unfinished one last. -/
def Progress.all (p : Progress α R) : List (List α) :=
  if p.pending = [] then p.pieces else p.pieces ++ [p.pending]

@[simp] theorem feed_nil (p : Progress α R) : c.feed p [] = p := rfl

@[simp] theorem feed_cons (p : Progress α R) (a : α) (rest : List α) :
    c.feed p (a :: rest) = c.feed (c.step p a) rest := rfl

theorem feed_append (p : Progress α R) (early late : List α) :
    c.feed p (early ++ late) = c.feed (c.feed p early) late :=
  List.foldl_append

theorem step_cases (p : Progress α R) (a : α) :
    (c.cuts (p.pending.length + 1) (c.roll p.rolling a) = true ∧
      c.step p a = ⟨p.pieces ++ [p.pending ++ [a]], [], c.start⟩) ∨
    (c.cuts (p.pending.length + 1) (c.roll p.rolling a) = false ∧
      c.step p a = ⟨p.pieces, p.pending ++ [a], c.roll p.rolling a⟩) := by
  simp only [step, List.length_append, List.length_singleton]
  cases cut : c.cuts (p.pending.length + 1) (c.roll p.rolling a)
  · exact .inr ⟨rfl, if_neg Bool.false_ne_true⟩
  · exact .inl ⟨rfl, if_pos rfl⟩

theorem feed_flatten (p : Progress α R) (stream : List α) :
    (c.feed p stream).pieces.flatten ++ (c.feed p stream).pending =
      p.pieces.flatten ++ p.pending ++ stream := by
  induction stream generalizing p with
  | nil => simp
  | cons a rest ih =>
    rw [feed_cons, ih]
    obtain ⟨-, cut⟩ | ⟨-, kept⟩ := c.step_cases p a
    · simp [cut]
    · simp [kept]

theorem feed_begin_flatten (stream : List α) :
    (c.feed c.begin stream).pieces.flatten ++ (c.feed c.begin stream).pending = stream := by
  rw [feed_flatten]
  rfl

/-- Closed pieces are within the bounds, the piece at hand is below the upper one. -/
structure Within (lo hi : Nat) (p : Progress α R) : Prop where
  pieces : ∀ piece ∈ p.pieces, 0 < piece.length ∧ lo ≤ piece.length ∧ piece.length ≤ hi
  pending : p.pending.length < hi

variable {c}

theorem Within.step {lo hi : Nat} {p : Progress α R} (within : Within lo hi p)
    (least : ∀ n r, c.cuts n r = true → lo ≤ n) (most : ∀ n r, hi ≤ n → c.cuts n r = true)
    (a : α) : Within lo hi (c.step p a) := by
  obtain ⟨cutting, cut⟩ | ⟨keeping, kept⟩ := c.step_cases p a
  · rw [cut]
    constructor
    · intro piece present
      rw [List.mem_append, List.mem_singleton] at present
      rcases present with old | rfl
      · exact within.pieces piece old
      · have low := least _ _ cutting
        have high := within.pending
        simp only [List.length_append, List.length_singleton]
        omega
    · exact Nat.zero_lt_of_lt within.pending
  · rw [kept]
    refine ⟨within.pieces, ?_⟩
    by_contra full
    rw [List.length_append, List.length_singleton, Nat.not_lt] at full
    rw [most _ _ full] at keeping
    cases keeping

theorem feed_bounds {lo hi : Nat} (least : ∀ n r, c.cuts n r = true → lo ≤ n)
    (most : ∀ n r, hi ≤ n → c.cuts n r = true) {p : Progress α R} (within : Within lo hi p)
    (stream : List α) : Within lo hi (c.feed p stream) := by
  induction stream generalizing p with
  | nil => exact within
  | cons a rest ih => exact ih (within.step least most a)

/-- All pieces are non-empty and within the bounds, but the last may be short. -/
theorem Within.all {lo hi : Nat} {p : Progress α R} (within : Within lo hi p)
    {early late : List (List α)} {piece : List α} (split : p.all = early ++ piece :: late) :
    0 < piece.length ∧ piece.length ≤ hi ∧ (late ≠ [] → lo ≤ piece.length) := by
  have closed : ∀ q ∈ p.pieces, 0 < q.length ∧ q.length ≤ hi ∧ (late ≠ [] → lo ≤ q.length) :=
    fun q present =>
      ⟨(within.pieces q present).1, (within.pieces q present).2.2,
        fun _ => (within.pieces q present).2.1⟩
  unfold Progress.all at split
  split at split
  · apply closed
    simp [split]
  · next unfinished =>
    cases late using List.reverseRecOn with
    | nil =>
      obtain ⟨-, last⟩ := List.append_inj' split rfl
      obtain rfl : p.pending = piece := by simpa using last
      exact ⟨List.length_pos_iff.mpr unfinished, Nat.le_of_lt within.pending,
        fun more => absurd rfl more⟩
    | append_singleton late last =>
      rw [← List.cons_append, ← List.append_assoc] at split
      obtain ⟨pieces, -⟩ := List.append_inj' split rfl
      apply closed
      simp [pieces]

variable (c)

/-- Bytes without a cut yet mean a piece at hand. -/
theorem pending_ne_nil {stream : List α} (nonempty : stream ≠ [])
    (none : (c.feed c.begin stream).pieces = []) : (c.feed c.begin stream).pending ≠ [] := by
  intro empty
  have whole := c.feed_begin_flatten stream
  rw [none, empty] at whole
  exact nonempty whole.symm

end Cutter

end OneLink.Library
