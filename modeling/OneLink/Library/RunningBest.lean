/-
# Library.RunningBest -- a running list that keeps the least of what was collected

`Keeps k` says that whatever was collected and is not in the running list is behind `k` elements of
it.  A running list may grow, may be sorted and cut off after `k`, and may leave out an element that
is behind `k` of its own; in the end its elements are the `k` least (`Keeps.least`).
-/
import Mathlib

namespace OneLink.Library

set_option autoImplicit false

section RunningBest

variable {α β : Type} [LinearOrder β] {key : α → β} {k : Nat} {collected running : List α}

/-- How many of the list come before. -/
def ahead (key : α → β) (running : List α) (y : α) : Nat := running.countP fun x => key x < key y

variable (key k collected running) in
def Keeps : Prop := ∀ y ∈ collected, y ∉ running → k ≤ ahead key running y

theorem ahead_append (y : α) (more : List α) :
    ahead key (running ++ more) y = ahead key running y + ahead key more y :=
  List.countP_append

theorem Keeps.refl : Keeps key k running running := fun _ inside outside => absurd inside outside

theorem Keeps.append_running (keeps : Keeps key k collected running) (x : α) :
    Keeps key k collected (running ++ [x]) := by
  intro y isCollected outside
  have behind := keeps y isCollected fun inside => outside (List.mem_append_left _ inside)
  rw [ahead_append]
  omega

/-- One more is collected. -/
theorem Keeps.collect (keeps : Keeps key k collected running) {c : α}
    (kept : c ∈ running ∨ k ≤ ahead key running c) : Keeps key k (collected ++ [c]) running := by
  intro y isCollected outside
  rcases List.mem_append.1 isCollected with early | new
  · exact keeps y early outside
  · obtain rfl := List.mem_singleton.1 new
    exact kept.resolve_left outside

theorem Keeps.perm {running' : List α} (keeps : Keeps key k collected running)
    (same : running'.Perm running) : Keeps key k collected running' := by
  intro y isCollected outside
  rw [ahead, same.countP_eq]
  exact keeps y isCollected fun inside => outside (same.mem_iff.2 inside)

/-- What is not behind one of the first `k` of a sorted list has fewer than `k` ahead of it. -/
theorem ahead_lt_of_mem_take {y : α} :
    ∀ {k : Nat} {running : List α}, (running.Pairwise fun a b => key a < key b) →
      ∀ x ∈ running.take k, key y ≤ key x → ahead key running y < k := by
  intro k running
  induction running generalizing k with
  | nil =>
    intro _ x inside
    rw [List.take_nil] at inside
    cases inside
  | cons a rest ih =>
    intro sorted x inside before
    cases k with
    | zero => cases inside
    | succ k =>
      rw [List.pairwise_cons] at sorted
      rw [List.take_succ_cons] at inside
      rcases List.mem_cons.1 inside with rfl | later
      · have none : ahead key (x :: rest) y = 0 := by
          rw [ahead, List.countP_eq_zero]
          intro z isIn
          rcases List.mem_cons.1 isIn with rfl | isRest
          · simpa using before
          · simpa using le_of_lt (lt_of_le_of_lt before (sorted.1 z isRest))
        omega
      · have fewer := ih sorted.2 x later before
        have one : ahead key (a :: rest) y ≤ ahead key rest y + 1 := by
          rw [ahead, List.countP_cons]
          split
          · exact Nat.le_refl _
          · exact Nat.le_succ _
        omega

/-- A sorted running list may be cut off after `k`. -/
theorem Keeps.take (keeps : Keeps key k collected running)
    (sorted : running.Pairwise fun a b => key a < key b) : Keeps key k collected (running.take k) := by
  intro y isCollected outside
  have behind : ∀ x ∈ running.take k, key x < key y := by
    intro x inside
    by_cases isRunning : y ∈ running
    · have whole := List.take_append_drop k running
      rw [← whole] at isRunning sorted
      exact (List.pairwise_append.1 sorted).2.2 x inside
        y ((List.mem_append.1 isRunning).resolve_left outside)
    · by_contra before
      have few := ahead_lt_of_mem_take sorted x inside (not_lt.1 before)
      exact absurd (keeps y isCollected isRunning) (by omega)
  have full : k ≤ running.length := by
    by_cases isRunning : y ∈ running
    · by_contra short
      rw [List.take_of_length_le (by omega)] at outside
      exact outside isRunning
    · exact Nat.le_trans (keeps y isCollected isRunning) List.countP_le_length
  have all : ahead key (running.take k) y = (running.take k).length := by
    rw [ahead, List.countP_eq_length]
    exact fun x inside => decide_eq_true (behind x inside)
  exact Nat.le_of_eq (by rw [all, List.length_take, Nat.min_eq_left full])

/-- **The `k` least.**  Every element of a running list no longer than `k` comes before every
collected one that is not in it. -/
theorem Keeps.least (keeps : Keeps key k collected running) (short : running.length ≤ k) {x y : α}
    (inside : x ∈ running) (isCollected : y ∈ collected) (outside : y ∉ running) : key x < key y := by
  have behind := keeps y isCollected outside
  have atMost : ahead key running y ≤ running.length := List.countP_le_length
  have all : running.countP (fun x => key x < key y) = running.length := by
    rw [ahead] at behind atMost
    omega
  exact of_decide_eq_true (List.countP_eq_length.1 all x inside)

end RunningBest

end OneLink.Library
