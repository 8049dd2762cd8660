/-
# Replay.Window -- which sequence numbers a replay window accepts

A high-water mark and a bitmap stand for the numbers accepted so far: the mark is
the largest of them, and bit `i` tells of the number `i` below it (`Represents`).
So a call is accepted exactly by the rule on the set itself.
-/
import Mathlib.Data.List.Induction
import Mathlib.Order.Bounds.Basic
import OneLink.Library.BitWindow
import OneLink.Library.Checked

namespace OneLink.Replay

set_option autoImplicit false

open Library

/-! ## The window of the source -/

inductive Outcome where
  | acceptNew
  | acceptReorder
  | rejectReplay
  | rejectTooOld
  | rejectBadSequence
  | rejectBadTimestamp
deriving DecidableEq, Repr

structure ReplayDecision where
  accepted : Bool
  outcome : Outcome
  highWater : Option Nat
  detail : String
deriving DecidableEq, Repr

structure ReplayWindow where
  windowSize : Nat
  maxAgeMs : Nat
  maxFutureSkewMs : Nat
  positive : 0 < windowSize
  highWater : Option Nat
  bitmap : Nat
deriving DecidableEq

/-- `__init__`, on integers. -/
def ReplayWindow.new (windowSize maxAgeMs maxFutureSkewMs : Int) : Except String ReplayWindow :=
  if positive : windowSize ≤ 0 then .error "window_size must be positive"
  else if maxAgeMs < 0 then .error "max_age_ms must be non-negative"
  else if maxFutureSkewMs < 0 then .error "max_future_skew_ms must be non-negative"
  else .ok
    { windowSize := windowSize.toNat
      maxAgeMs := maxAgeMs.toNat
      maxFutureSkewMs := maxFutureSkewMs.toNat
      positive := by omega
      highWater := none
      bitmap := 0 }

namespace ReplayWindow

def mask (w : ReplayWindow) : Nat := (1 <<< w.windowSize) - 1

def reject (w : ReplayWindow) (outcome : Outcome) (detail : String) : ReplayDecision × ReplayWindow :=
  (⟨false, outcome, w.highWater, detail⟩, w)

def accept (w : ReplayWindow) (outcome : Outcome) (highWater bitmap : Nat) :
    ReplayDecision × ReplayWindow :=
  (⟨true, outcome, some highWater, ""⟩, { w with highWater := some highWater, bitmap := bitmap })

/-- `check`, behind the checks of the sequence number and the times. -/
def record (w : ReplayWindow) (seq : Nat) : ReplayDecision × ReplayWindow :=
  match w.highWater with
  | none => w.accept .acceptNew seq 1
  | some high =>
    if high < seq then
      let shift := seq - high
      let bitmap := if w.windowSize ≤ shift then 0 else (w.bitmap <<< shift) &&& w.mask
      w.accept .acceptNew seq (bitmap ||| 1)
    else
      let offset := high - seq
      if w.windowSize ≤ offset then w.reject .rejectTooOld "sequence outside replay window"
      else if w.bitmap &&& (1 <<< offset) ≠ 0 then
        w.reject .rejectReplay "sequence already seen"
      else w.accept .acceptReorder high (w.bitmap ||| (1 <<< offset))

/-- `check`, on integers. -/
def check (w : ReplayWindow) (seq nowMs tsMs : Int) : ReplayDecision × ReplayWindow :=
  if seq < 0 then w.reject .rejectBadSequence "negative or non-integer sequence"
  else if tsMs < nowMs - w.maxAgeMs then w.reject .rejectBadTimestamp "timestamp too old"
  else if nowMs + w.maxFutureSkewMs < tsMs then
    w.reject .rejectBadTimestamp "timestamp too far in future"
  else w.record seq.toNat

end ReplayWindow

/-! ## What is accepted -/

/-- The arguments of a call of `check`. -/
structure Call where
  seq : Int
  nowMs : Int
  tsMs : Int
deriving DecidableEq

/-- The window behind a sequence of calls, and the numbers accepted, the latest first. -/
def history (w : ReplayWindow) (calls : List Call) : ReplayWindow × List Nat :=
  calls.foldl (fun (w, accepted) call =>
    let (decision, w') := w.check call.seq call.nowMs call.tsMs
    (w', if decision.accepted then call.seq.toNat :: accepted else accepted)) (w, [])

/-- The rule, on the set of the numbers accepted so far. -/
structure Admits (w : ReplayWindow) (accepted : Set Nat) (call : Call) : Prop where
  natural : 0 ≤ call.seq
  young : call.nowMs - w.maxAgeMs ≤ call.tsMs
  due : call.tsMs ≤ call.nowMs + w.maxFutureSkewMs
  unseen : call.seq.toNat ∉ accepted
  near : ∀ high, IsGreatest accepted high → (high : Int) - w.windowSize < call.seq

/-- The mark is the largest of the numbers accepted, and the bitmap shows those below it. -/
structure Represents (w : ReplayWindow) (accepted : Set Nat) : Prop where
  empty : w.highWater = none → accepted = ∅
  greatest : ∀ high, w.highWater = some high → IsGreatest accepted high
  shows : ∀ high, w.highWater = some high → Shows w.windowSize high w.bitmap accepted

variable {w : ReplayWindow} {accepted : Set Nat} {seq : Nat}

theorem bit_clear_iff (bits offset : Nat) :
    bits &&& (1 <<< offset) = 0 ↔ bits.testBit offset = false := by
  rw [Nat.one_shiftLeft, Nat.and_two_pow]
  cases bits.testBit offset
  · simp
  · simp

theorem represents_new {windowSize maxAgeMs maxFutureSkewMs : Int}
    (made : ReplayWindow.new windowSize maxAgeMs maxFutureSkewMs = .ok w) : Represents w ∅ := by
  have fresh : w.highWater = none := by
    unfold ReplayWindow.new at made
    split at made
    · cases made
    · split at made
      · cases made
      · split at made
        · cases made
        · cases made
          rfl
  constructor
  · exact fun _ => rfl
  · intro high known
    rw [fresh] at known
    cases known
  · intro high known
    rw [fresh] at known
    cases known

theorem represents_accept (w : ReplayWindow) (outcome : Outcome) {high bitmap : Nat}
    (greatest : IsGreatest accepted high) (shows : Shows w.windowSize high bitmap accepted) :
    Represents (w.accept outcome high bitmap).2 accepted where
  empty absurdly := by cases absurdly
  greatest _ same := by cases same; exact greatest
  shows _ same := by cases same; exact shows

/-- **One recording.** It accepts a number that was not accepted and is not too old, and
represents the set with that number; else it leaves the window. -/
theorem record_spec (represents : Represents w accepted) (seq : Nat) :
    let admitted := seq ∉ accepted ∧
      ∀ high, IsGreatest accepted high → (high : Int) - w.windowSize < seq
    ((w.record seq).1.accepted = true ↔ admitted) ∧
      (admitted → Represents (w.record seq).2 (insert seq accepted)) ∧
      (¬ admitted → (w.record seq).2 = w) := by
  intro admitted
  unfold ReplayWindow.record
  cases known : w.highWater with
  | none =>
    obtain rfl := represents.empty known
    have yes : admitted := ⟨Set.notMem_empty _, fun high greatest => greatest.1.elim⟩
    refine ⟨iff_of_true rfl yes, fun _ => ?_, fun no => absurd yes no⟩
    rw [insert_empty_eq]
    exact represents_accept w _ isGreatest_singleton (Shows.single _ _)
  | some high =>
    have greatest := represents.greatest high known
    have shows := represents.shows high known
    have capped : ∀ s ∈ accepted, s ≤ high := fun s member => greatest.2 member
    simp only
    split
    · rename_i above
      have yes : admitted := by
        refine ⟨fun member => absurd (capped _ member) (by omega), fun other greatest' => ?_⟩
        rw [greatest'.unique greatest]
        omega
      have top : IsGreatest (insert seq accepted) seq := by
        refine ⟨Set.mem_insert _ _, ?_⟩
        rintro s (rfl | member)
        · exact le_rfl
        · exact (capped s member).trans above.le
      have slid : Shows w.windowSize seq
          (if w.windowSize ≤ seq - high then 0 else (w.bitmap <<< (seq - high)) &&& w.mask)
          accepted := by
        obtain ⟨shift, rfl⟩ := Nat.exists_eq_add_of_lt above
        rw [show high + shift + 1 - high = shift + 1 by omega, Nat.add_assoc]
        split
        · rename_i far
          exact Shows.leap capped far
        · exact shows.slide capped
      refine ⟨iff_of_true rfl yes, fun _ => represents_accept w _ top ?_, fun no => absurd yes no⟩
      exact slid.mark (Nat.zero_le _)
    · rename_i below
      split
      · rename_i old
        have no : ¬ admitted := by
          rintro ⟨-, near⟩
          have := near high greatest
          omega
        exact ⟨iff_of_false (by simp [ReplayWindow.reject]) no, fun yes => absurd yes no,
          fun _ => rfl⟩
      · rename_i near
        have seen : w.bitmap.testBit (high - seq) = true ↔ seq ∈ accepted := by
          rw [shows _ (by omega), show high - (high - seq) = seq by omega]
          exact and_iff_right (by omega)
        split
        · rename_i set
          have member : seq ∈ accepted := by
            rw [← seen, ← Bool.not_eq_false, ← bit_clear_iff]
            exact set
          have no : ¬ admitted := fun yes => yes.1 member
          exact ⟨iff_of_false (by simp [ReplayWindow.reject]) no, fun yes => absurd yes no,
            fun _ => rfl⟩
        · rename_i clear
          have unseen : seq ∉ accepted := by
            rw [← seen, Bool.not_eq_true, ← bit_clear_iff]
            exact not_not.mp clear
          have yes : admitted := by
            refine ⟨unseen, fun other greatest' => ?_⟩
            rw [greatest'.unique greatest]
            omega
          have top : IsGreatest (insert seq accepted) high := by
            refine ⟨Set.mem_insert_of_mem _ greatest.1, ?_⟩
            rintro s (rfl | member)
            · exact not_lt.mp below
            · exact capped s member
          have inside : high - seq ≤ high := Nat.sub_le _ _
          have marked := shows.mark inside
          rw [show high - (high - seq) = seq by omega] at marked
          exact ⟨iff_of_true rfl yes, fun _ => represents_accept w _ top marked,
            fun no => absurd yes no⟩

/-- **One call.** -/
theorem check_spec (represents : Represents w accepted) (call : Call) :
    ((w.check call.seq call.nowMs call.tsMs).1.accepted = true ↔ Admits w accepted call) ∧
      (Admits w accepted call → Represents (w.check call.seq call.nowMs call.tsMs).2
        (insert call.seq.toNat accepted)) ∧
      (¬ Admits w accepted call → (w.check call.seq call.nowMs call.tsMs).2 = w) := by
  have refused : ∀ outcome detail, ¬ Admits w accepted call →
      ((w.reject outcome detail).1.accepted = true ↔ Admits w accepted call) ∧
        (Admits w accepted call → Represents (w.reject outcome detail).2
          (insert call.seq.toNat accepted)) ∧
        (¬ Admits w accepted call → (w.reject outcome detail).2 = w) := by
    intro outcome detail no
    exact ⟨iff_of_false (by simp [ReplayWindow.reject]) no, fun yes => absurd yes no, fun _ => rfl⟩
  unfold ReplayWindow.check
  split
  · exact refused _ _ fun yes => absurd yes.natural (by omega)
  · split
    · exact refused _ _ fun yes => absurd yes.young (by omega)
    · split
      · exact refused _ _ fun yes => absurd yes.due (by omega)
      · rename_i natural young due
        have whole : (call.seq.toNat : Int) = call.seq := Int.toNat_of_nonneg (by omega)
        have spec := record_spec represents call.seq.toNat
        rw [whole] at spec
        have same : Admits w accepted call ↔ call.seq.toNat ∉ accepted ∧
            ∀ high, IsGreatest accepted high → (high : Int) - w.windowSize < call.seq :=
          ⟨fun yes => ⟨yes.unseen, yes.near⟩,
            fun yes => ⟨by omega, by omega, by omega, yes.1, yes.2⟩⟩
        rw [same]
        exact spec

/-! ## Runs -/

/-- The settings of a window, which no call changes. -/
def ReplayWindow.settings (w : ReplayWindow) : Nat × Nat × Nat :=
  (w.windowSize, w.maxAgeMs, w.maxFutureSkewMs)

theorem record_settings (w : ReplayWindow) (seq : Nat) :
    (w.record seq).2.settings = w.settings := by
  unfold ReplayWindow.record
  split
  · rfl
  · split
    · rfl
    · dsimp only
      split
      · rfl
      · split
        · rfl
        · rfl

theorem check_settings (w : ReplayWindow) (seq nowMs tsMs : Int) :
    (w.check seq nowMs tsMs).2.settings = w.settings := by
  unfold ReplayWindow.check
  split
  · rfl
  · split
    · rfl
    · split
      · rfl
      · exact record_settings w _

theorem Admits.of_settings {w' : ReplayWindow} {call : Call} (same : w'.settings = w.settings)
    (admits : Admits w accepted call) : Admits w' accepted call := by
  obtain ⟨size, age, skew⟩ : w'.windowSize = w.windowSize ∧ w'.maxAgeMs = w.maxAgeMs ∧
      w'.maxFutureSkewMs = w.maxFutureSkewMs := by
    simpa [ReplayWindow.settings] using same
  constructor
  · exact admits.natural
  · rw [age]
    exact admits.young
  · rw [skew]
    exact admits.due
  · exact admits.unseen
  · rw [size]
    exact admits.near

/-- Behind any calls the window represents what they had accepted. -/
theorem history_represents (represents : Represents w ∅) (calls : List Call) :
    Represents (history w calls).1 {n | n ∈ (history w calls).2} ∧
      (history w calls).1.settings = w.settings := by
  induction calls using List.reverseRecOn with
  | nil => simpa [history] using represents
  | append_singleton calls call ih =>
    obtain ⟨behind, settings⟩ := ih
    have split_last : history w (calls ++ [call]) =
        (((history w calls).1.check call.seq call.nowMs call.tsMs).2,
          if ((history w calls).1.check call.seq call.nowMs call.tsMs).1.accepted then
            call.seq.toNat :: (history w calls).2 else (history w calls).2) := by
      rw [history, List.foldl_append]
      rfl
    obtain ⟨decides, records, keeps⟩ := check_spec behind call
    rw [split_last]
    refine ⟨?_, (check_settings _ _ _ _).trans settings⟩
    by_cases admits : Admits (history w calls).1 {n | n ∈ (history w calls).2} call
    · have extended : {n | n ∈ call.seq.toNat :: (history w calls).2} =
          insert call.seq.toNat {n | n ∈ (history w calls).2} := by
        ext n
        simp
      rw [if_pos (decides.mpr admits), extended]
      exact records admits
    · rw [if_neg (fun yes => admits (decides.mp yes)), keeps admits]
      exact behind

/-- **The replay window equals its specification.**  Behind any calls on a new window, a call is
accepted exactly if its number is natural, its time within the bounds, and the number neither
accepted before nor `windowSize` below the largest accepted one; else the window is unchanged. -/
theorem window_exact {windowSize maxAgeMs maxFutureSkewMs : Int}
    (made : ReplayWindow.new windowSize maxAgeMs maxFutureSkewMs = .ok w) (calls : List Call)
    (seq nowMs tsMs : Int) :
    let behind := (history w calls).1
    let accepted := (history w calls).2
    ((behind.check seq nowMs tsMs).1.accepted = true ↔
      0 ≤ seq ∧ nowMs - maxAgeMs ≤ tsMs ∧ tsMs ≤ nowMs + maxFutureSkewMs ∧
        seq.toNat ∉ accepted ∧
        ∀ high ∈ accepted, (∀ s ∈ accepted, s ≤ high) → (high : Int) - windowSize < seq) ∧
      ((behind.check seq nowMs tsMs).1.accepted = false → (behind.check seq nowMs tsMs).2 = behind) := by
  intro behind accepted
  obtain ⟨size, age, skew⟩ : (w.windowSize : Int) = windowSize ∧ (w.maxAgeMs : Int) = maxAgeMs ∧
      (w.maxFutureSkewMs : Int) = maxFutureSkewMs := by
    unfold ReplayWindow.new at made
    split at made
    · cases made
    · split at made
      · cases made
      · split at made
        · cases made
        · cases made
          exact ⟨Int.toNat_of_nonneg (by omega), Int.toNat_of_nonneg (by omega),
            Int.toNat_of_nonneg (by omega)⟩
  obtain ⟨represents, settings⟩ := history_represents (represents_new made) calls
  obtain ⟨decides, -, keeps⟩ := check_spec represents ⟨seq, nowMs, tsMs⟩
  have rule : Admits behind {n | n ∈ accepted} ⟨seq, nowMs, tsMs⟩ ↔
      0 ≤ seq ∧ nowMs - maxAgeMs ≤ tsMs ∧ tsMs ≤ nowMs + maxFutureSkewMs ∧ seq.toNat ∉ accepted ∧
        ∀ high ∈ accepted, (∀ s ∈ accepted, s ≤ high) → (high : Int) - windowSize < seq := by
    rw [← size, ← age, ← skew]
    constructor
    · intro admits
      have admits' : Admits w {n | n ∈ accepted} ⟨seq, nowMs, tsMs⟩ :=
        admits.of_settings settings.symm
      exact ⟨admits'.natural, admits'.young, admits'.due, admits'.unseen,
        fun high member top => admits'.near high ⟨member, top⟩⟩
    · rintro ⟨natural, young, due, unseen, near⟩
      have admits : Admits w {n | n ∈ accepted} ⟨seq, nowMs, tsMs⟩ :=
        ⟨natural, young, due, unseen, fun high greatest => near high greatest.1 greatest.2⟩
      exact admits.of_settings settings
  refine ⟨decides.trans rule, fun refused => keeps fun admits => ?_⟩
  rw [decides.mpr admits] at refused
  cases refused

/-- A window of two: a jump ahead, one number behind it, and one that is too old. -/
theorem window_exact_two : ∃ w, ReplayWindow.new 2 0 0 = .ok w ∧
    ((history w [⟨5, 0, 0⟩, ⟨9, 0, 0⟩, ⟨8, 0, 0⟩]).1.check 7 0 0).1.accepted = false ∧
    ((history w [⟨5, 0, 0⟩, ⟨9, 0, 0⟩, ⟨8, 0, 0⟩]).1.check 7 0 0).2 =
      (history w [⟨5, 0, 0⟩, ⟨9, 0, 0⟩, ⟨8, 0, 0⟩]).1 := by
  have made : ReplayWindow.new 2 0 0 = .ok ⟨2, 0, 0, by decide, none, 0⟩ := rfl
  refine ⟨_, made, by decide, ?_⟩
  exact (window_exact made [⟨5, 0, 0⟩, ⟨9, 0, 0⟩, ⟨8, 0, 0⟩] 7 0 0).2 (by decide)

end OneLink.Replay
