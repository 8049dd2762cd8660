/-
# DeviceMesh.Counter — what the mesh counter counts

`PnCounter::adjust` negates a negative delta before it casts it, so the least `i64` becomes
`2^128 - 2^63`.  Every other delta is counted: a run of at most `2^60` calls counts its
deltas if and only if none of them is the least one (`counts_iff`).

`Ledger` is the invariant of one side of the counter: what it adds up to, each entry read as
a signed number, against what it was given.
-/
import OneLink.DeviceMesh.State

namespace OneLink.DeviceMesh.PnCounter

open Library

set_option autoImplicit false

/-! ## `value`, and what overflows -/

/-- The `i128` that is `x` modulo `2^128`. -/
def wrapI128 (x : Int) : Int := (x + 2 ^ 127) % 2 ^ 128 - 2 ^ 127

/-- `x as i128` -/
def asI128 (x : Nat) : Int := wrapI128 x

/-- `values().sum()` in `u128`. -/
def total (m : SortedMap DeviceId Nat) : Nat :=
  (m.items.map (·.2)).foldl (fun sum amount => (sum + amount) % 2 ^ 128) 0

def value (c : PnCounter) : Int := wrapI128 (asI128 (total c.pos) - asI128 (total c.neg))

/-- Neither the negation in `adjust` overflows nor does the addition saturate. -/
def AdjustFits (c : PnCounter) (deviceId : DeviceId) (delta : Int64) : Prop :=
  (delta > 0 → (c.pos.get? deviceId).getD 0 + asU128 delta < 2 ^ 128) ∧
  (delta < 0 → delta ≠ Int64.minValue ∧
    (c.neg.get? deviceId).getD 0 + asU128 (-delta) < 2 ^ 128)

/-- Neither the sums in `value` overflow nor the casts and the difference. -/
def ValueFits (c : PnCounter) : Prop :=
  (c.pos.items.map (·.2)).sum < 2 ^ 127 ∧ (c.neg.items.map (·.2)).sum < 2 ^ 127

/-- A counter after the calls, from the empty one. -/
def run (calls : List (DeviceId × Int64)) : PnCounter :=
  calls.foldl (fun c call => c.adjust call.1 call.2) empty

def NothingOverflows (calls : List (DeviceId × Int64)) : Prop :=
  (∀ before call after, calls = before ++ call :: after →
    (run before).AdjustFits call.1 call.2) ∧ (run calls).ValueFits

theorem run_concat (calls : List (DeviceId × Int64)) (call : DeviceId × Int64) :
    run (calls ++ [call]) = (run calls).adjust call.1 call.2 := by
  rw [run, List.foldl_append]
  rfl

theorem total_eq (m : SortedMap DeviceId Nat) : total m = (m.items.map (·.2)).sum % 2 ^ 128 := by
  have through : ∀ (amounts : List Nat) (start : Nat), start < 2 ^ 128 →
      amounts.foldl (fun sum amount => (sum + amount) % 2 ^ 128) start =
        (start + amounts.sum) % 2 ^ 128 := by
    intro amounts
    induction amounts with
    | nil =>
      intro start below
      exact (Nat.mod_eq_of_lt below).symm
    | cons amount rest ih =>
      intro start _
      rw [List.foldl_cons, ih _ (Nat.mod_lt _ (by decide)), List.sum_cons, Nat.mod_add_mod,
        Nat.add_assoc]
  rw [total, through (m.items.map (·.2)) 0 (by decide), Nat.zero_add]

/-! ## One side of the counter -/

theorem wrapI128_of_fits {x : Int} (lower : -(2 ^ 127) ≤ x) (upper : x < 2 ^ 127) :
    wrapI128 x = x := by
  unfold wrapI128
  omega

theorem wrapI128_add_wrapI128 (x y : Int) :
    wrapI128 (wrapI128 x + wrapI128 y) = wrapI128 (x + y) := by
  unfold wrapI128
  omega

theorem wrapI128_wrapI128_add (x y : Int) : wrapI128 (wrapI128 x + y) = wrapI128 (x + y) := by
  unfold wrapI128
  omega

theorem wrapI128_mod (x : Nat) : wrapI128 (x % 2 ^ 128 : Nat) = wrapI128 x := by
  unfold wrapI128
  omega

theorem asI128_small {x : Nat} (small : x < 2 ^ 127) : asI128 x = x := by
  unfold asI128 wrapI128
  omega

theorem asI128_large {x : Nat} (large : 2 ^ 127 ≤ x) (below : x < 2 ^ 128) :
    asI128 x = (x : Int) - 2 ^ 128 := by
  unfold asI128 wrapI128
  omega

/-- One side of the counter after `calls` calls that owe it `owed`; `exact` says that none of
them was the least delta, whose entries stay in the topmost `2^63` values. -/
structure Ledger (m : SortedMap DeviceId Nat) (calls : Nat) (owed : Int) (exact : Prop) : Prop where
  entry : ∀ id amount, m.get? id = some amount →
    amount ≤ 2 ^ 63 * calls ∨ (¬ exact ∧ 2 ^ 128 - 2 ^ 63 ≤ amount ∧ amount < 2 ^ 128)
  devices : m.items.length ≤ calls
  most : owed ≤ 2 ^ 63 * calls
  counted : m.sumOf asI128 ≤ owed
  exactly : m.sumOf asI128 = owed ↔ exact

namespace Ledger

variable {m : SortedMap DeviceId Nat} {calls : Nat} {owed : Int} {exact : Prop}

theorem empty : Ledger .empty 0 0 True where
  entry := by
    intro id amount found
    cases found
  devices := Nat.le_refl 0
  most := by simp
  counted := by simp [SortedMap.sumOf, SortedMap.empty]
  exactly := by simp [SortedMap.sumOf, SortedMap.empty]

theorem idle (ledger : Ledger m calls owed exact) : Ledger m (calls + 1) owed exact where
  entry := by
    intro id amount found
    rcases ledger.entry id amount found with small | large
    · exact .inl (by omega)
    · exact .inr large
  devices := Nat.le_succ_of_le ledger.devices
  most := by
    have := ledger.most
    omega
  counted := ledger.counted
  exactly := ledger.exactly

theorem getD_map {f : Nat → Int} (zero : f 0 = 0) (entry : Option Nat) :
    (entry.map f).getD 0 = f (entry.getD 0) := by
  cases entry with
  | none => exact zero.symm
  | some amount => rfl

theorem sumOf_accumulate (m : SortedMap DeviceId Nat) (id : DeviceId) (amount : Nat) :
    (accumulate m id amount).sumOf asI128 =
      m.sumOf asI128 - asI128 ((m.get? id).getD 0) +
        asI128 (saturatingAdd ((m.get? id).getD 0) amount) := by
  have zero : asI128 0 = 0 := asI128_small (by omega)
  rw [← getD_map zero]
  exact SortedMap.sumOf_alter asI128 m id fun old => saturatingAdd (old.getD 0) amount

/-- The entry of a device, zero where there is none. -/
theorem entry_getD (ledger : Ledger m calls owed exact) (id : DeviceId) :
    (m.get? id).getD 0 ≤ 2 ^ 63 * calls ∨
      (¬ exact ∧ 2 ^ 128 - 2 ^ 63 ≤ (m.get? id).getD 0 ∧ (m.get? id).getD 0 < 2 ^ 128) := by
  cases found : m.get? id with
  | none => exact .inl (Nat.zero_le _)
  | some amount => exact ledger.entry id amount found

theorem entry_accumulate (ledger : Ledger m calls owed exact) (id : DeviceId) (amount : Nat)
    {exact' : Prop} (weaker : exact' → exact)
    (here : saturatingAdd ((m.get? id).getD 0) amount ≤ 2 ^ 63 * (calls + 1) ∨
      (¬ exact' ∧ 2 ^ 128 - 2 ^ 63 ≤ saturatingAdd ((m.get? id).getD 0) amount)) :
    ∀ id' amount', (accumulate m id amount).get? id' = some amount' →
      amount' ≤ 2 ^ 63 * (calls + 1) ∨
        (¬ exact' ∧ 2 ^ 128 - 2 ^ 63 ≤ amount' ∧ amount' < 2 ^ 128) := by
  intro id' amount' found
  rw [accumulate, SortedMap.get?_alter] at found
  split at found
  · cases found
    rcases here with small | ⟨inexact, large⟩
    · exact .inl small
    · refine .inr ⟨inexact, large, ?_⟩
      unfold saturatingAdd
      omega
  · rcases ledger.idle.entry id' amount' found with small | ⟨inexact, large⟩
    · exact .inl small
    · exact .inr ⟨fun holds => inexact (weaker holds), large⟩

/-- Any delta but the least is counted, as long as the counts of its device are. -/
theorem push (ledger : Ledger m calls owed exact) (few : calls < 2 ^ 60) (id : DeviceId)
    {amount : Nat} (small : amount < 2 ^ 63) :
    Ledger (accumulate m id amount) (calls + 1) (owed + amount) exact := by
  have counted := ledger.counted
  have exactly := ledger.exactly
  have most := ledger.most
  have gained := sumOf_accumulate m id amount
  rcases ledger.entry_getD id with within | ⟨inexact, large, below⟩
  · have sum : saturatingAdd ((m.get? id).getD 0) amount = (m.get? id).getD 0 + amount := by
      unfold saturatingAdd
      omega
    rw [sum, asI128_small (by omega), asI128_small (by omega)] at gained
    exact {
      entry := ledger.entry_accumulate id amount (fun holds => holds) (.inl (by omega))
      devices := (SortedMap.length_alter_le ..).trans (Nat.succ_le_succ ledger.devices)
      most := by omega
      counted := by omega
      exactly := by
        rw [← exactly]
        omega }
  · -- the entry is one that the least delta left behind
    have grown : saturatingAdd ((m.get? id).getD 0) amount ≤ (m.get? id).getD 0 + amount :=
      Nat.min_le_left _ _
    have stays : (m.get? id).getD 0 ≤ saturatingAdd ((m.get? id).getD 0) amount := by
      unfold saturatingAdd
      omega
    have bounded : saturatingAdd ((m.get? id).getD 0) amount < 2 ^ 128 := by
      unfold saturatingAdd
      omega
    rw [asI128_large (by omega) below, asI128_large (by omega) bounded] at gained
    have missing : m.sumOf asI128 ≠ owed := fun same => inexact (exactly.mp same)
    exact {
      entry := ledger.entry_accumulate id amount (fun holds => holds)
        (.inr ⟨inexact, by omega⟩)
      devices := (SortedMap.length_alter_le ..).trans (Nat.succ_le_succ ledger.devices)
      most := by omega
      counted := by omega
      exactly := ⟨fun same => absurd same (by omega), fun holds => absurd holds inexact⟩ }

/-- The least delta owes `2^63`, and takes at least one away. -/
theorem push_least (ledger : Ledger m calls owed exact) (few : calls < 2 ^ 60) (id : DeviceId) :
    Ledger (accumulate m id (2 ^ 128 - 2 ^ 63)) (calls + 1) (owed + 2 ^ 63) False := by
  have counted := ledger.counted
  have most := ledger.most
  have gained := sumOf_accumulate m id (2 ^ 128 - 2 ^ 63)
  have bounded : saturatingAdd ((m.get? id).getD 0) (2 ^ 128 - 2 ^ 63) < 2 ^ 128 := by
    unfold saturatingAdd
    omega
  have large : 2 ^ 128 - 2 ^ 63 ≤ saturatingAdd ((m.get? id).getD 0) (2 ^ 128 - 2 ^ 63) := by
    unfold saturatingAdd
    omega
  rw [asI128_large (by omega) bounded] at gained
  have lost : m.sumOf asI128 - asI128 ((m.get? id).getD 0) ≤ owed + 2 ^ 63 := by
    rcases ledger.entry_getD id with within | ⟨_, above, below⟩
    · rw [asI128_small (by omega)]
      omega
    · rw [asI128_large (by omega) below]
      omega
  exact {
    entry := ledger.entry_accumulate id _ False.elim (.inr ⟨fun holds => holds, large⟩)
    devices := (SortedMap.length_alter_le ..).trans (Nat.succ_le_succ ledger.devices)
    most := by omega
    counted := by omega
    exactly := ⟨fun same => by omega, False.elim⟩ }

theorem sumOf_lower (ledger : Ledger m calls owed exact) (few : calls ≤ 2 ^ 60) :
    -(2 ^ 123) ≤ m.sumOf asI128 := by
  have each : ∀ entry ∈ m.items, -(2 ^ 63) ≤ asI128 entry.2 := by
    intro entry member
    rcases ledger.entry entry.1 entry.2 (SortedMap.get?_of_mem member) with small | ⟨_, above, below⟩
    · rw [asI128_small (by omega)]
      omega
    · rw [asI128_large (by omega) below]
      omega
  have sum := SortedMap.sumOf_ge each
  have devices := ledger.devices
  omega

theorem wrapI128_sum (amounts : List Nat) :
    wrapI128 (amounts.sum : Nat) = wrapI128 (amounts.map asI128).sum := by
  induction amounts with
  | nil => simp only [List.map_nil, List.sum_nil, Nat.cast_zero]
  | cons amount rest ih =>
    rw [List.map_cons, List.sum_cons, List.sum_cons, Nat.cast_add, ← wrapI128_add_wrapI128, ih,
      wrapI128_add_wrapI128, asI128, wrapI128_wrapI128_add]

/-- What `value` reads off a side. -/
theorem asI128_total (ledger : Ledger m calls owed exact) (few : calls ≤ 2 ^ 60) :
    asI128 (total m) = m.sumOf asI128 := by
  have lower := ledger.sumOf_lower few
  have upper := ledger.counted
  have most := ledger.most
  have fits : wrapI128 (m.sumOf asI128) = m.sumOf asI128 := by
    apply wrapI128_of_fits <;> omega
  rw [total_eq, asI128, wrapI128_mod, wrapI128_sum, ← SortedMap.sumOf_eq, fits]

end Ledger

/-! ## Runs -/

/-- The sum of the positive deltas. -/
def gained (calls : List (DeviceId × Int64)) : Int := (calls.map fun call => max call.2.toInt 0).sum

/-- The sum of the negative deltas, without their signs. -/
def lost (calls : List (DeviceId × Int64)) : Int := (calls.map fun call => max (-call.2.toInt) 0).sum

def Negatable (calls : List (DeviceId × Int64)) : Prop := ∀ call ∈ calls, call.2 ≠ Int64.minValue

theorem gained_sub_lost (calls : List (DeviceId × Int64)) :
    gained calls - lost calls = (calls.map (·.2.toInt)).sum := by
  induction calls with
  | nil => rfl
  | cons call rest ih =>
    simp only [gained, lost, List.map_cons, List.sum_cons] at ih ⊢
    omega

theorem toInt_bounds (delta : Int64) : -(2 ^ 63) ≤ delta.toInt ∧ delta.toInt < 2 ^ 63 :=
  ⟨Int64.le_toInt delta, Int64.toInt_lt delta⟩

theorem asU128_of_pos {delta : Int64} (positive : delta > 0) :
    (asU128 delta : Int) = delta.toInt ∧ asU128 delta < 2 ^ 63 := by
  have sign : 0 < delta.toInt := Int64.lt_iff_toInt_lt.mp positive
  have bounds := toInt_bounds delta
  unfold asU128
  omega

theorem toInt_least : Int64.minValue.toInt = -(2 ^ 63) := by decide

theorem asU128_neg {delta : Int64} (negative : delta.toInt < 0) (negatable : delta ≠ Int64.minValue) :
    (asU128 (-delta) : Int) = -delta.toInt ∧ asU128 (-delta) < 2 ^ 63 := by
  have bounds := toInt_bounds delta
  have inside : delta.toInt ≠ -(2 ^ 63) := by
    intro least
    exact negatable (Int64.toInt_inj.mp (least.trans toInt_least.symm))
  have negated : (-delta).toInt = -delta.toInt := by
    rw [Int64.toInt_neg, Int.bmod_eq_of_le] <;> omega
  unfold asU128
  omega

theorem asU128_least : asU128 (-Int64.minValue) = 2 ^ 128 - 2 ^ 63 := by decide

/-- Both sides after a run. -/
theorem ledgers_run (calls : List (DeviceId × Int64)) (few : calls.length ≤ 2 ^ 60) :
    Ledger (run calls).pos calls.length (gained calls) True ∧
      Ledger (run calls).neg calls.length (lost calls) (Negatable calls) := by
  induction calls using List.reverseRecOn with
  | nil =>
    refine ⟨Ledger.empty, ?_⟩
    have nothing : Negatable [] = True := eq_true fun call member => absurd member List.not_mem_nil
    rw [nothing]
    exact Ledger.empty
  | append_singleton earlier call ih =>
    rw [List.length_append, List.length_singleton] at few ⊢
    obtain ⟨pos, neg⟩ := ih (by omega)
    have gains : gained (earlier ++ [call]) = gained earlier + max call.2.toInt 0 := by
      simp [gained]
    have losses : lost (earlier ++ [call]) = lost earlier + max (-call.2.toInt) 0 := by
      simp [lost]
    have negatable : Negatable (earlier ++ [call]) ↔
        Negatable earlier ∧ call.2 ≠ Int64.minValue := by
      simp [Negatable, or_imp, forall_and]
    rw [run_concat, gains, losses, adjust]
    split
    · next zero =>
      have sign : call.2.toInt = 0 := by
        rw [zero]
        rfl
      have inside : call.2 ≠ Int64.minValue := by
        rw [zero]
        decide
      rw [sign, negatable, and_iff_left inside, Int.neg_zero, max_self, Int.add_zero, Int.add_zero]
      exact ⟨pos.idle, neg.idle⟩
    · split
      · next positive =>
        obtain ⟨amount, small⟩ := asU128_of_pos positive
        have sign : 0 < call.2.toInt := Int64.lt_iff_toInt_lt.mp positive
        have inside : call.2 ≠ Int64.minValue := by
          intro least
          rw [least, toInt_least] at sign
          omega
        have gain : max call.2.toInt 0 = asU128 call.2 := by omega
        have loss : max (-call.2.toInt) 0 = 0 := by omega
        rw [gain, loss, Int.add_zero, negatable, and_iff_left inside]
        exact ⟨pos.push (by omega) call.1 small, neg.idle⟩
      · next notZero notPositive =>
        have sign : call.2.toInt < 0 := by
          have notAbove : ¬ 0 < call.2.toInt := fun above =>
            notPositive (Int64.lt_iff_toInt_lt.mpr above)
          have apart : call.2.toInt ≠ 0 := fun same => notZero (Int64.toInt_inj.mp same)
          omega
        have gain : max call.2.toInt 0 = 0 := by omega
        rw [gain, Int.add_zero, negatable]
        by_cases least : call.2 = Int64.minValue
        · have loss : max (-call.2.toInt) 0 = 2 ^ 63 := by
            rw [least, toInt_least]
            rfl
          have never : (Negatable earlier ∧ call.2 ≠ Int64.minValue) = False :=
            eq_false fun both => both.2 least
          rw [loss, never, least, asU128_least]
          exact ⟨pos.idle, neg.push_least (by omega) call.1⟩
        · obtain ⟨amount, small⟩ := asU128_neg sign least
          have loss : max (-call.2.toInt) 0 = asU128 (-call.2) := by omega
          rw [loss, and_iff_left least]
          exact ⟨pos.idle, neg.push (by omega) call.1 small⟩

theorem value_run (calls : List (DeviceId × Int64)) (few : calls.length ≤ 2 ^ 60) :
    (run calls).value = (run calls).pos.sumOf asI128 - (run calls).neg.sumOf asI128 := by
  obtain ⟨pos, neg⟩ := ledgers_run calls few
  have bounds := pos.sumOf_lower few
  have bounds' := neg.sumOf_lower few
  have counted := pos.counted
  have counted' := neg.counted
  have most := pos.most
  have most' := neg.most
  rw [value, pos.asI128_total few, neg.asI128_total few]
  apply wrapI128_of_fits <;> omega

/-- The value is the sum of the deltas, and nothing more, without the least one. -/
theorem value_eq_iff (calls : List (DeviceId × Int64)) (few : calls.length ≤ 2 ^ 60) :
    (run calls).value = (calls.map (·.2.toInt)).sum ↔ Negatable calls := by
  obtain ⟨pos, neg⟩ := ledgers_run calls few
  have gains := pos.exactly.mpr trivial
  rw [value_run calls few, ← gained_sub_lost, gains, ← neg.exactly]
  omega

/-! ## What overflows -/

theorem Ledger.sum_eq {m : SortedMap DeviceId Nat} {calls : Nat} {owed : Int}
    (ledger : Ledger m calls owed True) (few : calls ≤ 2 ^ 60) :
    ((m.items.map (·.2)).sum : Nat) = m.sumOf asI128 := by
  have small : ∀ entry ∈ m.items, entry.2 < 2 ^ 127 := by
    intro entry member
    rcases ledger.entry entry.1 entry.2 (SortedMap.get?_of_mem member) with below | ⟨never, _⟩
    · omega
    · exact absurd trivial never
  have through : ∀ amounts : List Nat, (∀ amount ∈ amounts, amount < 2 ^ 127) →
      (amounts.sum : Nat) = (amounts.map asI128).sum := by
    intro amounts bound
    induction amounts with
    | nil => simp only [List.map_nil, List.sum_nil, Nat.cast_zero]
    | cons amount rest ih =>
      rw [List.map_cons, List.sum_cons, List.sum_cons, Nat.cast_add,
        ih fun a member => bound a (List.mem_cons_of_mem _ member),
        asI128_small (bound amount List.mem_cons_self)]
  rw [SortedMap.sumOf_eq]
  exact through _ (List.forall_mem_map.mpr small)

theorem Ledger.fits {m : SortedMap DeviceId Nat} {calls : Nat} {owed : Int}
    (ledger : Ledger m calls owed True) (few : calls ≤ 2 ^ 60) (id : DeviceId) {amount : Nat}
    (small : amount < 2 ^ 63) : (m.get? id).getD 0 + amount < 2 ^ 128 := by
  rcases ledger.entry_getD id with within | ⟨never, _⟩
  · omega
  · exact absurd trivial never

theorem nothingOverflows_of_negatable {calls : List (DeviceId × Int64)}
    (few : calls.length ≤ 2 ^ 60) (negatable : Negatable calls) : NothingOverflows calls := by
  refine ⟨?_, ?_⟩
  · intro before call after same
    have fewer : before.length ≤ 2 ^ 60 := by
      rw [same, List.length_append] at few
      omega
    have earlier : Negatable before := fun call member => negatable call (by simp [same, member])
    have here : call.2 ≠ Int64.minValue := negatable call (by simp [same])
    obtain ⟨pos, neg⟩ := ledgers_run before fewer
    rw [eq_true earlier] at neg
    constructor
    · intro positive
      exact pos.fits fewer call.1 (asU128_of_pos positive).2
    · intro negative
      have sign : call.2.toInt < 0 := Int64.lt_iff_toInt_lt.mp negative
      exact ⟨here, neg.fits fewer call.1 (asU128_neg sign here).2⟩
  · obtain ⟨pos, neg⟩ := ledgers_run calls few
    rw [eq_true negatable] at neg
    have gains := pos.sum_eq few
    have losses := neg.sum_eq few
    have counted := pos.counted
    have counted' := neg.counted
    have most := pos.most
    have most' := neg.most
    constructor <;> omega

/-- **The mesh counter counts every delta but the least `i64`.**  After at most `2^60` calls of
`adjust`, the value is the exact sum of the deltas and no step overflowed if and only if no
delta was the least `i64`, which has no negation. -/
theorem counts_iff (calls : List (DeviceId × Int64)) (few : calls.length ≤ 2 ^ 60) :
    ((run calls).value = (calls.map (·.2.toInt)).sum ∧ NothingOverflows calls) ↔
      ∀ call ∈ calls, call.2 ≠ Int64.minValue := by
  constructor
  · rintro ⟨counted, _⟩
    exact (value_eq_iff calls few).mp counted
  · intro negatable
    exact ⟨(value_eq_iff calls few).mpr negatable, nothingOverflows_of_negatable few negatable⟩

/-- One device, three deltas. -/
theorem counts_iff_three :
    (run [(⟨List.replicate 16 1, rfl⟩, 5), (⟨List.replicate 16 2, rfl⟩, -7),
        (⟨List.replicate 16 1, rfl⟩, Int64.maxValue)]).value = 2 ^ 63 - 3 := by
  have counted := ((counts_iff [(⟨List.replicate 16 1, rfl⟩, 5), (⟨List.replicate 16 2, rfl⟩, -7),
    (⟨List.replicate 16 1, rfl⟩, Int64.maxValue)] (by decide)).mpr (by decide)).1
  exact counted.trans (by decide)

/-- The least delta makes the counter rise. -/
theorem least_delta_miscounted :
    ¬ ∀ calls : List (DeviceId × Int64), calls.length ≤ 2 ^ 60 →
      (run calls).value = (calls.map (·.2.toInt)).sum ∧ NothingOverflows calls := by
  intro counts
  have counted := (counts [(⟨List.replicate 16 1, rfl⟩, Int64.minValue)] (by decide)).1
  exact absurd counted (by decide)

end OneLink.DeviceMesh.PnCounter
