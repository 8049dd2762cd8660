/-
# Crdt.VectorClock — causal clocks keyed by node

`crdt.py`: a `VectorClock` is a sorted tuple of `(node, counter)` pairs with
positive counters, so that equal clocks are equal tuples.  Both facts are fields
of the structure.

A clock is read through `get`, which is 0 off the tuple; two clocks with the same
readings are equal (`VectorClock.ext_get`), `happens_before` is the strict
pointwise order (`happensBefore_iff`) and `merge` is its join
(`instSemilatticeSup`).
-/
import OneLink.Library.OrderedDict
import Mathlib.Data.List.Sort
import Mathlib.Data.String.Basic
import Mathlib.Order.Lattice

namespace OneLink.Crdt

open Library

set_option autoImplicit false

structure VectorClock where
  entries : List (String × Nat)
  sorted : entries.Pairwise fun a b => a.1 < b.1
  positive : ∀ entry ∈ entries, 0 < entry.2

namespace VectorClock

/-- `dict(self.entries)`. -/
def toDict (c : VectorClock) : OrderedDict String Nat :=
  ⟨c.entries, by
    rw [List.Nodup, List.pairwise_map]
    exact c.sorted.imp ne_of_lt⟩

/-- `VectorClock(entries=tuple(sorted(d.items())))`: keys are distinct, so the
pairs sort by key. -/
def ofDict (d : OrderedDict String Nat) (positive : ∀ entry ∈ d.items, 0 < entry.2) :
    VectorClock where
  entries := d.items.insertionSort fun a b => a.1 ≤ b.1
  sorted := by
    have : Std.Total fun a b : String × Nat => a.1 ≤ b.1 := ⟨fun _ _ => le_total _ _⟩
    have : IsTrans (String × Nat) fun a b => a.1 ≤ b.1 := ⟨fun _ _ _ => le_trans⟩
    have ordered := List.pairwise_insertionSort (fun a b : String × Nat => a.1 ≤ b.1) d.items
    have distinct : (d.items.insertionSort fun a b => a.1 ≤ b.1).Pairwise
        fun a b => a.1 ≠ b.1 := by
      have nodup := d.nodup
      rw [← ((List.perm_insertionSort (fun a b : String × Nat => a.1 ≤ b.1) d.items).map
        Prod.fst).nodup_iff, List.Nodup, List.pairwise_map] at nodup
      exact nodup
    exact (ordered.and distinct).imp fun both => lt_of_le_of_ne both.1 both.2
  positive := by
    intro entry member
    exact positive entry ((List.mem_insertionSort _).mp member)

def empty : VectorClock := ⟨[], .nil, by simp⟩

def get (c : VectorClock) (node : String) : Nat := (c.toDict.get? node).getD 0

theorem mem_items_set {d : OrderedDict String Nat} {k : String} {v : Nat} {entry : String × Nat}
    (member : entry ∈ (d.set k v).items) : entry = (k, v) ∨ entry ∈ d.items := by
  obtain ⟨k', v'⟩ := entry
  rw [← OrderedDict.get?_eq_some_iff, OrderedDict.get?_set] at member
  split at member
  · rename_i same
    left
    rw [same, Option.some.inj member]
  · exact .inr ((OrderedDict.get?_eq_some_iff _).mp member)

def increment (c : VectorClock) (node : String) : VectorClock :=
  ofDict (c.toDict.set node (c.get node + 1)) fun entry member => by
    rcases mem_items_set member with rfl | old
    · exact Nat.succ_pos _
    · exact c.positive entry old

/-- The loop of `merge`: raise each entry of `d` to the other clock's. -/
def raise (d : OrderedDict String Nat) (entries : List (String × Nat)) : OrderedDict String Nat :=
  entries.foldl (fun d e => d.set e.1 (max ((d.get? e.1).getD 0) e.2)) d

theorem raise_positive {d : OrderedDict String Nat} {entries : List (String × Nat)}
    (hd : ∀ entry ∈ d.items, 0 < entry.2) (he : ∀ entry ∈ entries, 0 < entry.2) :
    ∀ entry ∈ (raise d entries).items, 0 < entry.2 := by
  induction entries generalizing d with
  | nil => exact hd
  | cons e rest ih =>
    apply ih _ (fun entry member => he entry (List.mem_cons_of_mem _ member))
    intro entry member
    rcases mem_items_set member with rfl | old
    · exact lt_max_of_lt_right (he e List.mem_cons_self)
    · exact hd entry old

/-- Pointwise max. -/
def merge (a b : VectorClock) : VectorClock :=
  ofDict (raise a.toDict b.entries) (raise_positive a.positive b.positive)

def happensBefore (a b : VectorClock) : Bool :=
  let allNodes := a.toDict.keys ++ b.toDict.keys
  allNodes.all (fun n => a.get n ≤ b.get n) && allNodes.any fun n => a.get n < b.get n

instance : DecidableEq VectorClock := fun a b =>
  decidable_of_iff (a.entries = b.entries) (by cases a; cases b; simp)

def concurrentWith (a b : VectorClock) : Bool :=
  !a.happensBefore b && !b.happensBefore a && a ≠ b

/-! ## Reading a clock -/

theorem get?_ofDict (d : OrderedDict String Nat) (positive : ∀ entry ∈ d.items, 0 < entry.2)
    (node : String) : (ofDict d positive).toDict.get? node = d.get? node := by
  have same : ∀ v, (ofDict d positive).toDict.get? node = some v ↔ d.get? node = some v := by
    intro v
    rw [OrderedDict.get?_eq_some_iff, OrderedDict.get?_eq_some_iff]
    exact List.mem_insertionSort _
  exact Option.ext same

@[simp] theorem get_ofDict (d : OrderedDict String Nat)
    (positive : ∀ entry ∈ d.items, 0 < entry.2) (node : String) :
    (ofDict d positive).get node = (d.get? node).getD 0 := by
  rw [get, get?_ofDict]

@[simp] theorem get_empty (node : String) : empty.get node = 0 := rfl

theorem get_increment (c : VectorClock) (node n : String) :
    (c.increment node).get n = if node = n then c.get n + 1 else c.get n := by
  rw [increment, get_ofDict, OrderedDict.get?_set]
  split
  · rename_i same
    rw [same]
    rfl
  · rfl

@[simp] theorem get_increment_self (c : VectorClock) (node : String) :
    (c.increment node).get node = c.get node + 1 := by
  rw [get_increment, if_pos rfl]

theorem get?_raise (d : OrderedDict String Nat) {entries : List (String × Nat)}
    (nodup : (entries.map Prod.fst).Nodup) (node : String) :
    ((raise d entries).get? node).getD 0 =
      max ((d.get? node).getD 0) ((OrderedDict.lookup node entries).getD 0) := by
  induction entries generalizing d with
  | nil => simp [raise, OrderedDict.lookup]
  | cons e rest ih =>
    obtain ⟨k, v⟩ := e
    rw [List.map_cons, List.nodup_cons] at nodup
    rw [raise, List.foldl_cons, ← raise, ih _ nodup.2, OrderedDict.get?_set, OrderedDict.lookup]
    by_cases here : k = node
    · subst here
      have absent : OrderedDict.lookup k rest = none := by
        rw [Option.eq_none_iff_forall_ne_some]
        intro v' found
        exact nodup.1 (List.mem_map.mpr ⟨(k, v'),
          (OrderedDict.lookup_eq_some_iff nodup.2).mp found, rfl⟩)
      simp [absent]
    · simp [here]

theorem get_merge (a b : VectorClock) (node : String) :
    (a.merge b).get node = max (a.get node) (b.get node) := by
  rw [merge, get_ofDict]
  exact get?_raise a.toDict b.toDict.nodup node

/-- A pair of the tuple is a nonzero reading. -/
theorem mem_entries_iff (c : VectorClock) {node : String} {v : Nat} :
    (node, v) ∈ c.entries ↔ 0 < v ∧ c.get node = v := by
  have found : (node, v) ∈ c.entries ↔ c.toDict.get? node = some v :=
    ((OrderedDict.get?_eq_some_iff c.toDict).symm)
  constructor
  · intro member
    exact ⟨c.positive _ member, by rw [get, found.mp member]; rfl⟩
  · rintro ⟨positive, reading⟩
    rw [found]
    rw [get] at reading
    cases entry : c.toDict.get? node with
    | none =>
      rw [entry] at reading
      simp at reading
      omega
    | some v' =>
      rw [entry] at reading
      rw [← reading]
      rfl

/-- **A clock is its readings.** -/
theorem ext_get {a b : VectorClock} (same : ∀ n, a.get n = b.get n) : a = b := by
  have mem : ∀ entry, entry ∈ a.entries ↔ entry ∈ b.entries := by
    rintro ⟨node, v⟩
    rw [mem_entries_iff, mem_entries_iff, same]
  have nodupA : a.entries.Nodup := a.sorted.imp fun lt same => (ne_of_lt lt) (congrArg Prod.fst same)
  have nodupB : b.entries.Nodup := b.sorted.imp fun lt same => (ne_of_lt lt) (congrArg Prod.fst same)
  have entries : a.entries = b.entries := by
    apply List.Perm.eq_of_pairwise _ a.sorted b.sorted
      ((List.perm_ext_iff_of_nodup nodupA nodupB).mpr mem)
    intro x y _ _ lt gt
    exact absurd lt (lt_asymm gt)
  cases a
  cases b
  simpa using entries

/-! ## The order -/

instance : PartialOrder VectorClock where
  le a b := ∀ n, a.get n ≤ b.get n
  le_refl _ _ := le_rfl
  le_trans _ _ _ ab bc n := (ab n).trans (bc n)
  le_antisymm _ _ ab ba := ext_get fun n => le_antisymm (ab n) (ba n)

theorem le_iff {a b : VectorClock} : a ≤ b ↔ ∀ n, a.get n ≤ b.get n := Iff.rfl

instance instSemilatticeSup : SemilatticeSup VectorClock where
  sup := merge
  le_sup_left a b n := by
    rw [get_merge]
    exact le_max_left _ _
  le_sup_right a b n := by
    rw [get_merge]
    exact le_max_right _ _
  sup_le a b c ac bc n := by
    rw [get_merge]
    exact max_le (ac n) (bc n)

theorem merge_eq_sup (a b : VectorClock) : a.merge b = a ⊔ b := rfl

theorem lt_iff {a b : VectorClock} :
    a < b ↔ (∀ n, a.get n ≤ b.get n) ∧ ∃ n, a.get n < b.get n := by
  rw [lt_iff_le_not_ge, le_iff, le_iff, not_forall]
  simp only [not_le]

theorem get_of_not_mem_keys {c : VectorClock} {n : String} (absent : n ∉ c.toDict.keys) :
    c.get n = 0 := by
  rw [get, (OrderedDict.not_mem_keys_iff _).mp absent]
  rfl

/-- `happens_before` is the strict pointwise order. -/
theorem happensBefore_iff {a b : VectorClock} : a.happensBefore b = true ↔ a < b := by
  rw [lt_iff]
  simp only [happensBefore, Bool.and_eq_true, List.all_eq_true, List.any_eq_true, List.mem_append,
    decide_eq_true_eq]
  refine and_congr ⟨fun all n => ?_, fun all n _ => all n⟩ ⟨?_, ?_⟩
  · by_cases inA : n ∈ a.toDict.keys
    · exact all n (.inl inA)
    · rw [get_of_not_mem_keys inA]
      exact Nat.zero_le _
  · rintro ⟨n, -, lt⟩
    exact ⟨n, lt⟩
  · rintro ⟨n, lt⟩
    refine ⟨n, .inr ?_, lt⟩
    by_contra absent
    rw [get_of_not_mem_keys absent] at lt
    omega

theorem concurrentWith_iff {a b : VectorClock} :
    a.concurrentWith b = true ↔ ¬ a ≤ b ∧ ¬ b ≤ a := by
  simp only [concurrentWith, Bool.and_eq_true, Bool.not_eq_true', ← Bool.not_eq_true,
    happensBefore_iff, decide_eq_true_eq]
  constructor
  · rintro ⟨⟨notLt, notGt⟩, ne⟩
    exact ⟨fun le => notLt (lt_of_le_of_ne le ne), fun ge => notGt (lt_of_le_of_ne ge (Ne.symm ne))⟩
  · rintro ⟨nle, nge⟩
    exact ⟨⟨fun lt => nle lt.le, fun gt => nge gt.le⟩, fun same => nle same.le⟩

theorem lt_increment (c : VectorClock) (node : String) : c < c.increment node := by
  rw [lt_iff]
  refine ⟨fun n => ?_, node, by simp⟩
  rw [get_increment]
  split <;> omega

end VectorClock

end OneLink.Crdt
