/-
# Library.OrderedDict — a dictionary that remembers insertion order

Assigning to a present key keeps its place; assigning to a new key appends it;
`erase` removes a key and `popFirst` the oldest one.  Keys are distinct by the
structure's own field, so a dictionary is determined by the order of its keys
and by `get?` (`ext_get?`).
-/
import Mathlib.Data.List.Nodup

namespace OneLink.Library

set_option autoImplicit false

structure OrderedDict (K V : Type) where
  items : List (K × V)
  nodup : (items.map Prod.fst).Nodup

namespace OrderedDict

variable {K V : Type}

def keys (d : OrderedDict K V) : List K := d.items.map Prod.fst

def values (d : OrderedDict K V) : List V := d.items.map Prod.snd

def size (d : OrderedDict K V) : Nat := d.items.length

def empty : OrderedDict K V := ⟨[], List.nodup_nil⟩

instance : Inhabited (OrderedDict K V) := ⟨empty⟩

instance [DecidableEq K] [DecidableEq V] : DecidableEq (OrderedDict K V) := fun d e =>
  decidable_of_iff (d.items = e.items) (by cases d; cases e; simp)

theorem nodup_keys (d : OrderedDict K V) : d.keys.Nodup := d.nodup

@[simp] theorem keys_empty : (empty : OrderedDict K V).keys = [] := rfl

@[simp] theorem size_empty : (empty : OrderedDict K V).size = 0 := rfl

theorem length_keys (d : OrderedDict K V) : d.keys.length = d.size := by
  simp [keys, size]

/-- Remove the `n` oldest entries. -/
def dropFirst (n : Nat) (d : OrderedDict K V) : OrderedDict K V :=
  ⟨d.items.drop n, by
    rw [List.map_drop]
    exact d.nodup.sublist (List.drop_sublist _ _)⟩

variable [DecidableEq K]

def lookup (k : K) : List (K × V) → Option V
  | [] => none
  | (k', v) :: rest => if k' = k then some v else lookup k rest

def assign (k : K) (v : V) : List (K × V) → List (K × V)
  | [] => [(k, v)]
  | (k', v') :: rest => if k' = k then (k, v) :: rest else (k', v') :: assign k v rest

theorem keys_assign (k : K) (v : V) (items : List (K × V)) :
    (assign k v items).map Prod.fst =
      if k ∈ items.map Prod.fst then items.map Prod.fst else items.map Prod.fst ++ [k] := by
  induction items with
  | nil => simp [assign]
  | cons entry rest ih =>
    obtain ⟨k', v'⟩ := entry
    by_cases here : k' = k
    · simp [assign, here]
    · have there : k ∈ k' :: rest.map Prod.fst ↔ k ∈ rest.map Prod.fst := by
        simp [Ne.symm here]
      simp only [assign, here, if_false, List.map_cons, ih, there]
      split <;> simp

theorem assign_of_not_mem {k : K} (v : V) {items : List (K × V)}
    (absent : k ∉ items.map Prod.fst) : assign k v items = items ++ [(k, v)] := by
  induction items with
  | nil => rfl
  | cons entry rest ih =>
    obtain ⟨k', v'⟩ := entry
    simp only [List.map_cons, List.mem_cons, not_or] at absent
    simp only [assign, Ne.symm absent.1, if_false, ih absent.2, List.cons_append]

theorem mem_assign {k : K} {v : V} {items : List (K × V)} {entry : K × V}
    (member : entry ∈ assign k v items) : entry = (k, v) ∨ entry ∈ items := by
  induction items with
  | nil => exact .inl (List.mem_singleton.mp member)
  | cons first rest ih =>
    obtain ⟨k', v'⟩ := first
    simp only [assign] at member
    split at member
    · obtain here | there := List.mem_cons.mp member
      · exact .inl here
      · exact .inr (List.mem_cons_of_mem _ there)
    · obtain here | there := List.mem_cons.mp member
      · exact .inr (List.mem_cons.mpr (.inl here))
      · exact (ih there).imp_right (List.mem_cons_of_mem _)

def get? (d : OrderedDict K V) (k : K) : Option V := lookup k d.items

/-- `d[k] = v`. -/
def set (d : OrderedDict K V) (k : K) (v : V) : OrderedDict K V :=
  ⟨assign k v d.items, by
    rw [keys_assign]
    split
    · exact d.nodup
    · rename_i absent
      rw [List.nodup_append]
      refine ⟨d.nodup, by simp, ?_⟩
      intro x hx y hy same
      rw [List.mem_singleton] at hy
      exact absent (hy ▸ same ▸ hx)⟩

/-- `d.pop(k, None)`, without the value. -/
def erase (d : OrderedDict K V) (k : K) : OrderedDict K V :=
  ⟨d.items.filter fun entry => entry.1 ≠ k, by
    exact d.nodup.sublist ((List.filter_sublist).map _)⟩

@[simp] theorem get?_empty (k : K) : (empty : OrderedDict K V).get? k = none := rfl

theorem lookup_assign (k k' : K) (v : V) (items : List (K × V)) :
    lookup k' (assign k v items) = if k = k' then some v else lookup k' items := by
  induction items with
  | nil => simp [assign, lookup]
  | cons entry rest ih =>
    obtain ⟨j, w⟩ := entry
    by_cases here : j = k
    · subst here
      by_cases same : j = k' <;> simp [assign, lookup, same]
    · by_cases same : j = k'
      · subst same
        simp [assign, lookup, here, Ne.symm here]
      · simp [assign, lookup, here, same, ih]

theorem get?_set (d : OrderedDict K V) (k k' : K) (v : V) :
    (d.set k v).get? k' = if k = k' then some v else d.get? k' :=
  lookup_assign k k' v d.items

@[simp] theorem get?_set_self (d : OrderedDict K V) (k : K) (v : V) :
    (d.set k v).get? k = some v := by simp [get?_set]

theorem get?_set_of_ne (d : OrderedDict K V) {k k' : K} (ne : k ≠ k') (v : V) :
    (d.set k v).get? k' = d.get? k' := by simp [get?_set, ne]

theorem lookup_filter_ne (k k' : K) (items : List (K × V)) :
    lookup k' (items.filter fun entry => entry.1 ≠ k) =
      if k = k' then none else lookup k' items := by
  induction items with
  | nil => simp [lookup]
  | cons entry rest ih =>
    obtain ⟨j, w⟩ := entry
    by_cases here : j = k
    · subst here
      rw [List.filter_cons_of_neg (by simp), ih]
      by_cases same : j = k' <;> simp [lookup, same]
    · rw [List.filter_cons_of_pos (by simpa using here), lookup, ih]
      by_cases same : j = k'
      · subst same
        simp [lookup, Ne.symm here]
      · simp [lookup, same]

theorem get?_erase (d : OrderedDict K V) (k k' : K) :
    (d.erase k).get? k' = if k = k' then none else d.get? k' :=
  lookup_filter_ne k k' d.items

@[simp] theorem get?_erase_self (d : OrderedDict K V) (k : K) : (d.erase k).get? k = none := by
  simp [get?_erase]

theorem get?_erase_of_ne (d : OrderedDict K V) {k k' : K} (ne : k ≠ k') :
    (d.erase k).get? k' = d.get? k' := by simp [get?_erase, ne]

theorem lookup_eq_some_iff {k : K} {v : V} {items : List (K × V)}
    (distinct : (items.map Prod.fst).Nodup) : lookup k items = some v ↔ (k, v) ∈ items := by
  induction items with
  | nil => simp [lookup]
  | cons entry rest ih =>
    obtain ⟨j, w⟩ := entry
    simp only [List.map_cons, List.nodup_cons] at distinct
    by_cases here : j = k
    · subst here
      simp only [lookup, if_true, Option.some.injEq, List.mem_cons, Prod.mk.injEq, true_and]
      constructor
      · exact fun same => Or.inl same.symm
      · rintro (same | inRest)
        · exact same.symm
        · exact absurd (List.mem_map_of_mem (f := Prod.fst) inRest) distinct.1
    · simp [lookup, here, Ne.symm here, ih distinct.2]

theorem get?_eq_some_iff (d : OrderedDict K V) {k : K} {v : V} :
    d.get? k = some v ↔ (k, v) ∈ d.items :=
  lookup_eq_some_iff d.nodup

theorem mem_keys_iff (d : OrderedDict K V) {k : K} : k ∈ d.keys ↔ ∃ v, d.get? k = some v := by
  simp only [get?_eq_some_iff, keys, List.mem_map]
  constructor
  · rintro ⟨⟨k', v⟩, member, rfl⟩
    exact ⟨v, member⟩
  · rintro ⟨v, member⟩
    exact ⟨(k, v), member, rfl⟩

theorem not_mem_keys_iff (d : OrderedDict K V) {k : K} : k ∉ d.keys ↔ d.get? k = none := by
  rw [mem_keys_iff, Option.eq_none_iff_forall_ne_some]
  simp

theorem keys_set (d : OrderedDict K V) (k : K) (v : V) :
    (d.set k v).keys = if k ∈ d.keys then d.keys else d.keys ++ [k] :=
  keys_assign k v d.items

theorem size_set_of_mem (d : OrderedDict K V) {k : K} (present : k ∈ d.keys) (v : V) :
    (d.set k v).size = d.size := by
  rw [← length_keys, keys_set, if_pos present, length_keys]

theorem size_set_of_not_mem (d : OrderedDict K V) {k : K} (absent : k ∉ d.keys) (v : V) :
    (d.set k v).size = d.size + 1 := by
  rw [← length_keys, keys_set, if_neg absent, List.length_append, length_keys]
  rfl

theorem keys_erase (d : OrderedDict K V) (k : K) : (d.erase k).keys = d.keys.erase k := by
  rw [d.nodup_keys.erase_eq_filter]
  simp only [keys, erase, List.filter_map]
  congr 1
  apply List.filter_congr
  intro entry _
  by_cases same : entry.1 = k <;> simp [same]

theorem size_erase_of_mem (d : OrderedDict K V) {k : K} (present : k ∈ d.keys) :
    (d.erase k).size + 1 = d.size := by
  rw [← length_keys, ← length_keys, keys_erase, List.length_erase_of_mem present]
  have := List.length_pos_of_mem present
  omega

theorem size_erase_le (d : OrderedDict K V) (k : K) : (d.erase k).size ≤ d.size :=
  List.length_filter_le _ _

/-! ## Dropping entries -/

/-- The entries whose value passes. -/
def retain (d : OrderedDict K V) (keep : V → Bool) : OrderedDict K V :=
  ⟨d.items.filter fun entry => keep entry.2,
    d.nodup.sublist ((List.filter_sublist).map _)⟩

/-- `d` is `e` without some of its entries. -/
structure Pruned (d e : OrderedDict K V) : Prop where
  get? {k : K} {v : V} : d.get? k = some v → e.get? k = some v
  size : d.size ≤ e.size

theorem pruned_refl (d : OrderedDict K V) : d.Pruned d := ⟨id, Nat.le_refl _⟩

theorem pruned_retain (d : OrderedDict K V) (keep : V → Bool) : (d.retain keep).Pruned d where
  get? present :=
    (d.get?_eq_some_iff).mpr (List.mem_filter.mp ((get?_eq_some_iff _).mp present)).1
  size := List.length_filter_le _ _

theorem pruned_erase (d : OrderedDict K V) (k : K) : (d.erase k).Pruned d where
  get? {k' v} present := by
    rw [get?_erase] at present
    split at present
    · cases present
    · exact present
  size := d.size_erase_le k

theorem mem_values_iff (d : OrderedDict K V) {v : V} : v ∈ d.values ↔ ∃ k, d.get? k = some v := by
  simp only [get?_eq_some_iff, values, List.mem_map]
  constructor
  · rintro ⟨⟨k, v'⟩, member, rfl⟩
    exact ⟨k, member⟩
  · rintro ⟨k, member⟩
    exact ⟨(k, v), member, rfl⟩

end OrderedDict

end OneLink.Library
