/-
# Library.SortedMap — finite maps in key order

A map as the list of its entries in strictly ascending key order, so that two maps
with the same lookups are equal (`ext_get?`).  `mergeWith` folds the entries of one
map into another; `get?_mergeWith` reads it as a merge of lookups, and its algebra
follows from that of the values.
-/
import Mathlib

namespace OneLink.Library

set_option autoImplicit false

/-- Entries with ascending keys. -/
structure SortedMap (K V : Type) [LinearOrder K] where
  items : List (K × V)
  sorted : items.Pairwise fun a b => a.1 < b.1

namespace SortedMap

variable {K V : Type} [LinearOrder K]

instance [DecidableEq V] : DecidableEq (SortedMap K V) := fun a b =>
  decidable_of_iff (a.items = b.items) ⟨fun same => by cases a; cases b; simpa using same,
    fun same => by rw [same]⟩

def empty : SortedMap K V := ⟨[], List.Pairwise.nil⟩

def lookup (k : K) : List (K × V) → Option V
  | [] => none
  | (k', v) :: rest => if k' = k then some v else lookup k rest

def get? (m : SortedMap K V) (k : K) : Option V := lookup k m.items

/-- Set the value at `k` from the one that is there. -/
def alterItems (k : K) (f : Option V → V) : List (K × V) → List (K × V)
  | [] => [(k, f none)]
  | (k', v) :: rest =>
    if k < k' then (k, f none) :: (k', v) :: rest
    else if k' = k then (k', f (some v)) :: rest
    else (k', v) :: alterItems k f rest

theorem mem_alterItems {k : K} {f : Option V → V} {l : List (K × V)} {p : K × V}
    (present : p ∈ alterItems k f l) : p.1 = k ∨ p ∈ l := by
  induction l with
  | nil => exact .inl (by rw [List.mem_singleton.mp present])
  | cons q rest ih =>
    obtain ⟨k', v⟩ := q
    simp only [alterItems] at present
    split at present
    · rcases List.mem_cons.mp present with rfl | old
      · exact .inl rfl
      · exact .inr old
    · split at present
      · next same =>
        rcases List.mem_cons.mp present with rfl | old
        · exact .inl same
        · exact .inr (List.mem_cons_of_mem _ old)
      · rcases List.mem_cons.mp present with rfl | later
        · exact .inr List.mem_cons_self
        · rcases ih later with here | old
          · exact .inl here
          · exact .inr (List.mem_cons_of_mem _ old)

theorem sorted_alterItems (k : K) (f : Option V → V) {l : List (K × V)}
    (sorted : l.Pairwise fun a b => a.1 < b.1) :
    (alterItems k f l).Pairwise fun a b => a.1 < b.1 := by
  induction l with
  | nil => exact List.pairwise_singleton _ _
  | cons q rest ih =>
    obtain ⟨k', v⟩ := q
    obtain ⟨least, tail⟩ := List.pairwise_cons.mp sorted
    simp only [alterItems]
    split
    · next below =>
      refine List.pairwise_cons.mpr ⟨fun p present => ?_, sorted⟩
      rcases List.mem_cons.mp present with rfl | later
      · exact below
      · exact lt_trans below (least p later)
    · next notBelow =>
      split
      · exact List.pairwise_cons.mpr ⟨least, tail⟩
      · next ne =>
        refine List.pairwise_cons.mpr ⟨fun p present => ?_, ih tail⟩
        rcases mem_alterItems present with here | old
        · rw [here]
          exact lt_of_le_of_ne (not_lt.mp notBelow) ne
        · exact least p old

def alter (m : SortedMap K V) (k : K) (f : Option V → V) : SortedMap K V :=
  ⟨alterItems k f m.items, sorted_alterItems k f m.sorted⟩

/-! ## Lookups -/

@[simp] theorem get?_empty (k : K) : (empty : SortedMap K V).get? k = none := rfl

theorem lookup_eq_none {k : K} {l : List (K × V)} (above : ∀ p ∈ l, k < p.1) :
    lookup k l = none := by
  induction l with
  | nil => rfl
  | cons p rest ih =>
    have first := above p List.mem_cons_self
    rw [lookup, if_neg first.ne']
    exact ih fun q present => above q (List.mem_cons_of_mem _ present)

theorem get?_of_mem {m : SortedMap K V} {k : K} {v : V} (present : (k, v) ∈ m.items) :
    m.get? k = some v := by
  have through : ∀ l : List (K × V), (l.Pairwise fun a b => a.1 < b.1) → (k, v) ∈ l →
      lookup k l = some v := by
    intro l sorted mem
    induction l with
    | nil => cases mem
    | cons entry rest ih =>
      obtain ⟨least, tail⟩ := List.pairwise_cons.mp sorted
      obtain rfl | later := List.mem_cons.mp mem
      · exact if_pos rfl
      · exact (if_neg (ne_of_lt (least _ later))).trans (ih tail later)
  exact through m.items m.sorted present

theorem lookup_alterItems (k k' : K) (f : Option V → V) {l : List (K × V)}
    (sorted : l.Pairwise fun a b => a.1 < b.1) :
    lookup k' (alterItems k f l) = if k = k' then some (f (lookup k l)) else lookup k' l := by
  induction l with
  | nil => simp [alterItems, lookup]
  | cons q rest ih =>
    obtain ⟨key, v⟩ := q
    obtain ⟨least, tail⟩ := List.pairwise_cons.mp sorted
    simp only [alterItems]
    split
    · next below =>
      have absent : lookup k ((key, v) :: rest) = none := by
        apply lookup_eq_none
        intro p present
        rcases List.mem_cons.mp present with rfl | later
        · exact below
        · exact lt_trans below (least p later)
      rw [absent]
      rfl
    · split
      · next same =>
        subst same
        by_cases here : key = k'
        · simp [lookup, here]
        · simp [lookup, here]
      · next ne =>
        simp only [lookup, ih tail, if_neg ne]
        by_cases here : key = k'
        · subst here
          simp [Ne.symm ne]
        · simp [here]

theorem get?_alter (m : SortedMap K V) (k k' : K) (f : Option V → V) :
    (m.alter k f).get? k' = if k = k' then some (f (m.get? k)) else m.get? k' :=
  lookup_alterItems k k' f m.sorted

@[simp] theorem get?_alter_self (m : SortedMap K V) (k : K) (f : Option V → V) :
    (m.alter k f).get? k = some (f (m.get? k)) := by
  rw [get?_alter, if_pos rfl]

/-- Sorted entries are determined by their lookups. -/
theorem items_ext {l l' : List (K × V)} (sorted : l.Pairwise fun a b => a.1 < b.1)
    (sorted' : l'.Pairwise fun a b => a.1 < b.1) (same : ∀ k, lookup k l = lookup k l') :
    l = l' := by
  induction l generalizing l' with
  | nil =>
    cases l' with
    | nil => rfl
    | cons p rest => simpa [lookup] using same p.1
  | cons p rest ih =>
    obtain ⟨least, tail⟩ := List.pairwise_cons.mp sorted
    cases l' with
    | nil => simpa [lookup] using same p.1
    | cons p' rest' =>
      obtain ⟨least', tail'⟩ := List.pairwise_cons.mp sorted'
      -- the least key of either list is in the other one
      have keys : p.1 = p'.1 := by
        rcases lt_trichotomy p.1 p'.1 with less | equal | greater
        · have absent : lookup p.1 (p' :: rest') = none := by
            apply lookup_eq_none
            intro q present
            rcases List.mem_cons.mp present with rfl | later
            · exact less
            · exact lt_trans less (least' q later)
          have found := same p.1
          rw [absent, lookup, if_pos rfl] at found
          cases found
        · exact equal
        · have absent : lookup p'.1 (p :: rest) = none := by
            apply lookup_eq_none
            intro q present
            rcases List.mem_cons.mp present with rfl | later
            · exact greater
            · exact lt_trans greater (least q later)
          have found := same p'.1
          rw [absent, lookup, if_pos rfl] at found
          cases found
      have values : p.2 = p'.2 := by
        simpa [lookup, keys] using same p.1
      have rests : rest = rest' := by
        apply ih tail tail'
        intro k
        by_cases here : p.1 = k
        · rw [lookup_eq_none (l := rest) (here ▸ least),
            lookup_eq_none (l := rest') (here ▸ keys ▸ least')]
        · have there : ¬ p'.1 = k := keys ▸ here
          simpa [lookup, here, there] using same k
      rw [rests, Prod.ext keys values]

theorem ext_get? {m m' : SortedMap K V} (same : ∀ k, m.get? k = m'.get? k) : m = m' := by
  cases m with
  | mk items sorted =>
    cases m' with
    | mk items' sorted' =>
      obtain rfl := items_ext sorted sorted' same
      rfl

theorem alter_congr {k : K} {f g : Option V → V} {m : SortedMap K V}
    (same : f (m.get? k) = g (m.get? k)) : m.alter k f = m.alter k g := by
  apply ext_get?
  intro key
  rw [get?_alter, get?_alter, same]

theorem alter_alter (m : SortedMap K V) (k : K) (f g : Option V → V) :
    (m.alter k f).alter k g = m.alter k fun old => g (some (f old)) := by
  apply ext_get?
  intro key
  simp only [get?_alter, if_true]
  split <;> rfl

/-- Two updates commute if they do where they meet. -/
theorem alter_right_comm {k k' : K} {f g : Option V → V}
    (comm : k = k' → ∀ old, g (some (f old)) = f (some (g old))) (m : SortedMap K V) :
    (m.alter k f).alter k' g = (m.alter k' g).alter k f := by
  apply ext_get?
  intro key
  by_cases meet : k = k'
  · subst meet
    by_cases here : k = key
    · simp [here, comm rfl]
    · simp [get?_alter, here]
  · by_cases here : k = key
    · have other : ¬ k' = key := fun there => meet (here.trans there.symm)
      have back : ¬ k' = k := fun same => meet same.symm
      simp [get?_alter, here, other]
    · by_cases there : k' = key
      · simp [get?_alter, here, there]
      · simp [get?_alter, here, there]

/-! ## Merging -/

/-- Fold the entries of `other` into `m`. -/
def mergeWith (f : V → V → V) (m other : SortedMap K V) : SortedMap K V :=
  other.items.foldl (fun acc entry => acc.alter entry.1 fun
    | none => entry.2
    | some old => f old entry.2) m

theorem get?_mergeWith (f : V → V → V) (m other : SortedMap K V) (k : K) :
    (mergeWith f m other).get? k = Option.merge f (m.get? k) (other.get? k) := by
  have through : ∀ (l : List (K × V)) (m : SortedMap K V), (l.Pairwise fun a b => a.1 < b.1) →
      (l.foldl (fun acc entry => acc.alter entry.1 fun
        | none => entry.2
        | some old => f old entry.2) m).get? k = Option.merge f (m.get? k) (lookup k l) := by
    intro l
    induction l with
    | nil =>
      intro m _
      cases here : m.get? k <;> simp [lookup, here]
    | cons entry rest ih =>
      intro m sorted
      obtain ⟨least, tail⟩ := List.pairwise_cons.mp sorted
      rw [List.foldl_cons, ih _ tail, get?_alter]
      by_cases here : entry.1 = k
      · have absent : lookup k rest = none := by
          rw [← here]
          exact lookup_eq_none least
        subst here
        rw [if_pos rfl, absent, lookup, if_pos rfl]
        cases m.get? entry.1 <;> simp
      · rw [if_neg here, lookup, if_neg here]
  exact through other.items m other.sorted

/-- Maps whose values commute where both have one commute. -/
theorem mergeWith_comm_of {f : V → V → V} {m m' : SortedMap K V}
    (comm : ∀ k a b, m.get? k = some a → m'.get? k = some b → f a b = f b a) :
    mergeWith f m m' = mergeWith f m' m := by
  apply ext_get?
  intro k
  have here := comm k
  rw [get?_mergeWith, get?_mergeWith]
  cases first : m.get? k with
  | none => cases m'.get? k <;> rfl
  | some a =>
    cases second : m'.get? k with
    | none => rfl
    | some b => exact congrArg some (here a b first second)

theorem mergeWith_comm {f : V → V → V} (comm : ∀ a b, f a b = f b a) (m m' : SortedMap K V) :
    mergeWith f m m' = mergeWith f m' m :=
  mergeWith_comm_of fun _ a b _ _ => comm a b

theorem mergeWith_assoc {f : V → V → V} (assoc : ∀ a b c, f (f a b) c = f a (f b c))
    (m m' m'' : SortedMap K V) :
    mergeWith f (mergeWith f m m') m'' = mergeWith f m (mergeWith f m' m'') := by
  apply ext_get?
  intro k
  simp only [get?_mergeWith]
  cases m.get? k <;> cases m'.get? k <;> cases m''.get? k <;> simp [assoc]

theorem mergeWith_self {f : V → V → V} (idem : ∀ a, f a a = a) (m : SortedMap K V) :
    mergeWith f m m = m := by
  apply ext_get?
  intro k
  rw [get?_mergeWith]
  cases m.get? k <;> simp [idem]

theorem mergeWith_regular {f : V → V → V} (idem : ∀ a, f a a = a)
    (regular : ∀ a b, f (f a b) a = f a b) (m m' : SortedMap K V) :
    mergeWith f (mergeWith f m m') m = mergeWith f m m' := by
  apply ext_get?
  intro k
  simp only [get?_mergeWith]
  cases m.get? k <;> cases m'.get? k <;> simp [idem, regular]

/-- Merging the old map into a changed one changes nothing, if the new value absorbs the old. -/
theorem mergeWith_alter {f : V → V → V} (idem : ∀ a, f a a = a) {g : Option V → V} {k : K}
    {m : SortedMap K V} (absorbs : ∀ old, m.get? k = some old → f (g (some old)) old = g (some old)) :
    mergeWith f (m.alter k g) m = m.alter k g := by
  apply ext_get?
  intro key
  rw [get?_mergeWith, get?_alter]
  by_cases here : k = key
  · subst here
    rw [if_pos rfl]
    cases present : m.get? k with
    | none => rfl
    | some old => exact congrArg some (absorbs old present)
  · rw [if_neg here]
    cases m.get? key <;> simp [idem]

/-! ## Keys, and taking entries out -/

def keys (m : SortedMap K V) : List K := m.items.map (·.1)

theorem nodup_keys (m : SortedMap K V) : m.keys.Nodup :=
  List.pairwise_map.mpr (m.sorted.imp ne_of_lt)

theorem mem_of_get? {m : SortedMap K V} {k : K} {v : V} (found : m.get? k = some v) :
    (k, v) ∈ m.items := by
  have through : ∀ l : List (K × V), lookup k l = some v → (k, v) ∈ l := by
    intro l found
    induction l with
    | nil => cases found
    | cons entry rest ih =>
      obtain ⟨key, v'⟩ := entry
      by_cases here : key = k
      · rw [lookup, if_pos here] at found
        cases found
        exact here ▸ List.mem_cons_self
      · rw [lookup, if_neg here] at found
        exact List.mem_cons_of_mem _ (ih found)
  exact through m.items found

theorem mem_keys {m : SortedMap K V} {k : K} : k ∈ m.keys ↔ ∃ v, m.get? k = some v := by
  constructor
  · intro listed
    obtain ⟨⟨key, v⟩, present, rfl⟩ := List.mem_map.mp listed
    exact ⟨v, get?_of_mem present⟩
  · rintro ⟨v, found⟩
    exact List.mem_map.mpr ⟨(k, v), mem_of_get? found, rfl⟩

theorem not_mem_keys {m : SortedMap K V} {k : K} : k ∉ m.keys ↔ m.get? k = none := by
  rw [mem_keys, Option.eq_none_iff_forall_ne_some, not_exists]

def erase (m : SortedMap K V) (k : K) : SortedMap K V :=
  ⟨m.items.filter (·.1 ≠ k), m.sorted.filter _⟩

theorem get?_erase (m : SortedMap K V) (k k' : K) :
    (m.erase k).get? k' = if k = k' then none else m.get? k' := by
  have through : ∀ l : List (K × V),
      lookup k' (l.filter (·.1 ≠ k)) = if k = k' then none else lookup k' l := by
    intro l
    induction l with
    | nil => simp [lookup]
    | cons entry rest ih =>
      rw [List.filter_cons]
      by_cases erased : entry.1 = k
      · subst erased
        by_cases here : entry.1 = k'
        · simpa [here] using ih
        · simpa [here, lookup] using ih
      · by_cases here : entry.1 = k'
        · subst here
          simp [erased, lookup, Ne.symm erased]
        · simpa [erased, lookup, here] using ih
  exact through m.items

/-! ## Sums -/

/-- The sum of a measure of the values. -/
def sumOf (f : V → Int) (m : SortedMap K V) : Int := (m.items.map fun entry => f entry.2).sum

theorem sumOf_eq (f : V → Int) (m : SortedMap K V) :
    m.sumOf f = ((m.items.map (·.2)).map f).sum := by
  rw [List.map_map]
  rfl

theorem sumOf_alter (f : V → Int) (m : SortedMap K V) (k : K) (g : Option V → V) :
    (m.alter k g).sumOf f = m.sumOf f - ((m.get? k).map f).getD 0 + f (g (m.get? k)) := by
  have through : ∀ l : List (K × V), (l.Pairwise fun a b => a.1 < b.1) →
      ((alterItems k g l).map fun entry => f entry.2).sum =
        (l.map fun entry => f entry.2).sum - ((lookup k l).map f).getD 0 + f (g (lookup k l)) := by
    intro l sorted
    induction l with
    | nil => simp [alterItems, lookup]
    | cons entry rest ih =>
      obtain ⟨key, v⟩ := entry
      obtain ⟨least, tail⟩ := List.pairwise_cons.mp sorted
      simp only [alterItems]
      split
      · next below =>
        have absent : lookup k ((key, v) :: rest) = none := by
          apply lookup_eq_none
          intro p present
          rcases List.mem_cons.mp present with rfl | later
          · exact below
          · exact lt_trans below (least p later)
        rw [absent]
        simp only [List.map_cons, List.sum_cons, Option.map_none, Option.getD_none]
        omega
      · split
        · next same =>
          rw [lookup, if_pos same]
          simp only [List.map_cons, List.sum_cons, Option.map_some, Option.getD_some]
          omega
        · next other =>
          rw [lookup, if_neg other]
          simp only [List.map_cons, List.sum_cons, ih tail]
          omega
  exact through m.items m.sorted

theorem sumOf_ge {f : V → Int} {least : Int} {m : SortedMap K V}
    (each : ∀ entry ∈ m.items, least ≤ f entry.2) : least * m.items.length ≤ m.sumOf f := by
  have through : ∀ l : List (K × V), (∀ entry ∈ l, least ≤ f entry.2) →
      least * l.length ≤ (l.map fun entry => f entry.2).sum := by
    intro l bound
    induction l with
    | nil => simp
    | cons entry rest ih =>
      have first := bound entry List.mem_cons_self
      have others := ih fun e member => bound e (List.mem_cons_of_mem _ member)
      simp only [List.map_cons, List.sum_cons, List.length_cons, Int.natCast_add, Int.mul_add]
      omega
  exact through m.items each

theorem length_alter_le (m : SortedMap K V) (k : K) (g : Option V → V) :
    (m.alter k g).items.length ≤ m.items.length + 1 := by
  have through : ∀ l : List (K × V), (alterItems k g l).length ≤ l.length + 1 := by
    intro l
    induction l with
    | nil => exact Nat.le_refl _
    | cons entry rest ih =>
      simp only [alterItems]
      split
      · exact Nat.le_refl _
      · split
        · exact Nat.le_succ _
        · exact Nat.succ_le_succ ih
  exact through m.items

end SortedMap

end OneLink.Library
