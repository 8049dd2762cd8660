/-
# Library.BoundedDict — a dictionary that evicts its oldest entry

`push cap d k v` assigns and then drops the oldest entries beyond `cap`.
`Window cap history gone d` relates a dictionary to the keys ever pushed into
it, in order: a key is still present, or it has been erased (it is in `gone`),
or at least `cap` keys have been pushed after it.
-/
import OneLink.Library.OrderedDict

namespace OneLink.Library.OrderedDict

set_option autoImplicit false

variable {K V : Type}

theorem keys_dropFirst (d : OrderedDict K V) (n : Nat) : (d.dropFirst n).keys = d.keys.drop n :=
  List.map_drop

section Push

variable [DecidableEq K]

theorem get?_of_dropFirst {d : OrderedDict K V} {n : Nat} {k : K} {v : V}
    (present : (d.dropFirst n).get? k = some v) : d.get? k = some v := by
  rw [get?_eq_some_iff] at present ⊢
  exact List.mem_of_mem_drop present

/-- `d[k] = v`, then pop the oldest entries while more than `cap` are left. -/
def push (cap : Nat) (d : OrderedDict K V) (k : K) (v : V) : OrderedDict K V :=
  (d.set k v).dropFirst ((d.set k v).size - cap)

theorem get?_push {cap : Nat} {d : OrderedDict K V} {k k' : K} {v v' : V}
    (present : (d.push cap k v).get? k' = some v') : k = k' ∧ v = v' ∨ d.get? k' = some v' := by
  have assigned := get?_of_dropFirst present
  rw [get?_set] at assigned
  split at assigned
  · rename_i same
    exact .inl ⟨same, Option.some.inj assigned⟩
  · exact .inr assigned

theorem keys_push {cap : Nat} {d : OrderedDict K V} {k : K} (absent : k ∉ d.keys) (v : V) :
    (d.push cap k v).keys = (d.keys ++ [k]).drop (d.size + 1 - cap) := by
  rw [push, keys_dropFirst, keys_set, if_neg absent, size_set_of_not_mem d absent]

end Push

/-- What is left of the keys pushed so far; `gone` are the keys erased. -/
structure Window (cap : Nat) (history : List K) (gone : K → Prop) (d : OrderedDict K V) :
    Prop where
  ordered : d.keys.Sublist history
  bounded : d.size ≤ cap
  kept : ∀ early k late, history = early ++ k :: late →
    k ∈ d.keys ∨ gone k ∨ cap ≤ late.length

namespace Window

variable {cap : Nat} {history : List K} {gone : K → Prop} {d : OrderedDict K V}

theorem empty (gone : K → Prop) : Window cap [] gone (OrderedDict.empty : OrderedDict K V) where
  ordered := List.Sublist.refl _
  bounded := Nat.zero_le _
  kept := by
    intro early k late split
    simp at split

theorem mono {gone' : K → Prop} (window : Window cap history gone d)
    (weaker : ∀ k, gone k → gone' k) : Window cap history gone' d where
  ordered := window.ordered
  bounded := window.bounded
  kept := by
    intro early k late split
    rcases window.kept early k late split with present | erased | pushed
    · exact .inl present
    · exact .inr (.inl (weaker k erased))
    · exact .inr (.inr pushed)

/-- In a list without repetitions, what follows a key in a sublist follows it in the list. -/
theorem late_of_sublist {early late rest : List K} {k : K}
    (distinct : (early ++ k :: late).Nodup) (part : (k :: rest).Sublist (early ++ k :: late)) :
    rest.Sublist late := by
  induction early with
  | nil => exact List.cons_sublist_cons.mp part
  | cons first early ih =>
    simp only [List.cons_append, List.nodup_cons] at distinct
    cases part with
    | cons _ part => exact ih distinct.2 part
    | cons_cons _ part => exact absurd (by simp) distinct.1

variable [DecidableEq K]

theorem erase (window : Window cap history gone d) (k : K) :
    Window cap history (fun k' => k' = k ∨ gone k') (d.erase k) where
  ordered := by
    refine List.Sublist.trans ?_ window.ordered
    exact (List.filter_sublist).map _
  bounded := Nat.le_trans (size_erase_le d k) window.bounded
  kept := by
    intro early k' late split
    rcases window.kept early k' late split with present | erased | pushed
    · by_cases same : k' = k
      · exact .inr (.inl (.inl same))
      · rw [mem_keys_iff] at present ⊢
        obtain ⟨v, found⟩ := present
        exact .inl ⟨v, by rw [get?_erase_of_ne d (Ne.symm same), found]⟩
    · exact .inr (.inl (.inr erased))
    · exact .inr (.inr pushed)

theorem push (window : Window cap history gone d) {k : K} (fresh : k ∉ history)
    (distinct : history.Nodup) (v : V) : Window cap (history ++ [k]) gone (d.push cap k v) := by
  have absent : k ∉ d.keys := fun present => fresh (window.ordered.subset present)
  have grown : (d.keys ++ [k]).Sublist (history ++ [k]) := window.ordered.append (.refl _)
  have allDistinct : (history ++ [k]).Nodup := by
    rw [List.nodup_append]
    exact ⟨distinct, by simp, by rintro x hx y hy rfl; simp_all⟩
  have room := window.bounded
  have size_push : (d.push cap k v).size = d.size + 1 - (d.size + 1 - cap) := by
    rw [← length_keys, keys_push absent, List.length_drop, List.length_append, length_keys]
    rfl
  refine ⟨?_, by omega, ?_⟩
  · rw [keys_push absent]
    exact (List.drop_sublist _ _).trans grown
  · intro early k' late split
    by_cases pushedNow : k' ∈ d.keys ++ [k]
    · rw [keys_push absent]
      by_cases full : d.size + 1 - cap = 0
      · exact .inl (by rwa [full, List.drop_zero])
      · -- the dictionary was full: exactly its oldest key goes
        have one : d.size + 1 - cap = 1 := by omega
        rw [one]
        cases shape : d.keys ++ [k] with
        | nil => simp at shape
        | cons oldest rest =>
          rw [shape] at pushedNow
          rcases List.mem_cons.mp pushedNow with isOldest | younger
          · have count : rest.length = d.size := by
              have := congrArg List.length shape
              simp only [List.length_append, length_keys, List.length_cons] at this
              simp only [List.length_nil] at this
              omega
            have follows : rest.Sublist late := by
              rw [split] at allDistinct
              rw [shape, split, ← isOldest] at grown
              exact late_of_sublist allDistinct grown
            have := follows.length_le
            exact .inr (.inr (by omega))
          · exact .inl younger
    · simp only [List.mem_append, List.mem_singleton, not_or] at pushedNow
      obtain ⟨late', rfl⟩ : ∃ late', late = late' ++ [k] := by
        rcases List.eq_nil_or_concat late with rfl | ⟨late', last, rfl⟩
        · have := List.append_inj' split rfl
          simp_all
        · have lasts := congrArg List.getLast? split
          simp only [List.getLast?_append, List.getLast?_cons] at lasts
          exact ⟨late', by simp_all⟩
      have split' : history = early ++ k' :: late' := by
        rw [← List.cons_append, ← List.append_assoc] at split
        exact List.append_cancel_right split
      rcases window.kept early k' late' split' with present | erased | pushed
      · exact absurd present pushedNow.1
      · exact .inr (.inl erased)
      · exact .inr (.inr (by rw [List.length_append]; omega))

/-- A key is evicted once `cap` keys have been pushed after it and none of them erased. -/
theorem evicted (window : Window cap history gone d) (distinct : history.Nodup)
    {early late : List K} {k : K} (split : history = early ++ k :: late)
    (full : cap ≤ late.length) (intact : ∀ k' ∈ late, ¬ gone k') : k ∉ d.keys := by
  intro present
  have young : ∀ k' ∈ late.drop (late.length - cap), k' ∈ d.keys := by
    intro k' member
    obtain ⟨a, b, shape⟩ := List.append_of_mem member
    have count : b.length < cap := by
      have := congrArg List.length shape
      simp only [List.length_drop, List.length_append, List.length_cons] at this
      omega
    have split' : history =
        (early ++ k :: late.take (late.length - cap) ++ a) ++ k' :: b := by
      rw [split, List.append_assoc, ← shape, List.append_assoc, List.cons_append,
        List.take_append_drop]
    rcases window.kept _ k' b split' with found | erased | pushed
    · exact found
    · exact absurd erased (intact k' (List.mem_of_mem_drop member))
    · omega
  have older : (k :: late).Nodup := by
    rw [split] at distinct
    exact (List.nodup_append.mp distinct).2.1
  have apart : (k :: late.drop (late.length - cap)).Nodup :=
    older.sublist ((List.drop_sublist _ _).cons_cons _)
  have inside : (k :: late.drop (late.length - cap)) ⊆ d.keys := by
    intro k' member
    rcases List.mem_cons.mp member with rfl | recent
    · exact present
    · exact young k' recent
  have count := List.Nodup.length_le_of_subset apart inside
  have room := window.bounded
  rw [List.length_cons, List.length_drop, length_keys] at count
  omega

end Window

end OneLink.Library.OrderedDict
