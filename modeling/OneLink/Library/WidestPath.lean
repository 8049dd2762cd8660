/-
# Library.WidestPath — labels of the widest paths from a node

An edge has a width and an age.  A walk is as wide as its narrowest edge and as fresh as its
stalest one; labels are compared by the width first.  A search keeps a label and a parent for the
nodes it has reached, a heap of labels still to be looked at, and the nodes it has settled, the
last one first.  `Inv` is what holds while it settles the greatest label of the heap and improves
the labels behind it; `Final` is what holds when the heap is empty or the target is its greatest
entry.  Then the target's label is the label of a walk along the parents, and no walk is wider.

A node without a label counts as one with the least label.  So a node is never reached by walks
of the least label only: the target has a label when a walk is wider than the least width, or a
walk that is widest from beginning to end is fresher than the least age (`Final.labelled_iff`).
-/
import Mathlib.Data.Prod.Lex
import Mathlib.Order.BoundedOrder.Basic
import Mathlib.Data.List.Nodup
import Mathlib.Data.List.Perm.Subperm
import Mathlib.Order.MinMax

namespace OneLink.Library.WidestPath

set_option autoImplicit false

variable {V α β : Type}

/-! ## The state of a search -/

/-- Labels and parents of the nodes reached, the heap, and the settled nodes. -/
structure Search (V α β : Type) where
  label : V → Option (α ×ₗ β)
  parent : V → Option V
  heap : List ((α ×ₗ β) × V)
  order : List V

namespace Search

/-- The search after `u` has been given a better label through `v`. -/
def improve [DecidableEq V] (search : Search V α β) (v u : V) (better : α ×ₗ β) : Search V α β where
  label := Function.update search.label u (some better)
  parent := Function.update search.parent u (some v)
  heap := (better, u) :: search.heap
  order := search.order

section Improve

variable [DecidableEq V] (search : Search V α β) (v u : V) (better : α ×ₗ β)

@[simp] theorem label_improve : (search.improve v u better).label u = some better :=
  Function.update_self ..

theorem label_improve_of_ne {w : V} (other : w ≠ u) :
    (search.improve v u better).label w = search.label w :=
  Function.update_of_ne other _ _

@[simp] theorem parent_improve : (search.improve v u better).parent u = some v :=
  Function.update_self ..

theorem parent_improve_of_ne {w : V} (other : w ≠ u) :
    (search.improve v u better).parent w = search.parent w :=
  Function.update_of_ne other _ _

end Improve

end Search

variable [LinearOrder α] [LinearOrder β]

/-! ## Labels -/

def width (label : α ×ₗ β) : α := (ofLex label).1

def age (label : α ×ₗ β) : β := (ofLex label).2

/-- The label of a walk and one more edge. -/
def meet (label edge : α ×ₗ β) : α ×ₗ β :=
  toLex (min (width label) (width edge), min (age label) (age edge))

@[simp] theorem width_meet (label edge : α ×ₗ β) :
    width (meet label edge) = min (width label) (width edge) := rfl

@[simp] theorem age_meet (label edge : α ×ₗ β) :
    age (meet label edge) = min (age label) (age edge) := rfl

theorem le_iff {a b : α ×ₗ β} : a ≤ b ↔ width a < width b ∨ width a = width b ∧ age a ≤ age b :=
  Prod.Lex.le_iff

theorem lt_iff {a b : α ×ₗ β} : a < b ↔ width a < width b ∨ width a = width b ∧ age a < age b :=
  Prod.Lex.lt_iff

theorem width_mono {a b : α ×ₗ β} (below : a ≤ b) : width a ≤ width b := by
  rcases le_iff.mp below with narrower | ⟨same, _⟩
  · exact narrower.le
  · exact same.le

/-- Narrower and older is below. -/
theorem le_of_le {a b : α ×ₗ β} (narrower : width a ≤ width b) (older : age a ≤ age b) : a ≤ b := by
  rcases narrower.lt_or_eq with less | same
  · exact le_iff.mpr (.inl less)
  · exact le_iff.mpr (.inr ⟨same, older⟩)

theorem meet_le (label edge : α ×ₗ β) : meet label edge ≤ label :=
  le_of_le (min_le_left _ _) (min_le_left _ _)

/-! ## Walks -/

section Walks

variable (edge : V → V → Option (α ×ₗ β)) (top : α ×ₗ β) (s : V)

/-- A walk from `s`, with the nodes it visits and its label. -/
inductive Walk : V → List V → α ×ₗ β → Prop
  | start : Walk s [s] top
  | step {u v : V} {hops : List V} {label e : α ×ₗ β} (before : Walk u hops label)
      (last : edge u v = some e) : Walk v (hops ++ [v]) (meet label e)

/-- A walk of which every beginning is a widest walk to where it leads. -/
inductive Widest : V → List V → α ×ₗ β → Prop
  | start : Widest s [s] top
  | step {u v : V} {hops : List V} {label e : α ×ₗ β} (before : Widest u hops label)
      (last : edge u v = some e)
      (widest : ∀ other label', Walk edge top s v other label' →
        width label' ≤ width (meet label e)) : Widest v (hops ++ [v]) (meet label e)

variable {edge top s}

theorem Widest.walk {v : V} {hops : List V} {label : α ×ₗ β}
    (favoured : Widest edge top s v hops label) : Walk edge top s v hops label := by
  induction favoured with
  | start => exact .start
  | step _ last _ ih => exact .step ih last

theorem Walk.mono {edge' : V → V → Option (α ×ₗ β)} {v : V} {hops : List V} {label : α ×ₗ β}
    (walk : Walk edge' top s v hops label)
    (fewer : ∀ a b e, edge' a b = some e → edge a b = some e) : Walk edge top s v hops label := by
  induction walk with
  | start => exact .start
  | step _ last ih => exact .step ih (fewer _ _ _ last)

/-- The pairs of neighbours. -/
def links (hops : List V) : List (V × V) := hops.zip hops.tail

theorem links_snoc (before : List V) (u v : V) :
    links (before ++ [u] ++ [v]) = links (before ++ [u]) ++ [(u, v)] := by
  induction before with
  | nil => rfl
  | cons a rest ih =>
    cases rest with
    | nil => rfl
    | cons b rest => exact congrArg ((a, b) :: ·) ih

theorem Walk.ends {v : V} {hops : List V} {label : α ×ₗ β} (walk : Walk edge top s v hops label) :
    ∃ before, hops = before ++ [v] := by
  cases walk with
  | start => exact ⟨[], rfl⟩
  | step _ _ => exact ⟨_, rfl⟩

/-- A walk follows edges, none of them narrower than the walk. -/
theorem Walk.edge_of_links {v : V} {hops : List V} {label : α ×ₗ β}
    (walk : Walk edge top s v hops label) :
    ∀ pair ∈ links hops, ∃ e, edge pair.1 pair.2 = some e ∧ width label ≤ width e := by
  induction walk with
  | start => exact fun _ nothing => absurd nothing List.not_mem_nil
  | @step u v hops label e before last ih =>
    obtain ⟨others, rfl⟩ := before.ends
    intro pair member
    rw [links_snoc] at member
    rcases List.mem_append.mp member with earlier | here
    · obtain ⟨e', present, wide⟩ := ih pair earlier
      exact ⟨e', present, (min_le_left _ _).trans wide⟩
    · rw [List.mem_singleton.mp here]
      exact ⟨e, last, min_le_right _ _⟩

/-- A walk of some edges is as wide as one of them. -/
theorem Walk.narrowest {v : V} {hops : List V} {label : α ×ₗ β}
    (walk : Walk edge top s v hops label) (below : ∀ a b e, edge a b = some e → width e ≤ width top)
    (other : v ≠ s) :
    ∃ pair ∈ links hops, ∃ e, edge pair.1 pair.2 = some e ∧ width e = width label := by
  have through : label = top ∨
      ∃ pair ∈ links hops, ∃ e, edge pair.1 pair.2 = some e ∧ width e = width label := by
    clear other
    induction walk with
    | start => exact .inl rfl
    | @step u v hops label e before last ih =>
      obtain ⟨others, rfl⟩ := before.ends
      right
      rw [links_snoc, width_meet]
      have final : (u, v) ∈ links (others ++ [u]) ++ [(u, v)] := by simp
      rcases le_total (width e) (width label) with narrower | wider
      · exact ⟨(u, v), final, e, last, (min_eq_right narrower).symm⟩
      · rw [min_eq_left wider]
        rcases ih with rfl | ⟨pair, member, e', present, same⟩
        · exact ⟨(u, v), final, e, last, le_antisymm (below u v e last) wider⟩
        · exact ⟨pair, List.mem_append_left _ member, e', present, same⟩
  cases walk with
  | start => exact absurd rfl other
  | @step u _ hops label e before last =>
    rcases through with whole | found
    · obtain ⟨others, rfl⟩ := before.ends
      refine ⟨(u, v), by rw [links_snoc]; simp, e, last, ?_⟩
      have wide : width top ≤ width e := by
        rw [← whole]
        exact min_le_right _ _
      rw [whole]
      exact le_antisymm (below u v e last) wide
    · exact found

end Walks

/-! ## The search -/

variable [OrderBot α] [OrderBot β]

/-- The label that stands for none. -/
def least : α ×ₗ β := toLex (⊥, ⊥)

theorem least_le (label : α ×ₗ β) : least ≤ label := le_of_le bot_le bot_le

namespace Search

/-- The label of a node, the least one when it has none. -/
def labelD (search : Search V α β) (v : V) : α ×ₗ β := (search.label v).getD least

variable (edge : V → V → Option (α ×ₗ β)) (top : α ×ₗ β) (s target : V)

/-- The edges of `todo` leave a settled node and have not been followed yet. -/
structure Inv (todo : V → V → Prop) (search : Search V α β) : Prop where
  source : search.label s = some top
  begun : s ∈ search.order ∨ search.order = []
  unsettled : target ∉ search.order
  once : search.order.Nodup
  improved : ∀ v label, search.label v = some label → least < label
  parent : ∀ v label, search.label v = some label → v ≠ s →
    ∃ u ∈ search.order, search.parent v = some u ∧
      ∃ before e, search.label u = some before ∧ edge u v = some e ∧ label = meet before e
  earlier : ∀ later v before, search.order = later ++ v :: before → v ≠ s →
    ∃ u ∈ before, search.parent v = some u
  pending : ∀ v label, search.label v = some label → v ∉ search.order → (label, v) ∈ search.heap
  stale : ∀ entry ∈ search.heap, ∃ label, search.label entry.2 = some label ∧ entry.1 ≤ label
  settled : ∀ u ∈ search.order, ∃ label, search.label u = some label ∧
    ∀ entry ∈ search.heap, entry.1 ≤ label
  followed : ∀ u ∈ search.order, ∀ v e label, edge u v = some e → search.label u = some label →
    ¬ todo u v → meet label e ≤ search.labelD v

/-- Before the first entry is taken. -/
def initial [DecidableEq V] : Search V α β where
  label v := if v = s then some top else none
  parent _ := none
  heap := [(top, s)]
  order := []

variable {edge top s target} {todo : V → V → Prop}

theorem Inv.initial [DecidableEq V] (positive : least < top) :
    Inv edge top s target (fun _ _ => False) (Search.initial top s : Search V α β) where
  source := if_pos rfl
  begun := .inr rfl
  unsettled := List.not_mem_nil
  once := List.nodup_nil
  improved v label labelled := by
    simp only [Search.initial] at labelled
    split at labelled
    · cases labelled
      exact positive
    · cases labelled
  parent v label labelled other := by
    simp [Search.initial, other] at labelled
  earlier later v before cut := by simp [Search.initial] at cut
  pending v label labelled _ := by
    simp only [Search.initial] at labelled
    split at labelled
    · next same =>
      cases labelled
      rw [same]
      exact List.mem_singleton_self _
    · cases labelled
  stale entry member := by
    rw [List.mem_singleton.mp member]
    exact ⟨top, if_pos rfl, le_refl top⟩
  settled u member := absurd member List.not_mem_nil
  followed u member := absurd member List.not_mem_nil

variable {search : Search V α β}

/-- An entry of the heap that its node no longer needs is dropped. -/
theorem Inv.drop (inv : Inv edge top s target todo search) {label : α ×ₗ β} {v : V}
    {rest : List ((α ×ₗ β) × V)} (popped : search.heap.Perm ((label, v) :: rest))
    (spent : v ∈ search.order ∨ search.label v ≠ some label) :
    Inv edge top s target todo { search with heap := rest } :=
  { inv with
    pending := by
      intro w label' labelled fresh
      rcases List.mem_cons.mp (popped.mem_iff.mp (inv.pending w label' labelled fresh))
        with same | there
      · cases same
        exact absurd labelled (spent.resolve_left fresh)
      · exact there
    stale := fun entry member => inv.stale entry (popped.mem_iff.mpr (List.mem_cons_of_mem _ member))
    settled := by
      intro u member
      obtain ⟨label', labelled, above⟩ := inv.settled u member
      exact ⟨label', labelled, fun entry there =>
        above entry (popped.mem_iff.mpr (List.mem_cons_of_mem _ there))⟩ }

/-- The greatest entry of the heap belongs to a settled node or is its node's label. -/
theorem Inv.popped_label (inv : Inv edge top s target todo search) {label : α ×ₗ β} {v : V}
    (member : (label, v) ∈ search.heap) (greatest : ∀ entry ∈ search.heap, entry.1 ≤ label) :
    v ∈ search.order ∨ search.label v = some label := by
  by_cases settled : v ∈ search.order
  · exact .inl settled
  · obtain ⟨label', labelled, below⟩ := inv.stale (label, v) member
    have above := greatest _ (inv.pending v label' labelled settled)
    have same : label' = label := le_antisymm above below
    exact .inr (same ▸ labelled)

/-- The greatest entry is settled; its edges are to be followed. -/
theorem Inv.settle (inv : Inv edge top s target (fun _ _ => False) search) {label : α ×ₗ β} {v : V}
    {rest : List ((α ×ₗ β) × V)} (popped : search.heap.Perm ((label, v) :: rest))
    (greatest : ∀ entry ∈ search.heap, entry.1 ≤ label) (labelled : search.label v = some label)
    (fresh : v ∉ search.order) (other : v ≠ target) :
    Inv edge top s target (fun u _ => u = v)
      { search with heap := rest, order := v :: search.order } where
  source := inv.source
  begun := by
    rcases inv.begun with begun | nothing
    · exact .inl (List.mem_cons_of_mem _ begun)
    · by_cases first : v = s
      · exact .inl (first ▸ List.mem_cons_self)
      · obtain ⟨u, member, _⟩ := inv.parent v label labelled first
        rw [nothing] at member
        exact absurd member List.not_mem_nil
  unsettled member := (List.mem_cons.mp member).elim (fun same => other same.symm) inv.unsettled
  once := List.nodup_cons.mpr ⟨fresh, inv.once⟩
  improved := inv.improved
  parent w label' labelled' apart := by
    obtain ⟨u, member, rest⟩ := inv.parent w label' labelled' apart
    exact ⟨u, List.mem_cons_of_mem _ member, rest⟩
  earlier later w before cut apart := by
    cases later with
    | nil =>
      cases cut
      obtain ⟨u, member, parent, _⟩ := inv.parent v label labelled apart
      exact ⟨u, member, parent⟩
    | cons _ later => exact inv.earlier later w before (List.cons.inj cut).2 apart
  pending w label' labelled' outside := by
    rw [List.mem_cons, not_or] at outside
    have there := inv.pending w label' labelled' outside.2
    rcases List.mem_cons.mp (popped.mem_iff.mp there) with same | there
    · cases same
      exact absurd rfl outside.1
    · exact there
  stale entry member := inv.stale entry (popped.mem_iff.mpr (List.mem_cons_of_mem _ member))
  settled u member := by
    rcases List.mem_cons.mp member with rfl | member
    · exact ⟨label, labelled, fun entry there =>
        greatest entry (popped.mem_iff.mpr (List.mem_cons_of_mem _ there))⟩
    · obtain ⟨label', labelled', above⟩ := inv.settled u member
      exact ⟨label', labelled', fun entry there =>
        above entry (popped.mem_iff.mpr (List.mem_cons_of_mem _ there))⟩
  followed u member w e label' present labelled' done := by
    rcases List.mem_cons.mp member with same | member
    · exact absurd same done
    · exact inv.followed u member w e label' present labelled' id

theorem labelD_of_label {search : Search V α β} {v : V} {label : α ×ₗ β}
    (labelled : search.label v = some label) : search.labelD v = label := by
  rw [labelD, labelled, Option.getD_some]

/-- An edge that does not lead to a better label is followed. -/
theorem Inv.follow (inv : Inv edge top s target todo search) {v u : V} {label : α ×ₗ β}
    (labelled : search.label v = some label)
    (known : ∀ e, edge v u = some e → meet label e ≤ search.labelD u) :
    Inv edge top s target (fun a b => todo a b ∧ ¬ (a = v ∧ b = u)) search :=
  { inv with
    followed := by
      intro a member b e label' present labelled' done
      by_cases here : a = v ∧ b = u
      · obtain ⟨rfl, rfl⟩ := here
        rw [labelled] at labelled'
        cases labelled'
        exact known e present
      · exact inv.followed a member b e label' present labelled' fun waiting => done ⟨waiting, here⟩ }

theorem Inv.mono (inv : Inv edge top s target todo search) {todo' : V → V → Prop}
    (more : ∀ a b e, edge a b = some e → todo a b → todo' a b) :
    Inv edge top s target todo' search :=
  { inv with
    followed := fun a member b e label present labelled done =>
      inv.followed a member b e label present labelled fun waiting =>
        done (more a b e present waiting) }

/-- Behind a label that no settled node is below, only nodes that are not settled can improve. -/
theorem Inv.fresh_of_better (inv : Inv edge top s target todo search) {u : V}
    {label e : α ×ₗ β}
    (lowest : ∀ w ∈ search.order, ∀ other, search.label w = some other → label ≤ other)
    (better : search.labelD u < meet label e) : u ∉ search.order := by
  intro member
  obtain ⟨old, labelled, _⟩ := inv.settled u member
  rw [labelD_of_label labelled] at better
  exact absurd ((meet_le label e).trans (lowest u member old labelled)) (not_le.mpr better)

/-- An edge of the node settled last leads to a better label. -/
theorem Inv.improve [DecidableEq V] (inv : Inv edge top s target todo search) {v u : V}
    {label e : α ×ₗ β} (settledV : v ∈ search.order) (labelled : search.label v = some label)
    (lowest : ∀ w ∈ search.order, ∀ other, search.label w = some other → label ≤ other)
    (present : edge v u = some e) (better : search.labelD u < meet label e) :
    Inv edge top s target (fun a b => todo a b ∧ ¬ (a = v ∧ b = u))
        (search.improve v u (meet label e)) := by
  have fresh : u ∉ search.order := inv.fresh_of_better lowest better
  have begun : s ∈ search.order :=
    inv.begun.resolve_right (List.ne_nil_of_mem settledV)
  have keeps : ∀ w ∈ search.order, (search.improve v u (meet label e)).label w = search.label w := by
    intro w member
    apply label_improve_of_ne
    rintro rfl
    exact fresh member
  exact {
    source := (keeps s begun).trans inv.source
    begun := .inl begun
    unsettled := inv.unsettled
    once := inv.once
    improved := by
      intro w label' labelled'
      by_cases here : w = u
      · subst here
        rw [label_improve] at labelled'
        cases labelled'
        exact (least_le _).trans_lt better
      · rw [label_improve_of_ne _ _ _ _ here] at labelled'
        exact inv.improved w label' labelled'
    parent := by
      intro w label' labelled' apart
      by_cases here : w = u
      · subst here
        rw [label_improve] at labelled'
        cases labelled'
        exact ⟨v, settledV, parent_improve .., label, e, (keeps v settledV).trans labelled,
          present, rfl⟩
      · rw [label_improve_of_ne _ _ _ _ here] at labelled'
        obtain ⟨a, member, parent, before, e', labelledA, present', is⟩ :=
          inv.parent w label' labelled' apart
        exact ⟨a, member, (parent_improve_of_ne _ _ _ _ here).trans parent, before, e',
          (keeps a member).trans labelledA, present', is⟩
    earlier := by
      intro later w before cut apart
      obtain ⟨a, member, parent⟩ := inv.earlier later w before cut apart
      have here : w ≠ u := by
        intro same
        apply fresh
        rw [← same, show search.order = later ++ w :: before from cut]
        simp
      exact ⟨a, member, (parent_improve_of_ne _ _ _ _ here).trans parent⟩
    pending := by
      intro w label' labelled' outside
      by_cases here : w = u
      · subst here
        rw [label_improve] at labelled'
        cases labelled'
        exact List.mem_cons_self
      · rw [label_improve_of_ne _ _ _ _ here] at labelled'
        exact List.mem_cons_of_mem _ (inv.pending w label' labelled' outside)
    stale := by
      intro entry member
      rcases List.mem_cons.mp member with rfl | member
      · exact ⟨meet label e, label_improve .., le_refl _⟩
      · obtain ⟨label', labelled', below⟩ := inv.stale entry member
        by_cases here : entry.2 = u
        · rw [here] at labelled'
          rw [labelD_of_label labelled'] at better
          refine ⟨meet label e, ?_, below.trans better.le⟩
          rw [here, label_improve]
        · exact ⟨label', (label_improve_of_ne _ _ _ _ here).trans labelled', below⟩
    settled := by
      intro w member
      obtain ⟨label', labelled', above⟩ := inv.settled w member
      refine ⟨label', (keeps w member).trans labelled', fun entry there => ?_⟩
      rcases List.mem_cons.mp there with rfl | there
      · exact (meet_le label e).trans (lowest w member label' labelled')
      · exact above entry there
    followed := by
      intro a member b e' label' present' labelled' done
      rw [keeps a member] at labelled'
      by_cases here : b = u
      · subst here
        rw [labelD_of_label (label_improve ..)]
        by_cases mine : a = v
        · subst mine
          rw [labelled] at labelled'
          rw [present] at present'
          cases labelled'
          cases present'
          exact le_refl _
        · exact (inv.followed a member b e' label' present' labelled' fun waiting =>
            done ⟨waiting, fun both => mine both.1⟩).trans better.le
      · have same : (search.improve v u (meet label e)).labelD b = search.labelD b :=
          by rw [labelD, label_improve_of_ne _ _ _ _ here, labelD]
        rw [same]
        exact inv.followed a member b e' label' present' labelled' fun waiting =>
          done ⟨waiting, fun both => here both.2⟩ }

/-! ## When the search ends -/

/-- The heap is empty, or the target's label was its greatest entry. -/
structure Final (edge : V → V → Option (α ×ₗ β)) (top : α ×ₗ β) (s target : V)
    (search : Search V α β) : Prop where
  inv : Inv edge top s target (fun _ _ => False) search
  apart : s ≠ target
  below : ∀ v label, search.label v = some label → v ∉ search.order →
    ∃ limit, search.label target = some limit ∧ label ≤ limit
  above : ∀ u ∈ search.order, ∀ label limit, search.label u = some label →
    search.label target = some limit → limit ≤ label

theorem Inv.final_of_empty (inv : Inv edge top s target (fun _ _ => False) search)
    (apart : s ≠ target) (empty : search.heap = []) : Final edge top s target search where
  inv := inv
  apart := apart
  below v label labelled outside := by
    have member := inv.pending v label labelled outside
    rw [empty] at member
    exact absurd member List.not_mem_nil
  above u _ label limit _ reached := by
    have member := inv.pending target limit reached inv.unsettled
    rw [empty] at member
    exact absurd member List.not_mem_nil

theorem Inv.final_of_target (inv : Inv edge top s target (fun _ _ => False) search)
    (apart : s ≠ target) {label : α ×ₗ β} (member : (label, target) ∈ search.heap)
    (greatest : ∀ entry ∈ search.heap, entry.1 ≤ label)
    (reached : search.label target = some label) : Final edge top s target search where
  inv := inv
  apart := apart
  below v label' labelled outside :=
    ⟨label, reached, greatest _ (inv.pending v label' labelled outside)⟩
  above u settled label' limit labelled reached' := by
    obtain ⟨own, labelled', above⟩ := inv.settled u settled
    rw [labelled] at labelled'
    rw [reached] at reached'
    cases labelled'
    cases reached'
    exact above _ member

/-- A node and its parents back to the source. -/
inductive Trace (search : Search V α β) (s : V) : V → List V → Prop
  | start : Trace search s s [s]
  | step {u v : V} {hops : List V} (before : Trace search s u hops) (apart : v ≠ s)
      (parent : search.parent v = some u) : Trace search s v (hops ++ [v])

/-- The parents of a settled node were settled before it. -/
theorem Inv.trace_settled (inv : Inv edge top s target todo search) (n : Nat) :
    ∀ (later : List V) (v : V) (before : List V), before.length ≤ n →
      search.order = later ++ v :: before →
      ∃ hops, search.Trace s v hops ∧ hops.Nodup ∧ ∀ x ∈ hops, x ∈ v :: before := by
  induction n with
  | zero =>
    intro later v before short cut
    by_cases first : v = s
    · exact ⟨[s], first ▸ .start, List.nodup_singleton s, by simp [first]⟩
    · obtain ⟨u, member, _⟩ := inv.earlier later v before cut first
      rw [List.eq_nil_of_length_eq_zero (Nat.le_zero.mp short)] at member
      exact absurd member List.not_mem_nil
  | succ n ih =>
    intro later v before short cut
    by_cases first : v = s
    · exact ⟨[s], first ▸ .start, List.nodup_singleton s, by simp [first]⟩
    · obtain ⟨u, member, parent⟩ := inv.earlier later v before cut first
      obtain ⟨between, before', rfl⟩ := List.append_of_mem member
      obtain ⟨hops, trace, distinct, within⟩ := ih (later ++ v :: between) u before'
        (by rw [List.length_append, List.length_cons] at short; omega)
        (by rw [cut, List.append_assoc, List.cons_append])
      have fresh : v ∉ between ++ u :: before' := by
        have once := inv.once
        rw [cut] at once
        exact (List.nodup_cons.mp (List.nodup_append.mp once).2.1).1
      have inside : ∀ x ∈ hops, x ∈ between ++ u :: before' :=
        fun x there => List.mem_append_right _ (within x there)
      refine ⟨hops ++ [v], .step trace first parent, ?_, ?_⟩
      · exact (List.nodup_append_comm.mp (List.nodup_cons.mpr ⟨fun there => fresh (inside v there),
          distinct⟩ : ([v] ++ hops).Nodup))
      · intro x there
        rcases List.mem_append.mp there with there | last
        · exact List.mem_cons_of_mem _ (inside x there)
        · exact List.mem_singleton.mp last ▸ List.mem_cons_self

/-- A labelled node leads back to the source along distinct settled nodes. -/
theorem Inv.trace (inv : Inv edge top s target todo search) {v : V} {label : α ×ₗ β}
    (labelled : search.label v = some label) :
    ∃ hops, search.Trace s v hops ∧ hops.Nodup ∧ hops.length ≤ search.order.length + 1 := by
  by_cases member : v ∈ search.order
  · obtain ⟨later, before, cut⟩ := List.append_of_mem member
    obtain ⟨hops, trace, distinct, within⟩ :=
      inv.trace_settled before.length later v before (le_refl _) cut
    have short := (List.subperm_of_subset distinct within).length_le
    refine ⟨hops, trace, distinct, short.trans ?_⟩
    rw [cut, List.length_append]
    omega
  · by_cases first : v = s
    · exact ⟨[s], first ▸ .start, List.nodup_singleton s, by simp⟩
    · obtain ⟨u, settled, parent, _⟩ := inv.parent v label labelled first
      obtain ⟨later, before, cut⟩ := List.append_of_mem settled
      obtain ⟨hops, trace, distinct, within⟩ :=
        inv.trace_settled before.length later u before (le_refl _) cut
      have inside : ∀ x ∈ hops, x ∈ search.order := by
        intro x there
        rw [cut]
        exact List.mem_append_right _ (within x there)
      have short := (List.subperm_of_subset distinct inside).length_le
      refine ⟨hops ++ [v], .step trace first parent, ?_, ?_⟩
      · exact (List.nodup_append_comm.mp (List.nodup_cons.mpr ⟨fun there => member (inside v there),
          distinct⟩ : ([v] ++ hops).Nodup))
      · rw [List.length_append, List.length_singleton]
        omega

/-- The label of a node is the label of the walk along its parents. -/
theorem Inv.walk_of_trace (inv : Inv edge top s target todo search) {v : V} {hops : List V}
    (trace : search.Trace s v hops) :
    ∀ label, search.label v = some label → Walk edge top s v hops label := by
  induction trace with
  | start =>
    intro label labelled
    rw [inv.source] at labelled
    cases labelled
    exact .start
  | step _ apart parent ih =>
    intro label labelled
    obtain ⟨u, _, parent', before, e, labelledU, present, rfl⟩ := inv.parent _ label labelled apart
    rw [parent] at parent'
    cases parent'
    exact .step (ih before labelledU) present

variable (final : Final edge top s target search)

include final

theorem Final.source_settled : s ∈ search.order := by
  by_contra outside
  obtain ⟨limit, reached, _⟩ := final.below s top final.inv.source outside
  obtain ⟨u, member, _⟩ := final.inv.parent target limit reached final.apart.symm
  rw [final.inv.begun.resolve_left outside] at member
  exact List.not_mem_nil member

/-- A walk is no wider than the label of its end, or than the label of the target: it leaves the
settled nodes where the label is below the target's. -/
theorem Final.width_walk {v : V} {hops : List V} {label : α ×ₗ β}
    (walk : Walk edge top s v hops label) :
    width label ≤ width (search.labelD v) ∨
      ∃ limit, search.label target = some limit ∧ width label ≤ width limit := by
  induction walk with
  | start => exact .inl (by rw [labelD_of_label final.inv.source])
  | @step u v hops label e before present ih =>
    rw [width_meet]
    rcases ih with narrower | ⟨limit, reached, narrower⟩
    · cases labelled : search.label u with
      | none =>
        rw [labelD, labelled] at narrower
        exact .inl ((min_le_left _ _).trans (narrower.trans bot_le))
      | some own =>
        rw [labelD_of_label labelled] at narrower
        by_cases settled : u ∈ search.order
        · have known := width_mono (final.inv.followed u settled v e own present labelled id)
          rw [width_meet] at known
          exact .inl ((min_le_min_right _ narrower).trans known)
        · obtain ⟨limit, reached, below⟩ := final.below u own labelled settled
          exact .inr ⟨limit, reached,
            (min_le_left _ _).trans (narrower.trans (width_mono below))⟩
    · exact .inr ⟨limit, reached, (min_le_left _ _).trans narrower⟩

/-- No walk to the target is wider than its label. -/
theorem Final.width_le_target {hops : List V} {label : α ×ₗ β}
    (walk : Walk edge top s target hops label) : width label ≤ width (search.labelD target) := by
  rcases final.width_walk walk with narrower | ⟨limit, reached, narrower⟩
  · exact narrower
  · rwa [labelD_of_label reached]

/-- No walk to a settled node is wider than its label. -/
theorem Final.width_le_settled {u : V} (settled : u ∈ search.order) {own : α ×ₗ β}
    (labelled : search.label u = some own) {hops : List V} {label : α ×ₗ β}
    (walk : Walk edge top s u hops label) : width label ≤ width own := by
  rcases final.width_walk walk with narrower | ⟨limit, reached, narrower⟩
  · rwa [labelD_of_label labelled] at narrower
  · exact narrower.trans (width_mono (final.above u settled own limit labelled reached))

/-- The walk along the parents is widest from beginning to end. -/
theorem Final.widest_of_trace {v : V} {hops : List V} (trace : search.Trace s v hops) :
    ∀ label, search.label v = some label → v ∈ search.order ∨ v = target →
      Widest edge top s v hops label := by
  induction trace with
  | start =>
    intro label labelled _
    rw [final.inv.source] at labelled
    cases labelled
    exact .start
  | @step u v hops before apart parent ih =>
    intro label labelled place
    obtain ⟨u', settled, parent', own, e, labelledU, present, rfl⟩ :=
      final.inv.parent v label labelled apart
    rw [parent] at parent'
    cases parent'
    refine .step (ih own labelledU (.inl settled)) present ?_
    intro other label' walk
    rcases place with inside | rfl
    · exact final.width_le_settled inside labelled walk
    · have narrower := final.width_le_target walk
      rwa [labelD_of_label labelled] at narrower

/-- When the target has no label, a fresh walk that is widest from beginning to end visits
settled nodes only. -/
theorem Final.settled_of_widest (unreached : search.label target = none) {v : V} {hops : List V}
    {label : α ×ₗ β} (favoured : Widest edge top s v hops label) :
    ⊥ < age label → v ∈ search.order ∧ ∃ own, search.label v = some own ∧
      width own = width label ∧ age label ≤ age own := by
  induction favoured with
  | start => exact fun _ => ⟨final.source_settled, top, final.inv.source, rfl, le_refl _⟩
  | @step u v hops label e before present widest ih =>
    intro fresh
    rw [age_meet] at fresh
    obtain ⟨settled, own, labelledU, same, older⟩ := ih (fresh.trans_le (min_le_left _ _))
    have known := final.inv.followed u settled v e own present labelledU id
    have width_own : width (meet own e) = width (meet label e) := by
      rw [width_meet, width_meet, same]
    have age_own : age (meet label e) ≤ age (meet own e) := min_le_min_right _ older
    cases labelled : search.label v with
    | none =>
      rw [labelD, labelled, Option.getD_none, le_iff] at known
      rcases known with narrower | ⟨_, stale⟩
      · exact absurd narrower not_lt_bot
      · exact absurd (fresh.trans_le (age_own.trans stale)) not_lt_bot
    | some reached =>
      have inside : v ∈ search.order := by
        by_contra outside
        obtain ⟨limit, there, _⟩ := final.below v reached labelled outside
        rw [unreached] at there
        cases there
      obtain ⟨other, trace, _⟩ := final.inv.trace labelled
      have upper := widest other reached (final.inv.walk_of_trace trace reached labelled)
      rw [labelD_of_label labelled] at known
      have lower := width_mono known
      rw [width_own] at lower
      have equal : width reached = width (meet label e) := le_antisymm upper lower
      refine ⟨inside, reached, rfl, equal, age_own.trans ?_⟩
      rcases le_iff.mp known with narrower | ⟨_, fresher⟩
      · rw [width_own, equal] at narrower
        exact absurd narrower (lt_irrefl _)
      · exact fresher

/-- The search labels the target unless all it could find there is the least label. -/
theorem Final.labelled_iff :
    (search.label target).isSome ↔
      (∃ hops label, Walk edge top s target hops label ∧ ⊥ < width label) ∨
      ∃ hops label, Widest edge top s target hops label ∧ ⊥ < age label := by
  constructor
  · intro reached
    obtain ⟨label, labelled⟩ := Option.isSome_iff_exists.mp reached
    obtain ⟨hops, trace, _⟩ := final.inv.trace labelled
    have favoured := final.widest_of_trace trace label labelled (.inr rfl)
    rcases lt_iff.mp (final.inv.improved target label labelled) with wide | ⟨_, fresh⟩
    · exact .inl ⟨hops, label, favoured.walk, wide⟩
    · exact .inr ⟨hops, label, favoured, fresh⟩
  · intro found
    by_contra unreached
    rw [Bool.not_eq_true, Option.isSome_eq_false_iff, Option.isNone_iff_eq_none] at unreached
    rcases found with ⟨hops, label, walk, wide⟩ | ⟨hops, label, favoured, fresh⟩
    · have narrow := final.width_le_target walk
      rw [labelD, unreached] at narrow
      exact absurd (wide.trans_le narrow) not_lt_bot
    · exact final.inv.unsettled (final.settled_of_widest unreached favoured fresh).1

end Search

end OneLink.Library.WidestPath
