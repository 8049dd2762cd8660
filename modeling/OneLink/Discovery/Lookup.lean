/-
# Discovery.Lookup -- the iterative lookup, and what it returns in every run

A lookup asks the nearest peers it has not asked, takes the ids of their replies into `pending`, and
keeps a running list of the nearest.  Inside a round the running list is appended to and compared
with its last entry, and it is sorted and cut off only at the end of the round: an id may be turned
away because it is not nearer than the id appended just before it.

The transport is any function from the round and the peer to a reply, and so is the clock.

Whatever the replies, the collected ids are distinct, no peer is asked twice and the running list
holds as many as it should (`Collecting`).  It holds the nearest of them as long as an id is turned
away only when the running list has `k` nearer ones (`Passed`), which the comparison with the last
entry does not see to.
-/
import OneLink.Discovery.RecordStore
import OneLink.Library.RunningBest

namespace OneLink.Discovery

set_option autoImplicit false

open Library

/-- `MAX_LOOKUP_ITERS` -/
def maxLookupIters : Nat := 64

/-- `MAX_LOOKUP_ALPHA` -/
def maxLookupAlpha : Nat := 32

/-- `MAX_LOOKUP_K` -/
def maxLookupK : Nat := 256

/-- `MAX_LOOKUP_CANDIDATES` -/
def maxLookupCandidates : Nat := 8192

/-- `MAX_LOOKUP_FUTURE_SKEW_SECS` -/
def maxLookupFutureSkewSecs : UInt64 := 300

/-- `MAX_FIND_RESULTS` -/
def maxFindResults : Nat := 32

inductive LookupQueryResult where
  | closerPeers (peers : List NodeId)
  | found (rec : SignedRecord)
  | failed
deriving DecidableEq

inductive LookupResult where
  | closest (peers : List NodeId)
  | value (rec : SignedRecord)
deriving DecidableEq

inductive LookupError where
  | noBootstrap
  | didNotConverge (iters : Nat)
deriving DecidableEq

/-- The order `sort_by_distance` sorts by. -/
def byDistance (target a b : NodeId) : Bool :=
  match closerTo a b target with
  | .lt => true
  | .eq => compareBytes a.bytes b.bytes != .gt
  | .gt => false

/-- `sort_by_distance`. -/
def sortByDistance (ids : List NodeId) (target : NodeId) : List NodeId :=
  ids.insertionSort fun a b => byDistance target a b

structure Lookup where
  target : NodeId
  wantValue : Bool
  alpha : Nat
  k : Nat
  pending : List NodeId
  /-- In the order asked. -/
  queried : List NodeId
  closest : List NodeId
  /-- Not in the source: the ids turned away so far, each with the running list as it was. -/
  turnedAway : List (NodeId × List NodeId)
deriving DecidableEq

/-- What the outside does: the replies, and the time at each of them. -/
structure Network where
  query : (round : Nat) → (peer : NodeId) → LookupQueryResult
  now : (round : Nat) → (peer : NodeId) → UInt64

namespace Lookup

/-- `Lookup::with_params`. -/
def withParams (target : NodeId) (bootstrap : List NodeId) (wantValue : Bool) (alpha k : Nat) :
    Lookup :=
  let pending := ((sortByDistance bootstrap target).destutter (· ≠ ·)).take maxLookupCandidates
  { target := target
    wantValue := wantValue
    alpha := max 1 (min alpha maxLookupAlpha)
    k := max 1 (min k maxLookupK)
    pending := pending
    queried := []
    closest := pending
    turnedAway := [] }

/-- `maybe_add_to_closest`. -/
def maybeAddToClosest (s : Lookup) (c : NodeId) : Bool × Lookup :=
  if s.closest.length < s.k then (true, { s with closest := s.closest ++ [c] })
  else
    match s.closest.getLast? with
    | none => (false, s)
    | some kth =>
      if closerTo c kth s.target = .lt then (true, { s with closest := s.closest ++ [c] })
      else (false, { s with turnedAway := s.turnedAway ++ [(c, s.closest)] })

/-- One id of a reply: whether anything closer was added so far, and the lookup. -/
def consider (peer : NodeId) (acc : Bool × Lookup) (c : NodeId) : Bool × Lookup :=
  if c = peer then acc
  else if acc.2.pending.length < maxLookupCandidates ∧ c ∉ acc.2.queried ∧ c ∉ acc.2.pending then
    let (inserted, s) := { acc.2 with pending := acc.2.pending ++ [c] }.maybeAddToClosest c
    (inserted || acc.1, s)
  else acc

variable (C : RecordCrypto)

/-- Whether a record ends the lookup. -/
def accepts (s : Lookup) (rec : SignedRecord) (now : UInt64) : Bool :=
  s.wantValue && rec.nodeId C = s.target && (rec.verify C).toBool && rec.record.isFresh now &&
    rec.record.publishTimeUnix ≤ saturatingAdd now maxLookupFutureSkewSecs

/-- The loop over a round's replies, each with its time. -/
def handleReplies :
    Bool × Lookup → List (NodeId × LookupQueryResult × UInt64) →
      Option SignedRecord × Bool × Lookup
  | acc, [] => (none, acc)
  | acc, (peer, reply, now) :: rest =>
    match reply with
    | .found rec => if acc.2.accepts C rec now then (some rec, acc) else handleReplies acc rest
    | .closerPeers closer =>
      handleReplies ((closer.take maxFindResults).foldl (consider peer) acc) rest
    | .failed => handleReplies acc rest

def toQuery (s : Lookup) : List NodeId := (s.pending.filter (· ∉ s.queried)).take s.alpha

/-- The replies of a round. -/
def replies (net : Network) (round : Nat) (peers : List NodeId) :
    List (NodeId × LookupQueryResult × UInt64) :=
  peers.map fun peer => (peer, net.query round peer, net.now round peer)

/-- The end of a round. -/
def settle (s : Lookup) : Lookup :=
  { s with
    pending := sortByDistance s.pending s.target
    closest := (sortByDistance s.closest s.target).take s.k }

/-- The rounds that remain; the lookup is the one at the return. -/
def rounds (net : Network) : (remaining : Nat) → Lookup → Except LookupError LookupResult × Lookup
  | 0, s => (.error (.didNotConverge maxLookupIters), s)
  | remaining + 1, s =>
    if s.toQuery = [] then
      (.ok (.closest (s.closest.take s.k)), { s with closest := s.closest.take s.k })
    else
      let asked := { s with queried := s.queried ++ s.toQuery }
      match handleReplies C (false, asked) (replies net remaining s.toQuery) with
      | (some rec, _, s) => (.ok (.value rec), s)
      | (none, anyNewCloser, s) =>
        if ¬ anyNewCloser ∧ s.settle.closest.length ≥ s.settle.k then
          (.ok (.closest s.settle.closest), s.settle)
        else rounds net remaining s.settle

/-- `Lookup::run`. -/
def run (net : Network) (s : Lookup) : Except LookupError LookupResult × Lookup :=
  if s.pending = [] then (.error .noBootstrap, s) else rounds C net maxLookupIters s

end Lookup

/-! ## Sorting -/

section Sorting

variable {target : NodeId}

theorem byDistance_iff {a b : NodeId} :
    byDistance target a b = true ↔ xorDistance a target ≤ xorDistance b target := by
  rw [byDistance, closerTo_eq]
  rcases Nat.lt_trichotomy (xorDistance a target) (xorDistance b target) with less | same | greater
  · simp [if_pos less, Nat.le_of_lt less]
  · obtain rfl : a = b := xorDistance_inj same
    simp [compareBytes_eq]
  · simp [if_neg (Nat.lt_asymm greater), if_pos greater, Nat.not_le.2 greater]

theorem closerTo_lt {a b : NodeId} :
    closerTo a b target = .lt ↔ xorDistance a target < xorDistance b target := by
  rw [closerTo_eq]
  split
  · simp [*]
  · split
    · simp [*]
    · simp [*]

theorem sortByDistance_perm (target : NodeId) (ids : List NodeId) : (sortByDistance ids target).Perm ids :=
  List.perm_insertionSort _ ids

theorem sortByDistance_sorted (target : NodeId) (ids : List NodeId) :
    (sortByDistance ids target).Pairwise fun a b => xorDistance a target ≤ xorDistance b target := by
  have : IsTrans NodeId fun a b => byDistance target a b = true :=
    ⟨fun a b c ab bc => byDistance_iff.2 ((byDistance_iff.1 ab).trans (byDistance_iff.1 bc))⟩
  have : Std.Total fun a b : NodeId => byDistance target a b = true :=
    ⟨fun a b => (Nat.le_total _ _).imp byDistance_iff.2 byDistance_iff.2⟩
  have sorted := List.pairwise_insertionSort (fun a b => byDistance target a b = true) ids
  exact sorted.imp byDistance_iff.1

/-- Different ids are at different distances. -/
theorem strict_of_nodup {ids : List NodeId}
    (sorted : ids.Pairwise fun a b => xorDistance a target ≤ xorDistance b target)
    (nodup : ids.Nodup) : ids.Pairwise fun a b => xorDistance a target < xorDistance b target :=
  (sorted.and nodup).imp fun both => Nat.lt_of_le_of_ne both.1 fun same => both.2 (xorDistance_inj same)

theorem sortByDistance_strict (target : NodeId) {ids : List NodeId} (nodup : ids.Nodup) :
    (sortByDistance ids target).Pairwise fun a b => xorDistance a target < xorDistance b target :=
  strict_of_nodup (sortByDistance_sorted target ids) ((sortByDistance_perm target ids).nodup_iff.2 nodup)

theorem mem_destutter'_of_mem {α : Type} [DecidableEq α] {x : α} :
    ∀ {l : List α} {a : α}, x ∈ a :: l → x ∈ l.destutter' (· ≠ ·) a := by
  intro l
  induction l with
  | nil => exact id
  | cons b l ih =>
    intro a inside
    by_cases other : a ≠ b
    · rw [List.destutter'_cons_pos _ other]
      rcases List.mem_cons.1 inside with rfl | later
      · exact List.mem_cons_self
      · exact List.mem_cons_of_mem _ (ih later)
    · rw [List.destutter'_cons_neg _ other]
      obtain rfl := not_not.1 other
      refine ih ?_
      rcases List.mem_cons.1 inside with rfl | later
      · exact List.mem_cons_self
      · exact later

theorem mem_destutter {α : Type} [DecidableEq α] {x : α} {l : List α} :
    x ∈ l.destutter (· ≠ ·) ↔ x ∈ l := by
  refine ⟨fun inside => (List.destutter_sublist _ l).subset inside, fun inside => ?_⟩
  cases l with
  | nil => cases inside
  | cons a l => exact mem_destutter'_of_mem inside

/-- Equal ids are next to each other in a sorted list. -/
theorem destutter_strict {ids : List NodeId}
    (sorted : ids.Pairwise fun a b => xorDistance a target ≤ xorDistance b target) :
    (ids.destutter (· ≠ ·)).Pairwise fun a b => xorDistance a target < xorDistance b target := by
  have chain := List.isChain_destutter (· ≠ ·) ids
  have order := (sorted.sublist (List.destutter_sublist (· ≠ ·) ids)).isChain
  rw [← List.isChain_iff_pairwise, List.isChain_iff_getElem]
  rw [List.isChain_iff_getElem] at chain order
  intro i inside
  exact Nat.lt_of_le_of_ne (order i inside) fun same => chain i inside (xorDistance_inj same)

end Sorting

/-- An id turned away has `k` nearer ones in the running list. -/
def Passed (target : NodeId) (k : Nat) (turned : NodeId × List NodeId) : Prop :=
  k ≤ turned.2.countP fun x => closerTo x turned.1 target = .lt

instance (target : NodeId) (k : Nat) (turned : NodeId × List NodeId) :
    Decidable (Passed target k turned) := by
  unfold Passed
  infer_instance

theorem passed_iff {target : NodeId} {k : Nat} {turned : NodeId × List NodeId} :
    Passed target k turned ↔ k ≤ ahead (xorDistance · target) turned.2 turned.1 := by
  simp only [Passed, ahead, closerTo_lt]

/-- What holds of a lookup from its start on. -/
structure Collecting (bootstrap : List NodeId) (target : NodeId) (k : Nat) (s : Lookup) : Prop where
  sameTarget : s.target = target
  sameK : s.k = k
  positive : 0 < k
  once : s.pending.Nodup
  closestOnce : s.closest.Nodup
  collected : s.closest ⊆ s.pending
  enough : min k s.pending.length ≤ s.closest.length
  askedOnce : s.queried.Nodup
  asked : s.queried ⊆ s.pending
  initial : Keeps (xorDistance · target) k bootstrap s.closest
  keeps : (∀ turned ∈ s.turnedAway, Passed target k turned) →
    Keeps (xorDistance · target) k s.pending s.closest

section Steps

variable {bootstrap : List NodeId} {target : NodeId} {k : Nat} {s : Lookup}

/-- The running list takes an id in, or has as many as it should and turns it away. -/
theorem maybeAddToClosest_cases (positive : 0 < s.k) (c : NodeId) :
    (s.maybeAddToClosest c).2 = { s with closest := s.closest ++ [c] } ∨
      s.k ≤ s.closest.length ∧
        (s.maybeAddToClosest c).2 = { s with turnedAway := s.turnedAway ++ [(c, s.closest)] } := by
  rw [Lookup.maybeAddToClosest]
  split
  · exact .inl rfl
  · rename_i full
    split
    · rename_i empty
      rw [List.getLast?_eq_none_iff] at empty
      rw [empty, List.length_nil] at full
      omega
    · split
      · exact .inl rfl
      · exact .inr ⟨Nat.not_lt.1 full, rfl⟩

/-- One more collected id. -/
theorem Collecting.add (collecting : Collecting bootstrap target k s) {c : NodeId}
    (fresh : c ∉ s.pending) :
    Collecting bootstrap target k
      ({ s with pending := s.pending ++ [c] }.maybeAddToClosest c).2 := by
  have once : (s.pending ++ [c]).Nodup := by
    rw [List.nodup_append]
    refine ⟨collecting.once, List.nodup_singleton c, fun x old y new same => ?_⟩
    rw [List.mem_singleton.1 new] at same
    exact fresh (same ▸ old)
  have outside : c ∉ s.closest := fun inside => fresh (collecting.collected inside)
  have positive : 0 < s.k := collecting.sameK ▸ collecting.positive
  have enough := collecting.enough
  rcases maybeAddToClosest_cases (s := { s with pending := s.pending ++ [c] }) positive c with
    taken | ⟨full, turned⟩
  · rw [taken]
    exact
      { collecting with
        once := once
        closestOnce := by
          rw [List.nodup_append]
          refine ⟨collecting.closestOnce, List.nodup_singleton c, fun x old y new same => ?_⟩
          rw [List.mem_singleton.1 new] at same
          exact outside (same ▸ old)
        collected := by
          intro x inside
          rcases List.mem_append.1 inside with old | new
          · exact List.mem_append_left _ (collecting.collected old)
          · exact List.mem_append_right _ new
        enough := by
          simp only [List.length_append, List.length_singleton]
          omega
        asked := fun x isAsked => List.mem_append_left _ (collecting.asked isAsked)
        initial := collecting.initial.append_running c
        keeps := fun passed => ((collecting.keeps passed).append_running c).collect
          (.inl (List.mem_append_right _ (List.mem_singleton_self c))) }
  · rw [turned]
    exact
      { collecting with
        once := once
        collected := fun x inside => List.mem_append_left _ (collecting.collected inside)
        enough := by
          have full' : k ≤ s.closest.length := collecting.sameK ▸ full
          exact Nat.le_trans (Nat.min_le_left _ _) full'
        asked := fun x isAsked => List.mem_append_left _ (collecting.asked isAsked)
        keeps := by
          intro passed
          have here := passed (c, s.closest) (List.mem_append_right _ (List.mem_singleton_self _))
          refine (collecting.keeps fun t early => passed t (List.mem_append_left _ early)).collect ?_
          exact .inr (passed_iff.1 here) }

theorem Collecting.consider {acc : Bool × Lookup} (collecting : Collecting bootstrap target k acc.2)
    (peer c : NodeId) : Collecting bootstrap target k (Lookup.consider peer acc c).2 := by
  rw [Lookup.consider]
  split
  · exact collecting
  · split
    · rename_i admitted
      exact collecting.add admitted.2.2
    · exact collecting

theorem Collecting.reply {peer : NodeId} {closer : List NodeId} :
    ∀ {acc : Bool × Lookup}, Collecting bootstrap target k acc.2 →
      Collecting bootstrap target k (closer.foldl (Lookup.consider peer) acc).2 := by
  induction closer with
  | nil => exact id
  | cons c closer ih => exact fun collecting => ih (collecting.consider peer c)

theorem Collecting.handleReplies (C : RecordCrypto)
    (answers : List (NodeId × LookupQueryResult × UInt64)) :
    ∀ acc : Bool × Lookup, Collecting bootstrap target k acc.2 →
      Collecting bootstrap target k (Lookup.handleReplies C acc answers).2.2 := by
  induction answers with
  | nil => exact fun _ => id
  | cons answer answers ih =>
    intro acc collecting
    obtain ⟨peer, reply, now⟩ := answer
    cases reply with
    | found rec =>
      rw [Lookup.handleReplies]
      split
      · exact collecting
      · exact ih acc collecting
    | closerPeers closer => exact ih _ collecting.reply
    | failed => exact ih acc collecting

/-- Asking peers that have not been asked. -/
theorem Collecting.ask (collecting : Collecting bootstrap target k s) :
    Collecting bootstrap target k { s with queried := s.queried ++ s.toQuery } :=
  { collecting with
    askedOnce := by
      rw [List.nodup_append]
      refine ⟨collecting.askedOnce, (collecting.once.filter _).sublist (List.take_sublist _ _), ?_⟩
      rintro x early _ late rfl
      have unasked := (List.mem_filter.1 (List.mem_of_mem_take late)).2
      exact absurd early (of_decide_eq_true unasked)
    asked := by
      intro x isAsked
      rcases List.mem_append.1 isAsked with early | late
      · exact collecting.asked early
      · exact (List.mem_filter.1 (List.mem_of_mem_take late)).1 }

/-- The end of a round. -/
theorem Collecting.settle (collecting : Collecting bootstrap target k s) :
    Collecting bootstrap target k s.settle ∧ s.settle.closest.length ≤ k ∧
      s.settle.closest.Pairwise fun a b => xorDistance a target < xorDistance b target := by
  obtain rfl := collecting.sameTarget
  obtain rfl := collecting.sameK
  have perm := sortByDistance_perm s.target s.closest
  have perm' := sortByDistance_perm s.target s.pending
  have strict := sortByDistance_strict s.target collecting.closestOnce
  refine ⟨?_, List.length_take_le _ _, strict.sublist (List.take_sublist _ _)⟩
  exact
    { sameTarget := rfl
      sameK := rfl
      positive := collecting.positive
      once := perm'.nodup_iff.2 collecting.once
      closestOnce := (perm.nodup_iff.2 collecting.closestOnce).sublist (List.take_sublist _ _)
      collected := fun x inside =>
        perm'.mem_iff.2 (collecting.collected (perm.mem_iff.1 (List.mem_of_mem_take inside)))
      enough := by
        have enough := collecting.enough
        simp only [Lookup.settle, List.length_take, perm.length_eq, perm'.length_eq]
        omega
      askedOnce := collecting.askedOnce
      asked := fun x isAsked => perm'.mem_iff.2 (collecting.asked isAsked)
      initial := (collecting.initial.perm perm).take strict
      keeps := fun passed y isPending outside =>
        (((collecting.keeps passed).perm perm).take strict) y (perm'.mem_iff.1 isPending) outside }

/-- The lookup at its start. -/
theorem collecting_withParams (target : NodeId) (bootstrap : List NodeId) (wantValue : Bool)
    (alpha k : Nat) :
    Collecting bootstrap target (max 1 (min k maxLookupK))
        (Lookup.withParams target bootstrap wantValue alpha k) ∧
      (Lookup.withParams target bootstrap wantValue alpha k).closest.Pairwise fun a b =>
        xorDistance a target < xorDistance b target := by
  have strict := destutter_strict (sortByDistance_sorted target bootstrap)
  have once : ((sortByDistance bootstrap target).destutter (· ≠ ·)).Nodup :=
    strict.imp fun less same => by rw [same] at less; omega
  refine ⟨?_, strict.sublist (List.take_sublist _ _)⟩
  exact
    { sameTarget := rfl
      sameK := rfl
      positive := Nat.le_max_left 1 _
      once := once.sublist (List.take_sublist _ _)
      closestOnce := once.sublist (List.take_sublist _ _)
      collected := fun x inside => inside
      enough := Nat.min_le_right _ _
      askedOnce := List.nodup_nil
      asked := List.nil_subset _
      initial := by
        -- the ids cut off at the start are behind all the others
        have few : max 1 (min k maxLookupK) ≤ maxLookupCandidates := by
          rw [maxLookupK, maxLookupCandidates]
          omega
        intro b isBootstrap outside
        have isSorted : b ∈ (sortByDistance bootstrap target).destutter (· ≠ ·) :=
          mem_destutter.2 ((sortByDistance_perm target bootstrap).mem_iff.2 isBootstrap)
        have cut : Keeps (xorDistance · target) maxLookupCandidates
            ((sortByDistance bootstrap target).destutter (· ≠ ·))
            (((sortByDistance bootstrap target).destutter (· ≠ ·)).take maxLookupCandidates) :=
          Keeps.refl.take strict
        exact Nat.le_trans few (cut b isSorted outside)
      keeps := fun _ => Keeps.refl }

end Steps

/-! ## The run -/

/-- What a lookup promises of its outcome and its state at the return. -/
structure NearestOf (bootstrap : List NodeId) (target : NodeId) (k : Nat) (s : Lookup)
    (l : List NodeId) : Prop where
  once : l.Nodup
  increasing : l.Pairwise fun a b => xorDistance a target < xorDistance b target
  learned : ∀ x ∈ l, x ∈ bootstrap ∨ x ∈ s.pending
  count : l.length = min k (bootstrap ++ s.pending).dedup.length
  nearest : ∀ x ∈ l, ∀ y, y ∈ bootstrap ∨ y ∈ s.pending → y ∉ l →
    xorDistance x target < xorDistance y target

section Run

variable {bootstrap : List NodeId} {target : NodeId} {k : Nat}

/-- A sorted running list, cut off, is the answer. -/
theorem Collecting.nearestOf {s : Lookup} (collecting : Collecting bootstrap target k s)
    (passed : ∀ turned ∈ s.turnedAway, Passed target k turned) (short : s.closest.length ≤ k)
    (increasing : s.closest.Pairwise fun a b => xorDistance a target < xorDistance b target) :
    NearestOf bootstrap target k s s.closest where
  once := collecting.closestOnce
  increasing := increasing
  learned x inside := .inr (collecting.collected inside)
  count := by
    have atMost : s.closest.length ≤ (bootstrap ++ s.pending).dedup.length := by
      refine (List.subperm_of_subset collecting.closestOnce fun x inside => ?_).length_le
      exact List.mem_dedup.2 (List.mem_append_right _ (collecting.collected inside))
    have atLeast : min k (bootstrap ++ s.pending).dedup.length ≤ s.closest.length := by
      by_cases all : bootstrap ⊆ s.pending
      · have same : (bootstrap ++ s.pending).dedup.length ≤ s.pending.length := by
          refine (List.subperm_of_subset (List.nodup_dedup _) fun x inside => ?_).length_le
          exact (List.mem_append.1 (List.mem_dedup.1 inside)).elim (fun early => all early) id
        have enough := collecting.enough
        omega
      · obtain ⟨b, isBootstrap, outside⟩ : ∃ b ∈ bootstrap, b ∉ s.pending := by
          simpa [List.subset_def] using all
        have behind := collecting.initial b isBootstrap fun inside => outside (collecting.collected inside)
        have bound : ahead (xorDistance · target) s.closest b ≤ s.closest.length :=
          List.countP_le_length
        omega
    omega
  nearest x inside y isKnown outside := by
    rcases isKnown with isBootstrap | isPending
    · exact collecting.initial.least short inside isBootstrap outside
    · exact (collecting.keeps passed).least short inside isPending outside

/-- The outcome of any number of rounds. -/
theorem Collecting.rounds (C : RecordCrypto) (net : Network) (remaining : Nat) :
    ∀ {s : Lookup}, Collecting bootstrap target k s →
      (s.closest.Pairwise fun a b => xorDistance a target < xorDistance b target) →
      Collecting bootstrap target k (s.rounds C net remaining).2 ∧
        ∀ l, (s.rounds C net remaining).1 = .ok (.closest l) →
          (s.rounds C net remaining).2.closest = l ∧ l.length ≤ k ∧
            l.Pairwise fun a b => xorDistance a target < xorDistance b target := by
  induction remaining with
  | zero => exact fun collecting _ => ⟨collecting, nofun⟩
  | succ remaining ih =>
    intro s collecting increasing
    rw [Lookup.rounds]
    split
    · -- nobody is left to ask
      obtain rfl := collecting.sameK
      refine ⟨?_, ?_⟩
      · exact
          { collecting with
            closestOnce := collecting.closestOnce.sublist (List.take_sublist _ _)
            collected := fun x inside => collecting.collected (List.mem_of_mem_take inside)
            enough := by
              have enough := collecting.enough
              simp only [List.length_take]
              omega
            initial := collecting.initial.take increasing
            keeps := fun passed => (collecting.keeps passed).take increasing }
      · rintro l answer
        cases answer
        exact ⟨rfl, List.length_take_le _ _, increasing.sublist (List.take_sublist _ _)⟩
    · have answered := collecting.ask.handleReplies C (Lookup.replies net remaining s.toQuery)
        (false, { s with queried := s.queried ++ s.toQuery })
      dsimp only
      generalize Lookup.handleReplies C (false, { s with queried := s.queried ++ s.toQuery })
        (Lookup.replies net remaining s.toQuery) = outcome at answered ⊢
      obtain ⟨found, anyNewCloser, s'⟩ := outcome
      cases found with
      | some rec => exact ⟨answered, nofun⟩
      | none =>
        obtain ⟨settled, short, increasing'⟩ := answered.settle
        dsimp only
        split
        · refine ⟨settled, ?_⟩
          rintro l answer
          cases answer
          exact ⟨rfl, short, increasing'⟩
        · exact ih settled increasing'

/-- **A lookup returns the nearest ids it learned** in every run in which an id is turned away only
when the running list has `k` nearer ones; it asks no peer twice in any run. -/
theorem lookup_nearest (C : RecordCrypto) (net : Network) (target : NodeId)
    (bootstrap : List NodeId) (wantValue : Bool) (alpha k : Nat) :
    ((Lookup.withParams target bootstrap wantValue alpha k).run C net).2.queried.Nodup ∧
      ((∀ turned ∈ ((Lookup.withParams target bootstrap wantValue alpha k).run C net).2.turnedAway,
          Passed target (max 1 (min k maxLookupK)) turned) →
        ∀ l, ((Lookup.withParams target bootstrap wantValue alpha k).run C net).1 =
            .ok (.closest l) →
          NearestOf bootstrap target (max 1 (min k maxLookupK))
            ((Lookup.withParams target bootstrap wantValue alpha k).run C net).2 l) := by
  obtain ⟨collecting, increasing⟩ := collecting_withParams target bootstrap wantValue alpha k
  rw [Lookup.run]
  split
  · exact ⟨collecting.askedOnce, fun _ => nofun⟩
  · obtain ⟨returned, answers⟩ := collecting.rounds C net maxLookupIters increasing
    refine ⟨returned.askedOnce, fun passed l answer => ?_⟩
    obtain ⟨rfl, short, increasing'⟩ := answers l answer
    exact returned.nearestOf passed short increasing'

end Run

/-! A lookup of two peers, the nearer of which answers with two more. -/

def peerAt (byte : UInt8) : NodeId := ⟨byte :: List.replicate 31 0, rfl⟩

def replying (closer : List NodeId) : Network where
  query _ peer := if peer = peerAt 64 then .closerPeers closer else .closerPeers []
  now _ _ := 0

def anyRecord : RecordCrypto where
  fromPubkey _ := peerAt 0
  keyAccepted _ := true
  signatureValid _ _ _ := true

def twoPeers : Lookup := .withParams (peerAt 0) [peerAt 64, peerAt 128] false 3 2

/-- The farther id is turned away while the running list has two nearer ones. -/
theorem lookup_nearest_two :
    NearestOf [peerAt 64, peerAt 128] (peerAt 0) 2
      (twoPeers.run anyRecord (replying [peerAt 32, peerAt 1, peerAt 96])).2 [peerAt 1, peerAt 32] :=
  (lookup_nearest anyRecord (replying [peerAt 32, peerAt 1, peerAt 96]) (peerAt 0)
    [peerAt 64, peerAt 128] false 3 2).2 (by decide +kernel) _ (by decide +kernel)

/-- The nearest id comes first, and the one after it is compared with it. -/
theorem lookup_drops_nearer :
    (twoPeers.run anyRecord (replying [peerAt 1, peerAt 32])).1 =
        .ok (.closest [peerAt 1, peerAt 64]) ∧
      ¬ NearestOf [peerAt 64, peerAt 128] (peerAt 0) 2
        (twoPeers.run anyRecord (replying [peerAt 1, peerAt 32])).2 [peerAt 1, peerAt 64] := by
  refine ⟨by decide +kernel, fun answer => ?_⟩
  have nearer := answer.nearest (peerAt 64) (by decide) (peerAt 32) (.inr (by decide +kernel))
    (by decide)
  exact absurd nearer (by decide +kernel)

end OneLink.Discovery
