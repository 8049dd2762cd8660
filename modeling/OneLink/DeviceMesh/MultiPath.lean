/-
# DeviceMesh.MultiPath — several routes without each other's bottlenecks

`multi_path_plan` picks the best route, removes its narrowest link from a copy of the table and
picks again.  The removed link is the one that limited the route (`findBottleneckEdge_spec`), so
a later route is another one and no wider.  The plan stops short of `k` routes when the picker
finds no route, which is more often than there is none: the plan is complete exactly when the
picker sees every device it can reach in each of the tables (`realAlternatives_iff`).
-/
import OneLink.DeviceMesh.Route

namespace OneLink.DeviceMesh

open Library
open Library.WidestPath (Walk Widest width age links)

set_option autoImplicit false

namespace MultiPath

/-- The score of a direct link, as `find_bottleneck_edge` looks it up. -/
def edgeTau (table : RouteTable) (pair : DeviceId × DeviceId) : UInt32 :=
  match table.announcementFor pair.1 with
  | none => tauUnknown
  | some ann =>
    match ann.links.find? fun l => l.peerDeviceId = pair.2 ∧ l.direct with
    | none => tauUnknown
    | some link => link.tauScore

def findBottleneckEdge (route : Route) (table : RouteTable) : Option (DeviceId × DeviceId) :=
  if route.hops.length < 2 then none
  else minBy (fun worst next => edgeTau table next < edgeTau table worst) (links route.hops)

def withoutLink (ann : RouteAnnouncement) (v : DeviceId) : RouteAnnouncement :=
  { ann with links := ann.links.filter fun l => ¬ (l.peerDeviceId = v ∧ l.direct) }

theorem formed_withoutLink {announcer : DeviceId} {ann : RouteAnnouncement}
    (formed : ann.Formed announcer) (v : DeviceId) : (withoutLink ann v).Formed announcer where
  author := formed.author
  ascending := formed.ascending.filter _
  noLoop l member := formed.noLoop l (List.mem_filter.mp member).1

/-- Remove the link from `u` to `v`. -/
def redactEdge (table : RouteTable) (u v : DeviceId) : RouteTable :=
  match found : table.announcementFor u with
  | none => table
  | some ann =>
    { announcements := table.announcements.alter u fun _ => withoutLink ann v
      formed := by
        intro announcer other there
        rw [SortedMap.get?_alter] at there
        split at there
        · next same =>
          cases there
          exact same ▸ formed_withoutLink (table.formed u ann found) v
        · exact table.formed announcer other there }

/-- The routes, each with the link that was removed after it. -/
def planSteps (src dst : DeviceId) :
    Nat → RouteTable → List (Route × Option (DeviceId × DeviceId))
  | 0, _ => []
  | k + 1, working =>
    match pickBestRoute working src dst with
    | none => []
    | some route =>
      match findBottleneckEdge route working with
      | none => [(route, none)]
      | some (u, v) =>
        (route, some (u, v)) :: planSteps src dst k (redactEdge working u v)

end MultiPath

open MultiPath in
def multiPathPlan (table : RouteTable) (src dst : DeviceId) (k : Nat) : List Route :=
  (planSteps src dst k table).map (·.1)

namespace MultiPath

/-! ## The removed link -/

theorem edgeTau_of_edge {table : RouteTable} {pair : DeviceId × DeviceId} {e : Nat ×ₗ Nat}
    (present : table.edge pair.1 pair.2 = some e) : (edgeTau table pair).toNat = width e := by
  obtain ⟨link, direct, rfl⟩ := Option.map_eq_some_iff.mp present
  obtain ⟨ann, found, first⟩ := Option.bind_eq_some_iff.mp direct
  rw [edgeTau, found]
  simp only [first]
  rfl

theorem edge_le_top {table : RouteTable} (a b : DeviceId) (e : Nat ×ₗ Nat)
    (present : table.edge a b = some e) : width e ≤ width PickRoute.topLabel := by
  obtain ⟨link, _, rfl⟩ := Option.map_eq_some_iff.mp present
  show link.tauScore.toNat ≤ 0xffffffff
  have bound := link.tauScore.toNat_lt
  omega

/-- The removed link is on the route and has its score. -/
theorem findBottleneckEdge_spec {table : RouteTable} {src dst : DeviceId} (apart : src ≠ dst)
    {route : Route} (best : BestRoute table src dst route) :
    ∃ u v, findBottleneckEdge route table = some (u, v) ∧ (u, v) ∈ links route.hops ∧
      ∃ link, table.directLink u v = some link ∧ link.tauScore = route.bottleneckTau := by
  obtain ⟨pair, member, e, present, same⟩ :=
    best.walk.narrowest edge_le_top apart.symm
  have long : ¬ route.hops.length < 2 := by
    intro short
    rcases hops : route.hops with _ | ⟨first, _ | ⟨second, rest⟩⟩
    · rw [hops] at member
      exact List.not_mem_nil member
    · rw [hops] at member
      exact List.not_mem_nil member
    · rw [hops, List.length_cons, List.length_cons] at short
      omega
  cases worst : minBy (fun worst next => edgeTau table next < edgeTau table worst)
      (links route.hops) with
  | none =>
    rw [FanOut.minBy_eq_none.mp worst] at member
    exact absurd member List.not_mem_nil
  | some removed =>
    have listed := FanOut.minBy_mem worst
    have lowest : (edgeTau table removed).toNat ≤ (edgeTau table pair).toNat := by
      refine PickRoute.minBy_greatest (fun p => OrderDual.toDual (edgeTau table p).toNat)
        ?_ ?_ worst pair member
      · intro a b less
        exact (UInt32.lt_iff_toNat_lt.mp (of_decide_eq_true less)).le
      · intro a b notLess
        exact not_lt.mp fun less =>
          of_decide_eq_false notLess (UInt32.lt_iff_toNat_lt.mpr less)
    obtain ⟨e', present', wide⟩ := best.walk.edge_of_links removed listed
    obtain ⟨link, direct, rfl⟩ := Option.map_eq_some_iff.mp present'
    refine ⟨removed.1, removed.2, ?_, listed, link, direct, ?_⟩
    · rw [findBottleneckEdge, if_neg long, worst]
    · rw [edgeTau_of_edge present', edgeTau_of_edge present, same] at lowest
      exact UInt32.toNat_inj.mp (le_antisymm lowest wide)

/-! ## The smaller table -/

theorem announcementFor_redactEdge (table : RouteTable) (u v w : DeviceId) :
    (redactEdge table u v).announcementFor w =
      if u = w then (table.announcementFor w).map (withoutLink · v) else table.announcementFor w := by
  rw [redactEdge]
  split
  · next silent =>
    split
    · next same => rw [← same, silent, Option.map_none]
    · rfl
  · next ann found =>
    show (table.announcements.alter u fun _ => withoutLink ann v).get? w = _
    rw [SortedMap.get?_alter]
    split
    · next same => rw [← same, found, Option.map_some]
    · rfl

/-- Every link is kept but the removed one. -/
theorem directLink_redactEdge (table : RouteTable) (u v a b : DeviceId) :
    (redactEdge table u v).directLink a b =
      if u = a ∧ v = b then none else table.directLink a b := by
  rw [RouteTable.directLink, announcementFor_redactEdge, RouteTable.directLink]
  by_cases here : u = a
  · rw [if_pos here, Option.bind_map]
    cases table.announcementFor a with
    | none => split <;> rfl
    | some ann =>
      show (ann.links.filter _).find? _ = if u = a ∧ v = b then none else ann.links.find? _
      rw [List.find?_filter]
      by_cases there : v = b
      · rw [if_pos ⟨here, there⟩, List.find?_eq_none]
        rintro link _ both
        simp only [there, decide_not, Bool.not_eq_true', decide_eq_false_iff_not,
          decide_eq_true_eq] at both
        exact both.1 both.2
      · rw [if_neg fun both => there both.2]
        congr 1
        funext link
        by_cases leads : link.peerDeviceId = b
        · simp [leads, Ne.symm there]
        · simp [leads]
  · rw [if_neg here, if_neg fun both => here both.1]

theorem edge_redactEdge (table : RouteTable) (u v a b : DeviceId) :
    (redactEdge table u v).edge a b = if u = a ∧ v = b then none else table.edge a b := by
  rw [RouteTable.edge, directLink_redactEdge, RouteTable.edge]
  split
  · rfl
  · rfl

theorem edge_of_redactEdge {table : RouteTable} {u v : DeviceId} (a b : DeviceId) (e : Nat ×ₗ Nat)
    (present : (redactEdge table u v).edge a b = some e) : table.edge a b = some e := by
  rw [edge_redactEdge] at present
  split at present
  · cases present
  · exact present

/-! ## The plan -/

/-- What the steps of a plan from `table` are: routes of the table with their narrowest links. -/
inductive Steps (src dst : DeviceId) :
    RouteTable → List (Route × Option (DeviceId × DeviceId)) → Prop
  | done (table : RouteTable) : Steps src dst table []
  | step {table : RouteTable} {route : Route} {u v : DeviceId}
      {rest : List (Route × Option (DeviceId × DeviceId))} (best : BestRoute table src dst route)
      (removed : (u, v) ∈ links route.hops)
      (narrowest : ∃ link, table.directLink u v = some link ∧ link.tauScore = route.bottleneckTau)
      (later : Steps src dst (redactEdge table u v) rest) :
      Steps src dst table ((route, some (u, v)) :: rest)

theorem Steps.paths {src dst : DeviceId} {table : RouteTable}
    {steps : List (Route × Option (DeviceId × DeviceId))} (run : Steps src dst table steps) :
    ∀ step ∈ steps, Walk table.edge PickRoute.topLabel src dst step.1.hops step.1.label ∧
      step.1.hops.Nodup := by
  induction run with
  | done => exact fun _ nothing => absurd nothing List.not_mem_nil
  | step best _ _ _ ih =>
    intro step member
    rcases List.mem_cons.mp member with rfl | later
    · exact ⟨best.walk, best.simple⟩
    · exact ⟨(ih step later).1.mono edge_of_redactEdge, (ih step later).2⟩

/-- The removed link limited the route. -/
theorem Steps.limits {src dst : DeviceId} {table : RouteTable}
    {steps : List (Route × Option (DeviceId × DeviceId))} (run : Steps src dst table steps) :
    ∀ step ∈ steps, ∃ u v link, step.2 = some (u, v) ∧ (u, v) ∈ links step.1.hops ∧
      table.directLink u v = some link ∧ link.tauScore = step.1.bottleneckTau := by
  induction run with
  | done => exact fun _ nothing => absurd nothing List.not_mem_nil
  | step best removed narrowest _ ih =>
    intro step member
    rcases List.mem_cons.mp member with rfl | later
    · obtain ⟨link, direct, score⟩ := narrowest
      exact ⟨_, _, link, rfl, removed, direct, score⟩
    · obtain ⟨u, v, link, is, there, direct, score⟩ := ih step later
      refine ⟨u, v, link, is, there, ?_, score⟩
      rw [directLink_redactEdge] at direct
      split at direct
      · cases direct
      · exact direct

/-- A later route avoids the removed link, so it is another one, and it is no wider. -/
theorem Steps.pairwise {src dst : DeviceId} {table : RouteTable}
    {steps : List (Route × Option (DeviceId × DeviceId))} (run : Steps src dst table steps) :
    steps.Pairwise fun step later => (∀ pair, step.2 = some pair → pair ∉ links later.1.hops) ∧
      step.1.hops ≠ later.1.hops ∧ later.1.bottleneckTau ≤ step.1.bottleneckTau := by
  induction run with
  | done => exact List.Pairwise.nil
  | @step table route u v rest best removed _ later ih =>
    refine List.pairwise_cons.mpr ⟨fun step member => ?_, ih⟩
    have walk := (later.paths step member).1
    have avoids : (u, v) ∉ links step.1.hops := by
      intro follows
      obtain ⟨e, present, _⟩ := walk.edge_of_links (u, v) follows
      rw [edge_redactEdge, if_pos ⟨rfl, rfl⟩] at present
      cases present
    refine ⟨?_, ?_, ?_⟩
    · rintro pair ⟨⟩
      exact avoids
    · intro same
      exact avoids (same ▸ removed)
    · exact UInt32.le_iff_toNat_le.mpr (best.widest _ _ (walk.mono edge_of_redactEdge))

theorem steps_planSteps {src dst : DeviceId} (apart : src ≠ dst) (k : Nat) (table : RouteTable) :
    Steps src dst table (planSteps src dst k table) := by
  induction k generalizing table with
  | zero => exact .done table
  | succ k ih =>
    rw [planSteps]
    cases picked : pickBestRoute table src dst with
    | none => exact .done table
    | some route =>
      have best := (pickBestRoute_spec table apart).2.1 route picked
      obtain ⟨u, v, edge, removed, narrowest⟩ := findBottleneckEdge_spec apart best
      simp only [edge]
      exact .step best removed narrowest (ih (redactEdge table u v))

/-- The table without the links that the steps removed. -/
def remaining (table : RouteTable) (steps : List (Route × Option (DeviceId × DeviceId))) :
    RouteTable :=
  (steps.filterMap (·.2)).foldl (fun working pair => redactEdge working pair.1 pair.2) table

theorem length_planSteps_le (src dst : DeviceId) (k : Nat) (table : RouteTable) :
    (planSteps src dst k table).length ≤ k := by
  induction k generalizing table with
  | zero => exact le_refl 0
  | succ k ih =>
    rw [planSteps]
    split
    · exact Nat.zero_le _
    · split
      · exact Nat.succ_le_succ (Nat.zero_le k)
      · exact Nat.succ_le_succ (ih _)

/-- The picker finds a route in each table of the plan in which there is one. -/
def Supplied (src dst : DeviceId) : Nat → RouteTable → Prop
  | 0, _ => True
  | k + 1, working =>
    (Reachable working src dst → Findable working src dst) ∧
    ∀ route u v, pickBestRoute working src dst = some route →
      findBottleneckEdge route working = some (u, v) →
      Supplied src dst k (redactEdge working u v)

theorem complete_iff {src dst : DeviceId} (apart : src ≠ dst) (k : Nat) (table : RouteTable) :
    ((planSteps src dst k table).length < k →
      ¬ Reachable (remaining table (planSteps src dst k table)) src dst) ↔
    Supplied src dst k table := by
  induction k generalizing table with
  | zero => exact iff_of_true (fun impossible => absurd impossible (Nat.not_lt_zero _)) trivial
  | succ k ih =>
    have found := (pickBestRoute_spec table apart).2.2
    rw [planSteps, Supplied]
    cases picked : pickBestRoute table src dst with
    | none =>
      rw [picked] at found
      have unfindable : ¬ Findable table src dst := fun findable => by simpa using found.mpr findable
      constructor
      · intro unreachable
        exact ⟨fun reachable => absurd reachable (unreachable (Nat.succ_pos k)),
          fun route u v impossible => by cases impossible⟩
      · rintro ⟨findable, _⟩ _ reachable
        exact unfindable (findable reachable)
    | some route =>
      have best := (pickBestRoute_spec table apart).2.1 route picked
      obtain ⟨u, v, edge, _⟩ := findBottleneckEdge_spec apart best
      have findable : Findable table src dst := found.mp (by rw [picked]; rfl)
      have rest := ih (redactEdge table u v)
      simp only [edge]
      constructor
      · intro complete
        refine ⟨fun _ => findable, fun route' u' v' same there => ?_⟩
        cases same
        rw [edge] at there
        cases there
        exact rest.mp fun short => complete (Nat.succ_lt_succ short)
      · rintro ⟨_, supplied⟩ short
        exact rest.mpr (supplied route u v rfl edge) (Nat.lt_of_succ_lt_succ short)

end MultiPath

open MultiPath in
/-- What a multi-path plan promises. -/
structure RealAlternatives (table : RouteTable) (src dst : DeviceId) (k : Nat) : Prop where
  few : (multiPathPlan table src dst k).length ≤ k
  paths : ∀ route ∈ multiPathPlan table src dst k,
    Walk table.edge PickRoute.topLabel src dst route.hops route.label ∧ route.hops.Nodup
  distinct : (multiPathPlan table src dst k).Pairwise fun route later => route.hops ≠ later.hops
  descending : (multiPathPlan table src dst k).Pairwise fun route later =>
    later.bottleneckTau ≤ route.bottleneckTau
  limits : ∀ step ∈ planSteps src dst k table, ∃ u v link, step.2 = some (u, v) ∧
    (u, v) ∈ links step.1.hops ∧ table.directLink u v = some link ∧
      link.tauScore = step.1.bottleneckTau
  avoids : (planSteps src dst k table).Pairwise fun step later =>
    ∀ pair, step.2 = some pair → pair ∉ links later.1.hops
  complete : (multiPathPlan table src dst k).length < k →
    ¬ Reachable (remaining table (planSteps src dst k table)) src dst

open MultiPath in
/-- **A plan has all the alternatives exactly when the picker finds a route in each of its tables
in which there is one.**  Its routes are real alternatives in any case. -/
theorem realAlternatives_iff (table : RouteTable) (src dst : DeviceId) (k : Nat)
    (apart : src ≠ dst) : RealAlternatives table src dst k ↔ Supplied src dst k table := by
  have run := steps_planSteps apart k table
  have length : (multiPathPlan table src dst k).length = (planSteps src dst k table).length :=
    List.length_map _
  constructor
  · intro real
    refine (complete_iff apart k table).mp fun short => real.complete ?_
    rw [length]
    exact short
  · intro supplied
    exact {
      few := length.le.trans (length_planSteps_le src dst k table)
      paths := by
        intro route member
        obtain ⟨step, there, rfl⟩ := List.mem_map.mp member
        exact run.paths step there
      distinct := List.pairwise_map.mpr (run.pairwise.imp fun pair => pair.2.1)
      descending := List.pairwise_map.mpr (run.pairwise.imp fun pair => pair.2.2)
      limits := run.limits
      avoids := run.pairwise.imp fun pair => pair.1
      complete := by
        rw [length]
        exact (complete_iff apart k table).mpr supplied }

section Examples

open MultiPath in
theorem realAlternatives_iff_scored :
    RealAlternatives (phoneToLaptop 7 0) ⟨List.replicate 16 1, rfl⟩ ⟨List.replicate 16 2, rfl⟩ 1 :=
  (realAlternatives_iff (phoneToLaptop 7 0) _ _ 1 (by decide)).mpr
    ⟨fun _ => .inl ⟨_, _, phoneToLaptop_walk 7 0, by decide⟩, fun _ _ _ _ _ => trivial⟩

/-- One route was asked for, a link of score zero leads there, and the plan is empty. -/
theorem zero_link_unplanned :
    let phone : DeviceId := ⟨List.replicate 16 1, rfl⟩
    let laptop : DeviceId := ⟨List.replicate 16 2, rfl⟩
    multiPathPlan (phoneToLaptop 0 0) phone laptop 1 = [] ∧
      ¬ RealAlternatives (phoneToLaptop 0 0) phone laptop 1 := by
  intro phone laptop
  have nothing : MultiPath.planSteps phone laptop 1 (phoneToLaptop 0 0) = [] := by decide
  have empty : multiPathPlan (phoneToLaptop 0 0) phone laptop 1 = [] := by
    rw [multiPathPlan, nothing, List.map_nil]
  refine ⟨empty, fun real => ?_⟩
  have unreachable := real.complete (by rw [empty]; exact Nat.one_pos)
  rw [nothing] at unreachable
  exact unreachable ⟨_, _, phoneToLaptop_walk 0 0⟩

end Examples

end OneLink.DeviceMesh
