/-
# DeviceMesh.Route — the widest route between two devices

`pick_best_route` is Dijkstra's search with the least score on the way in place of the distance:
it settles the node with the greatest label, the score first and then the second it was seen, and
improves the labels of the peers behind its direct links.  `Search.view` reads the maps and the
heap as a search for widest walks; `searchLoop_spec` follows the loop to its end, and
`traceBack_eq` the way back along `prev`.

An unknown peer counts as one with score zero, last seen in second zero.  So a link that brings
no more than that is not taken, and a device behind such links is not found (`routesTruly_iff`).
-/
import OneLink.DeviceMesh.RouteTable
import OneLink.Library.WidestPath

namespace OneLink.DeviceMesh

open Library
open Library.WidestPath (Walk Widest width age)

set_option autoImplicit false

def tauMax : UInt32 := 0xffffffff
def seenMax : UInt64 := 0xffffffffffffffff

/-- The score of an edge or a node that is not known. -/
def tauUnknown : UInt32 := 0

structure Route where
  hops : List DeviceId
  bottleneckTau : UInt32
  minLastSeenUnix : UInt64
  deriving DecidableEq

namespace PickRoute

structure Entry where
  tau : UInt32
  seen : UInt64
  node : DeviceId
  deriving DecidableEq

/-- The order of the heap's tuples. -/
def Entry.less (a b : Entry) : Bool :=
  a.tau < b.tau ∨ (a.tau = b.tau ∧ (a.seen < b.seen ∨ (a.seen = b.seen ∧ a.node < b.node)))

/-- `BinaryHeap::pop` -/
def pop (heap : List Entry) : Option (Entry × List Entry) :=
  (minBy Entry.less heap).map fun greatest => (greatest, heap.erase greatest)

structure Search where
  bestTau : SortedMap DeviceId UInt32
  bestSeen : SortedMap DeviceId UInt64
  prev : SortedMap DeviceId DeviceId
  heap : List Entry

def start (src : DeviceId) : Search where
  bestTau := SortedMap.empty.alter src fun _ => tauMax
  bestSeen := SortedMap.empty.alter src fun _ => seenMax
  prev := .empty
  heap := [⟨tauMax, seenMax, src⟩]

def relax (cur : Entry) (search : Search) (link : PeerLink) : Search :=
  if ¬ link.direct then search
  else
    let newBottleneck := if cur.tau ≤ link.tauScore then cur.tau else link.tauScore
    let newSeen := if cur.seen ≤ link.lastSeenUnix then cur.seen else link.lastSeenUnix
    let prior := (search.bestTau.get? link.peerDeviceId).getD tauUnknown
    let priorSeen := (search.bestSeen.get? link.peerDeviceId).getD 0
    if newBottleneck > prior ∨ (newBottleneck = prior ∧ newSeen > priorSeen) then
      { bestTau := search.bestTau.alter link.peerDeviceId fun _ => newBottleneck
        bestSeen := search.bestSeen.alter link.peerDeviceId fun _ => newSeen
        prev := search.prev.alter link.peerDeviceId fun _ => cur.node
        heap := ⟨newBottleneck, newSeen, link.peerDeviceId⟩ :: search.heap }
    else search

def expand (table : RouteTable) (cur : Entry) (search : Search) : Search :=
  match table.announcementFor cur.node with
  | none => search
  | some ann => ann.links.foldl (relax cur) search

/-- The main loop, `none` when it takes more than the given number of steps. -/
def searchLoop (table : RouteTable) (dst : DeviceId) : Nat → Search → Option Search
  | 0, _ => none
  | fuel + 1, search =>
    match pop search.heap with
    | none => some search
    | some (cur, rest) =>
      let popped := { search with heap := rest }
      if cur.tau < (popped.bestTau.get? cur.node).getD tauUnknown then
        searchLoop table dst fuel popped
      else if cur.node = dst then some popped
      else searchLoop table dst fuel (expand table cur popped)

/-- The way back along `prev`, the cursor and the hops in their final order. -/
def traceBack (prev : SortedMap DeviceId DeviceId) (src : DeviceId) :
    Nat → DeviceId → List DeviceId → Option (DeviceId × List DeviceId)
  | 0, _, _ => none
  | fuel + 1, cursor, hops =>
    match prev.get? cursor with
    | none => some (cursor, hops)
    | some p => if p = src then some (p, p :: hops) else traceBack prev src fuel p (p :: hops)

def linkCount (table : RouteTable) : Nat :=
  (table.announcements.items.map fun entry => entry.2.links.length).sum

end PickRoute

open PickRoute in
/-- `pick_best_route` with a bound on the steps of its two loops. -/
def pickBestRouteWithin (fuel : Nat) (table : RouteTable) (src dst : DeviceId) :
    Option (Option Route) :=
  if src = dst then some (some ⟨[src], tauMax, seenMax⟩)
  else
    match searchLoop table dst fuel (start src) with
    | none => none
    | some final =>
      match final.bestTau.get? dst with
      | none => some none
      | some finalTau =>
        let finalSeen := (final.bestSeen.get? dst).getD 0
        match traceBack final.prev src fuel dst [dst] with
        | none => none
        | some (cursor, hops) =>
          if cursor ≠ src then some none else some (some ⟨hops, finalTau, finalSeen⟩)

/-- As many steps as the loops can take. -/
def searchFuel (table : RouteTable) : Nat := PickRoute.linkCount table + 2

def pickBestRoute (table : RouteTable) (src dst : DeviceId) : Option Route :=
  (pickBestRouteWithin (searchFuel table) table src dst).getD none

/-! ## The graph of the direct links -/

namespace RouteTable

def directLink (table : RouteTable) (u v : DeviceId) : Option PeerLink :=
  (table.announcementFor u).bind fun ann =>
    ann.links.find? fun l => l.peerDeviceId = v ∧ l.direct

end RouteTable

/-- Score and second of a link. -/
def PeerLink.label (link : PeerLink) : Nat ×ₗ Nat :=
  toLex (link.tauScore.toNat, link.lastSeenUnix.toNat)

namespace RouteTable

def edge (table : RouteTable) (u v : DeviceId) : Option (Nat ×ₗ Nat) :=
  (table.directLink u v).map PeerLink.label

/-- The links of an announcement lead to different peers. -/
theorem link_unique {table : RouteTable} {u : DeviceId} {ann : RouteAnnouncement}
    (found : table.announcementFor u = some ann) {l l' : PeerLink} (member : l ∈ ann.links)
    (member' : l' ∈ ann.links) (same : l.peerDeviceId = l'.peerDeviceId) : l = l' := by
  have sorted := (table.formed u ann found).ascending
  have distinct : (ann.links.map (·.peerDeviceId)).Nodup :=
    (List.pairwise_map.mpr sorted).imp ne_of_lt
  exact List.inj_on_of_nodup_map distinct member member' same

theorem directLink_eq_some {table : RouteTable} {u v : DeviceId} {link : PeerLink} :
    table.directLink u v = some link ↔ ∃ ann, table.announcementFor u = some ann ∧
      link ∈ ann.links ∧ link.peerDeviceId = v ∧ link.direct = true := by
  rw [directLink, Option.bind_eq_some_iff]
  constructor
  · rintro ⟨ann, found, first⟩
    exact ⟨ann, found, List.mem_of_find?_eq_some first, by simpa using List.find?_some first⟩
  · rintro ⟨ann, found, member, leads, direct⟩
    refine ⟨ann, found, ?_⟩
    cases first : ann.links.find? fun l => l.peerDeviceId = v ∧ l.direct with
    | none =>
      have fails := List.find?_eq_none.mp first link member
      simp [leads, direct] at fails
    | some l =>
      have meets : l.peerDeviceId = v ∧ l.direct = true := by simpa using List.find?_some first
      rw [link_unique found (List.mem_of_find?_eq_some first) member (meets.1.trans leads.symm)]

theorem edge_of_direct {table : RouteTable} {u : DeviceId} {ann : RouteAnnouncement}
    (found : table.announcementFor u = some ann) {link : PeerLink} (member : link ∈ ann.links)
    (direct : link.direct = true) : table.edge u link.peerDeviceId = some link.label := by
  rw [edge, directLink_eq_some.mpr ⟨ann, found, member, rfl, direct⟩]
  rfl

theorem edge_of_not_direct {table : RouteTable} {u : DeviceId} {ann : RouteAnnouncement}
    (found : table.announcementFor u = some ann) {link : PeerLink} (member : link ∈ ann.links)
    (indirect : ¬ link.direct = true) : table.edge u link.peerDeviceId = none := by
  rw [edge, Option.map_eq_none_iff, Option.eq_none_iff_forall_ne_some]
  intro other direct
  obtain ⟨ann', found', member', leads, direct'⟩ := directLink_eq_some.mp direct
  rw [found] at found'
  cases found'
  rw [link_unique found member' member leads] at direct'
  exact indirect direct'

theorem edge_eq_none {table : RouteTable} {u v : DeviceId}
    (silent : table.announcementFor u = none ∨ ∃ ann, table.announcementFor u = some ann ∧
      v ∉ ann.links.map (·.peerDeviceId)) : table.edge u v = none := by
  rw [edge, Option.map_eq_none_iff, Option.eq_none_iff_forall_ne_some]
  intro link direct
  obtain ⟨ann, found, member, leads, _⟩ := directLink_eq_some.mp direct
  rcases silent with nothing | ⟨ann', found', outside⟩
  · rw [nothing] at found
    cases found
  · rw [found] at found'
    cases found'
    exact outside (leads ▸ List.mem_map_of_mem member)

end RouteTable

namespace PickRoute

/-! ## The state as a search for widest walks -/

def Entry.label (entry : Entry) : Nat ×ₗ Nat := toLex (entry.tau.toNat, entry.seen.toNat)

def topLabel : Nat ×ₗ Nat := toLex (tauMax.toNat, seenMax.toNat)

/-- The labels, parents and entries as numbers, with the settled nodes. -/
def Search.view (search : Search) (order : List DeviceId) : WidestPath.Search DeviceId Nat Nat where
  label v := (search.bestTau.get? v).map fun tau =>
    toLex (tau.toNat, ((search.bestSeen.get? v).getD 0).toNat)
  parent v := search.prev.get? v
  heap := search.heap.map fun entry => (entry.label, entry.node)
  order := order

/-- Only a node with a score has a second. -/
def Search.Paired (search : Search) : Prop :=
  ∀ v, search.bestTau.get? v = none → search.bestSeen.get? v = none

theorem less_iff {a b : Entry} :
    a.less b = true ↔ a.label < b.label ∨ (a.label = b.label ∧ a.node < b.node) := by
  rw [Entry.less, decide_eq_true_iff, WidestPath.lt_iff]
  simp only [Entry.label, EmbeddingLike.apply_eq_iff_eq, Prod.mk.injEq, UInt32.toNat_inj,
    UInt64.toNat_inj, width, age, ofLex_toLex, ← UInt32.lt_iff_toNat_lt, ← UInt64.lt_iff_toNat_lt]
  tauto

theorem minBy_greatest {α L : Type} [LinearOrder L] {after : α → α → Bool} (key : α → L)
    (before : ∀ a b, after a b = true → key a ≤ key b)
    (notBefore : ∀ a b, after a b = false → key b ≤ key a) {l : List α} {greatest : α}
    (found : minBy after l = some greatest) : ∀ x ∈ l, key x ≤ key greatest := by
  cases l with
  | nil => cases found
  | cons first rest =>
    cases found
    have through : ∀ (rest : List α) (first : α), ∀ x ∈ first :: rest,
        key x ≤ key (rest.foldl (fun least next => if after least next then next else least)
          first) := by
      intro rest
      induction rest with
      | nil =>
        intro first x member
        rw [List.mem_singleton.mp member]
        exact le_refl _
      | cons next rest ih =>
        intro first x member
        rw [List.foldl_cons]
        have above := ih (if after first next then next else first) _ List.mem_cons_self
        have kept : key first ≤ key (if after first next then next else first) ∧
            key next ≤ key (if after first next then next else first) := by
          split
          · next less => exact ⟨before _ _ less, le_refl _⟩
          · next notLess => exact ⟨le_refl _, notBefore _ _ (by simpa using notLess)⟩
        rcases List.mem_cons.mp member with rfl | member
        · exact kept.1.trans above
        · rcases List.mem_cons.mp member with rfl | member
          · exact kept.2.trans above
          · exact ih _ x (List.mem_cons_of_mem _ member)
    exact through rest first

theorem pop_eq_none {heap : List Entry} : pop heap = none ↔ heap = [] := by
  rw [pop, Option.map_eq_none_iff, FanOut.minBy_eq_none]

theorem pop_spec {heap rest : List Entry} {cur : Entry} (popped : pop heap = some (cur, rest)) :
    heap.Perm (cur :: rest) ∧ ∀ entry ∈ heap, entry.label ≤ cur.label := by
  obtain ⟨greatest, found, same⟩ := Option.map_eq_some_iff.mp popped
  cases same
  refine ⟨List.perm_cons_erase (FanOut.minBy_mem found), minBy_greatest Entry.label ?_ ?_ found⟩
  · intro a b less
    rcases less_iff.mp less with below | ⟨same, _⟩
    · exact below.le
    · exact same.le
  · intro a b notLess
    have fails : ¬ (a.less b = true) := by simpa using notLess
    rw [less_iff, not_or] at fails
    exact not_lt.mp fails.1

/-! ## One link -/

/-- The entry a link leads to. -/
def Entry.through (cur : Entry) (link : PeerLink) : Entry where
  tau := if cur.tau ≤ link.tauScore then cur.tau else link.tauScore
  seen := if cur.seen ≤ link.lastSeenUnix then cur.seen else link.lastSeenUnix
  node := link.peerDeviceId

theorem label_through (cur : Entry) (link : PeerLink) :
    (cur.through link).label = WidestPath.meet cur.label link.label := by
  have tau : (cur.through link).tau.toNat = min cur.tau.toNat link.tauScore.toNat := by
    show (if cur.tau ≤ link.tauScore then cur.tau else link.tauScore).toNat = _
    split
    · next below => exact (min_eq_left (UInt32.le_iff_toNat_le.mp below)).symm
    · next above =>
      rw [UInt32.le_iff_toNat_le, not_le] at above
      exact (min_eq_right above.le).symm
  have seen : (cur.through link).seen.toNat = min cur.seen.toNat link.lastSeenUnix.toNat := by
    show (if cur.seen ≤ link.lastSeenUnix then cur.seen else link.lastSeenUnix).toNat = _
    split
    · next below => exact (min_eq_left (UInt64.le_iff_toNat_le.mp below)).symm
    · next above =>
      rw [UInt64.le_iff_toNat_le, not_le] at above
      exact (min_eq_right above.le).symm
  rw [Entry.label, tau, seen]
  rfl

/-- What is known of a node before a link leads to it. -/
def Search.prior (search : Search) (v : DeviceId) : Entry :=
  ⟨(search.bestTau.get? v).getD tauUnknown, (search.bestSeen.get? v).getD 0, v⟩

theorem view_label (search : Search) (order : List DeviceId) (v : DeviceId) :
    (search.view order).label v = (search.bestTau.get? v).map fun tau =>
      toLex (tau.toNat, ((search.bestSeen.get? v).getD 0).toNat) := rfl

theorem labelD_view {search : Search} (paired : search.Paired) (order : List DeviceId)
    (v : DeviceId) : (search.view order).labelD v = (search.prior v).label := by
  rw [WidestPath.Search.labelD, view_label, Search.prior, Entry.label]
  cases known : search.bestTau.get? v with
  | none =>
    rw [paired v known]
    rfl
  | some tau => rfl

def take (search : Search) (cur : Entry) (entry : Entry) : Search where
  bestTau := search.bestTau.alter entry.node fun _ => entry.tau
  bestSeen := search.bestSeen.alter entry.node fun _ => entry.seen
  prev := search.prev.alter entry.node fun _ => cur.node
  heap := entry :: search.heap

theorem view_take (search : Search) (cur entry : Entry) (order : List DeviceId) :
    (take search cur entry).view order =
      (search.view order).improve cur.node entry.node entry.label := by
  rw [WidestPath.Search.improve, Search.view, WidestPath.Search.mk.injEq]
  refine ⟨?_, ?_, rfl, rfl⟩
  · funext v
    rw [take, SortedMap.get?_alter, SortedMap.get?_alter, Function.update_apply]
    by_cases here : entry.node = v
    · rw [if_pos here, if_pos here, if_pos here.symm]
      rfl
    · rw [if_neg here, if_neg here, if_neg (Ne.symm here)]
      rfl
  · funext v
    rw [take, SortedMap.get?_alter, Function.update_apply]
    by_cases here : entry.node = v
    · rw [if_pos here, if_pos here.symm]
    · rw [if_neg here, if_neg (Ne.symm here)]
      rfl

theorem paired_take {search : Search} (paired : search.Paired) (cur entry : Entry) :
    (take search cur entry).Paired := by
  intro v
  rw [take, SortedMap.get?_alter, SortedMap.get?_alter]
  split
  · intro nothing
    cases nothing
  · exact paired v

/-- A direct link that leads to a better label is taken. -/
theorem relax_eq {search : Search} (paired : search.Paired) (order : List DeviceId) (cur : Entry)
    {link : PeerLink} (direct : link.direct = true) :
    relax cur search link =
      if (search.view order).labelD link.peerDeviceId < WidestPath.meet cur.label link.label then
        take search cur (cur.through link)
      else search := by
  have better : (search.view order).labelD link.peerDeviceId <
        WidestPath.meet cur.label link.label ↔
      (cur.through link).tau > (search.prior link.peerDeviceId).tau ∨
      ((cur.through link).tau = (search.prior link.peerDeviceId).tau ∧
        (cur.through link).seen > (search.prior link.peerDeviceId).seen) := by
    rw [labelD_view paired, ← label_through, WidestPath.lt_iff]
    simp only [Entry.label, width, age, ofLex_toLex, gt_iff_lt, UInt32.lt_iff_toNat_lt,
      UInt64.lt_iff_toNat_lt, ← UInt32.toNat_inj]
    tauto
  rw [relax, if_neg (not_not.mpr direct)]
  by_cases dominates : (search.view order).labelD link.peerDeviceId <
      WidestPath.meet cur.label link.label
  · rw [if_pos dominates]
    exact if_pos (better.mp dominates)
  · rw [if_neg dominates]
    exact if_neg fun taken => dominates (better.mpr taken)

theorem relax_of_not_direct {search : Search} {cur : Entry} {link : PeerLink}
    (indirect : ¬ link.direct = true) : relax cur search link = search := if_pos indirect

/-! ## One node -/

/-- What holds of the state of the loop. -/
structure Sound (table : RouteTable) (src dst : DeviceId) (todo : DeviceId → DeviceId → Prop)
    (search : Search) (order : List DeviceId) : Prop where
  paired : search.Paired
  inv : (search.view order).Inv table.edge topLabel src dst todo

variable {table : RouteTable} {src dst : DeviceId}

/-- The links of the node that was settled last. -/
theorem foldl_relax_spec {cur : Entry} {ann : RouteAnnouncement} {order : List DeviceId}
    (found : table.announcementFor cur.node = some ann) (member : cur.node ∈ order)
    (links : List PeerLink) (theirs : ∀ link ∈ links, link ∈ ann.links) (search : Search)
    (sound : Sound table src dst
      (fun a b => a = cur.node ∧ b ∈ links.map (·.peerDeviceId)) search order)
    (labelled : (search.view order).label cur.node = some cur.label)
    (lowest : ∀ w ∈ order, ∀ other, (search.view order).label w = some other →
      cur.label ≤ other) :
    Sound table src dst (fun _ _ => False) (links.foldl (relax cur) search) order ∧
      (links.foldl (relax cur) search).heap.length ≤ search.heap.length + links.length := by
  induction links generalizing search with
  | nil =>
    refine ⟨⟨sound.paired, sound.inv.mono fun a b _ _ waiting => ?_⟩, le_refl _⟩
    exact absurd waiting.2 List.not_mem_nil
  | cons link rest ih =>
    have fewer : ∀ a b e, table.edge a b = some e → (a = cur.node ∧ b ∈ (link :: rest).map (·.peerDeviceId)) ∧
        ¬ (a = cur.node ∧ b = link.peerDeviceId) →
        a = cur.node ∧ b ∈ rest.map (·.peerDeviceId) := by
      rintro a b e _ ⟨⟨rfl, there⟩, other⟩
      rw [List.map_cons, List.mem_cons] at there
      exact ⟨rfl, there.resolve_left fun same => other ⟨rfl, same⟩⟩
    have here := theirs link List.mem_cons_self
    have later : ∀ l ∈ rest, l ∈ ann.links := fun l there =>
      theirs l (List.mem_cons_of_mem _ there)
    rw [List.foldl_cons, List.length_cons]
    by_cases direct : link.direct = true
    · have present := RouteTable.edge_of_direct found here direct
      rw [relax_eq sound.paired order cur direct]
      split
      · next better =>
        have fresh := sound.inv.fresh_of_better lowest better
        have keeps : ∀ w ∈ order, ((take search cur (cur.through link)).view order).label w =
            (search.view order).label w := by
          intro w settled
          rw [view_take]
          apply WidestPath.Search.label_improve_of_ne
          rintro rfl
          exact fresh settled
        have improved := sound.inv.improve member labelled lowest present better
        rw [← label_through] at improved
        obtain ⟨final, short⟩ := ih later (take search cur (cur.through link))
          ⟨paired_take sound.paired _ _, by
            rw [view_take]
            exact improved.mono fewer⟩
          ((keeps _ member).trans labelled)
          (fun w settled other is => lowest w settled other ((keeps w settled).symm.trans is))
        refine ⟨final, short.trans ?_⟩
        rw [take, List.length_cons]
        omega
      · next notBetter =>
        have known : ∀ e, table.edge cur.node link.peerDeviceId = some e →
            WidestPath.meet cur.label e ≤ (search.view order).labelD link.peerDeviceId := by
          intro e present'
          rw [present] at present'
          cases present'
          exact not_lt.mp notBetter
        obtain ⟨final, short⟩ := ih later search
          ⟨sound.paired, (sound.inv.follow labelled known).mono fewer⟩ labelled lowest
        exact ⟨final, short.trans (by omega)⟩
    · rw [relax_of_not_direct direct]
      have known : ∀ e, table.edge cur.node link.peerDeviceId = some e →
          WidestPath.meet cur.label e ≤ (search.view order).labelD link.peerDeviceId := by
        intro e present
        rw [RouteTable.edge_of_not_direct found here direct] at present
        cases present
      obtain ⟨final, short⟩ := ih later search
        ⟨sound.paired, (sound.inv.follow labelled known).mono fewer⟩ labelled lowest
      exact ⟨final, short.trans (by omega)⟩

/-- The links of a node that was settled before lead to nothing new. -/
theorem foldl_relax_settled {cur : Entry} {ann : RouteAnnouncement} {order : List DeviceId}
    {search : Search} (found : table.announcementFor cur.node = some ann)
    (sound : Sound table src dst (fun _ _ => False) search order) (member : cur.node ∈ order)
    {own : Nat ×ₗ Nat} (labelled : (search.view order).label cur.node = some own)
    (narrower : width cur.label ≤ width own) (older : age cur.label ≤ age own)
    (links : List PeerLink) (theirs : ∀ link ∈ links, link ∈ ann.links) :
    links.foldl (relax cur) search = search := by
  induction links with
  | nil => rfl
  | cons link rest ih =>
    have same : relax cur search link = search := by
      by_cases direct : link.direct = true
      · have present := RouteTable.edge_of_direct found (theirs link List.mem_cons_self) direct
        have known := sound.inv.followed cur.node member _ _ own present labelled id
        have below : WidestPath.meet cur.label link.label ≤ WidestPath.meet own link.label :=
          WidestPath.le_of_le (min_le_min_right _ narrower) (min_le_min_right _ older)
        rw [relax_eq sound.paired order cur direct, if_neg (not_lt.mpr (below.trans known))]
      · exact relax_of_not_direct direct
    rw [List.foldl_cons, same]
    exact ih fun l there => theirs l (List.mem_cons_of_mem _ there)

/-! ## The loop -/

/-- The links of a device that is not settled. -/
def openLinks (order : List DeviceId) (entry : DeviceId × RouteAnnouncement) : Nat :=
  if entry.1 ∈ order then 0 else entry.2.links.length

/-- The links that have not been followed yet. -/
def pendingLinks (table : RouteTable) (order : List DeviceId) : Nat :=
  (table.announcements.items.map (openLinks order)).sum

theorem openLinks_cons_le (v : DeviceId) (order : List DeviceId)
    (entry : DeviceId × RouteAnnouncement) : openLinks (v :: order) entry ≤ openLinks order entry := by
  rw [openLinks, openLinks]
  by_cases settled : entry.1 ∈ order
  · rw [if_pos (List.mem_cons_of_mem _ settled)]
    exact Nat.zero_le _
  · rw [if_neg settled]
    split
    · exact Nat.zero_le _
    · exact le_refl _

theorem pendingLinks_cons_le (table : RouteTable) (v : DeviceId) (order : List DeviceId) :
    pendingLinks table (v :: order) ≤ pendingLinks table order :=
  List.sum_le_sum fun entry _ => openLinks_cons_le v order entry

/-- A device that is settled no longer counts. -/
theorem pendingLinks_cons {v : DeviceId} {order : List DeviceId} (fresh : v ∉ order)
    {ann : RouteAnnouncement} (found : table.announcementFor v = some ann) :
    pendingLinks table (v :: order) + ann.links.length ≤ pendingLinks table order := by
  obtain ⟨before, after, cut⟩ := List.append_of_mem (SortedMap.mem_of_get? found)
  have through : ∀ l : List (DeviceId × RouteAnnouncement),
      (l.map (openLinks (v :: order))).sum ≤ (l.map (openLinks order)).sum :=
    fun l => List.sum_le_sum fun entry _ => openLinks_cons_le v order entry
  have closed : openLinks (v :: order) (v, ann) = 0 := if_pos List.mem_cons_self
  have opened : openLinks order (v, ann) = ann.links.length := if_neg fresh
  rw [pendingLinks, pendingLinks, cut]
  simp only [List.map_append, List.map_cons, List.sum_append, List.sum_cons, closed, opened]
  have left := through before
  have right := through after
  omega

/-- The state the loop ends in: its labels and parents are those of a finished search. -/
structure Ended (table : RouteTable) (src dst : DeviceId) (final : Search)
    (state : WidestPath.Search DeviceId Nat Nat) : Prop where
  paired : final.Paired
  label : state.label = (final.view []).label
  parent : state.parent = (final.view []).parent
  final : state.Final table.edge topLabel src dst

theorem view_perm {heap rest : List Entry} {cur : Entry} (perm : heap.Perm (cur :: rest)) :
    (heap.map fun entry => (entry.label, entry.node)).Perm
      ((cur.label, cur.node) :: rest.map fun entry => (entry.label, entry.node)) :=
  perm.map _

theorem bestTau_le {search : Search} {order : List DeviceId} {cur : Entry}
    (labelled : (search.view order).label cur.node = some cur.label) :
    (search.bestTau.get? cur.node).getD tauUnknown ≤ cur.tau := by
  rw [view_label, Option.map_eq_some_iff] at labelled
  obtain ⟨tau, best, same⟩ := labelled
  have scores : tau.toNat = cur.tau.toNat := congrArg (fun label => width label) same
  rw [best, Option.getD_some, UInt32.le_iff_toNat_le]
  exact scores.le

theorem width_le_of_not_lt {search : Search} {order : List DeviceId} {cur : Entry}
    {own : Nat ×ₗ Nat} (labelled : (search.view order).label cur.node = some own)
    (goes : ¬ cur.tau < (search.bestTau.get? cur.node).getD tauUnknown) :
    width own ≤ width cur.label := by
  rw [view_label, Option.map_eq_some_iff] at labelled
  obtain ⟨tau, best, rfl⟩ := labelled
  rw [best, Option.getD_some, UInt32.not_lt, UInt32.le_iff_toNat_le] at goes
  exact goes

/-- A node that has just been settled is expanded. -/
theorem expand_spec {cur : Entry} {order : List DeviceId} {search : Search}
    (sound : Sound table src dst (fun u _ => u = cur.node) search (cur.node :: order))
    (labelled : (search.view (cur.node :: order)).label cur.node = some cur.label)
    (lowest : ∀ w ∈ cur.node :: order, ∀ other,
      (search.view (cur.node :: order)).label w = some other → cur.label ≤ other)
    (fresh : cur.node ∉ order) :
    Sound table src dst (fun _ _ => False) (expand table cur search) (cur.node :: order) ∧
      (expand table cur search).heap.length + pendingLinks table (cur.node :: order) ≤
        search.heap.length + pendingLinks table order := by
  rw [expand]
  cases found : table.announcementFor cur.node with
  | none =>
    refine ⟨⟨sound.paired, sound.inv.mono fun a b e present here => ?_⟩, ?_⟩
    · rw [here, RouteTable.edge_eq_none (.inl found)] at present
      cases present
    · exact Nat.add_le_add_left (pendingLinks_cons_le table cur.node order) _
  | some ann =>
    have theirs : ∀ a b e, table.edge a b = some e → a = cur.node →
        a = cur.node ∧ b ∈ ann.links.map (·.peerDeviceId) := by
      intro a b e present here
      refine ⟨here, ?_⟩
      by_contra outside
      rw [here, RouteTable.edge_eq_none (.inr ⟨ann, found, outside⟩)] at present
      cases present
    obtain ⟨relaxed, grown⟩ := foldl_relax_spec found List.mem_cons_self ann.links
      (fun _ here => here) search ⟨sound.paired, sound.inv.mono theirs⟩ labelled lowest
    have settled := pendingLinks_cons fresh found
    exact ⟨relaxed, by simp only; omega⟩

/-- The loop ends, within as many steps as there are entries and links to follow. -/
theorem searchLoop_spec (apart : src ≠ dst) (fuel : Nat) :
    ∀ (search : Search) (order : List DeviceId),
      Sound table src dst (fun _ _ => False) search order →
      search.heap.length + pendingLinks table order < fuel →
      ∃ final state, searchLoop table dst fuel search = some final ∧
        Ended table src dst final state ∧
        state.order.length ≤ order.length + search.heap.length + pendingLinks table order := by
  induction fuel with
  | zero => exact fun _ _ _ enough => absurd enough (Nat.not_lt_zero _)
  | succ fuel ih =>
    intro search order sound enough
    rw [searchLoop]
    cases popped : pop search.heap with
    | none =>
      have empty := pop_eq_none.mp popped
      refine ⟨search, search.view order, rfl, ⟨sound.paired, rfl, rfl, ?_⟩, ?_⟩
      · exact sound.inv.final_of_empty apart (by rw [Search.view, empty, List.map_nil])
      · show order.length ≤ _
        omega
    | some step =>
      obtain ⟨cur, rest⟩ := step
      obtain ⟨perm, above⟩ := pop_spec popped
      have perm' := view_perm perm
      have fewer : search.heap.length = rest.length + 1 := perm.length_eq
      have member : (cur.label, cur.node) ∈ (search.view order).heap :=
        perm'.mem_iff.mpr List.mem_cons_self
      have greatest : ∀ entry ∈ (search.view order).heap, entry.1 ≤ cur.label := by
        intro entry there
        obtain ⟨e, listed, rfl⟩ := List.mem_map.mp there
        exact above e listed
      simp only
      split
      · next skip =>
        have spent : (search.view order).label cur.node ≠ some cur.label := by
          intro labelled
          exact absurd skip (UInt32.not_lt.mpr (bestTau_le labelled))
        obtain ⟨final, state, ends, ended, short⟩ := ih { search with heap := rest } order
          ⟨sound.paired, sound.inv.drop perm' (.inr spent)⟩ (by simp only; omega)
        exact ⟨final, state, ends, ended, short.trans (by simp only; omega)⟩
      · next goes =>
        split
        · next there =>
          rw [there] at member
          have reached := (sound.inv.popped_label member greatest).resolve_left sound.inv.unsettled
          refine ⟨{ search with heap := rest }, search.view order, rfl,
            ⟨sound.paired, rfl, rfl, sound.inv.final_of_target apart member greatest reached⟩, ?_⟩
          show order.length ≤ _
          omega
        · next other =>
          by_cases settled : cur.node ∈ order
          · -- an old entry of a settled node: nothing is behind it
            have dropped : Sound table src dst (fun _ _ => False) { search with heap := rest } order :=
              ⟨sound.paired, sound.inv.drop perm' (.inl settled)⟩
            have nothing : expand table cur { search with heap := rest } =
                { search with heap := rest } := by
              obtain ⟨own, labelled, below⟩ := sound.inv.stale _ member
              rw [expand]
              cases found : table.announcementFor cur.node with
              | none => rfl
              | some ann =>
                have narrow := width_le_of_not_lt labelled goes
                refine foldl_relax_settled found dropped settled labelled
                  (WidestPath.width_mono below) ?_ ann.links fun _ here => here
                rcases WidestPath.le_iff.mp below with less | ⟨_, older⟩
                · exact absurd (less.trans_le narrow) (lt_irrefl _)
                · exact older
            rw [nothing]
            obtain ⟨final, state, ends, ended, short⟩ := ih { search with heap := rest } order
              dropped (by simp only; omega)
            exact ⟨final, state, ends, ended, short.trans (by simp only; omega)⟩
          · have labelled := (sound.inv.popped_label member greatest).resolve_left settled
            have next : Sound table src dst (fun u _ => u = cur.node) { search with heap := rest }
                (cur.node :: order) :=
              ⟨sound.paired, sound.inv.settle perm' greatest labelled settled other⟩
            obtain ⟨expanded, grown⟩ := expand_spec next labelled (by
              intro w here own is
              rcases List.mem_cons.mp here with rfl | before
              · rw [show (search.view order).label cur.node = some own from is] at labelled
                cases labelled
                exact le_refl _
              · obtain ⟨own', is', above'⟩ := sound.inv.settled w before
                rw [show (search.view order).label w = some own from is] at is'
                cases is'
                exact above' _ member) settled
            obtain ⟨final, state, ends, ended, short⟩ := ih _ (cur.node :: order) expanded
              (by simp only at grown; omega)
            refine ⟨final, state, ends, ended, short.trans ?_⟩
            simp only [List.length_cons] at grown ⊢
            omega

theorem sound_start (table : RouteTable) (src dst : DeviceId) :
    Sound table src dst (fun _ _ => False) (start src) [] where
  paired v unknown := by
    rw [start, SortedMap.get?_alter] at unknown ⊢
    split at unknown
    · cases unknown
    · next other => rw [if_neg other, SortedMap.get?_empty]
  inv := by
    have view : (start src).view [] = WidestPath.Search.initial topLabel src := by
      rw [WidestPath.Search.initial, Search.view, WidestPath.Search.mk.injEq]
      refine ⟨?_, ?_, rfl, rfl⟩
      · funext v
        rw [start, SortedMap.get?_alter, SortedMap.get?_alter]
        by_cases here : src = v
        · rw [if_pos here, if_pos here, if_pos here.symm]
          rfl
        · rw [if_neg here, if_neg here, if_neg (Ne.symm here)]
          rfl
      · funext v
        exact SortedMap.get?_empty v
    rw [view]
    exact WidestPath.Search.Inv.initial (by decide)

theorem pendingLinks_nil (table : RouteTable) : pendingLinks table [] = linkCount table := by
  rw [pendingLinks, linkCount]
  exact congrArg List.sum (List.map_congr_left fun entry _ => if_neg List.not_mem_nil)

/-- The way back reads the parents off to the source. -/
theorem traceBack_eq {prev : SortedMap DeviceId DeviceId}
    {state : WidestPath.Search DeviceId Nat Nat} (same : state.parent = fun v => prev.get? v)
    {v : DeviceId} {hops : List DeviceId} (trace : state.Trace src v hops) :
    ∀ (fuel : Nat) (acc : List DeviceId), v ≠ src → hops.length ≤ fuel + 1 →
      traceBack prev src fuel v (v :: acc) = some (src, hops ++ acc) := by
  induction trace with
  | start => exact fun _ _ other => absurd rfl other
  | @step u v hops before apart parent ih =>
    intro fuel acc _ enough
    rw [List.length_append, List.length_singleton] at enough
    have nonempty : 0 < hops.length := by
      cases before with
      | start => exact Nat.one_pos
      | step => simp
    have back : prev.get? v = some u := by rw [← parent, same]
    cases fuel with
    | zero => omega
    | succ fuel =>
      rw [traceBack, back, List.append_assoc]
      by_cases arrived : u = src
      · subst arrived
        simp only [if_true]
        cases before with
        | start => rfl
        | step _ other => exact absurd rfl other
      · simp only [if_neg arrived]
        exact ih fuel (v :: acc) arrived (by omega)

end PickRoute

/-! ## The route -/

def Route.label (route : Route) : Nat ×ₗ Nat :=
  toLex (route.bottleneckTau.toNat, route.minLastSeenUnix.toNat)

/-- Direct links lead from `src` to `dst`. -/
def Reachable (table : RouteTable) (src dst : DeviceId) : Prop :=
  ∃ hops label, Walk table.edge PickRoute.topLabel src dst hops label

/-- A simple path of direct links with its least score and its least second; no path is wider. -/
structure BestRoute (table : RouteTable) (src dst : DeviceId) (route : Route) : Prop where
  walk : Walk table.edge PickRoute.topLabel src dst route.hops route.label
  simple : route.hops.Nodup
  widest : ∀ hops label, Walk table.edge PickRoute.topLabel src dst hops label →
    width label ≤ route.bottleneckTau.toNat

/-- Some path has a positive score, or some path that is widest from beginning to end was seen
after the second zero. -/
def Findable (table : RouteTable) (src dst : DeviceId) : Prop :=
  (∃ hops label, Walk table.edge PickRoute.topLabel src dst hops label ∧ 0 < width label) ∨
    ∃ hops label, Widest table.edge PickRoute.topLabel src dst hops label ∧ 0 < age label

open PickRoute in
theorem pickBestRoute_spec (table : RouteTable) {src dst : DeviceId} (apart : src ≠ dst) :
    pickBestRouteWithin (searchFuel table) table src dst = some (pickBestRoute table src dst) ∧
    (∀ route, pickBestRoute table src dst = some route → BestRoute table src dst route) ∧
    ((pickBestRoute table src dst).isSome ↔ Findable table src dst) := by
  have enough : (start src).heap.length + pendingLinks table [] < searchFuel table := by
    rw [pendingLinks_nil]
    show 1 + linkCount table < linkCount table + 2
    omega
  obtain ⟨final, state, ends, ended, short⟩ :=
    searchLoop_spec apart _ (start src) [] (sound_start table src dst) enough
  have found := ended.final.labelled_iff
  have best (v : DeviceId) : state.label v = (final.bestTau.get? v).map fun tau =>
      toLex (tau.toNat, ((final.bestSeen.get? v).getD 0).toNat) := by
    rw [ended.label]
    rfl
  rw [best dst, Option.isSome_map] at found
  cases reached : final.bestTau.get? dst with
  | none =>
    have nothing : pickBestRouteWithin (searchFuel table) table src dst = some none := by
      rw [pickBestRouteWithin, if_neg apart, ends]
      simp only [reached]
    have picked : pickBestRoute table src dst = none := by
      rw [pickBestRoute, nothing, Option.getD_some]
    rw [reached] at found
    rw [nothing, picked]
    exact ⟨rfl, fun route impossible => absurd impossible (by simp), found⟩
  | some finalTau =>
    have labelled : state.label dst =
        some (toLex (finalTau.toNat, ((final.bestSeen.get? dst).getD 0).toNat)) := by
      rw [best dst, reached, Option.map_some]
    obtain ⟨hops, trace, distinct, few⟩ := ended.final.inv.trace labelled
    have back : traceBack final.prev src (searchFuel table) dst [dst] = some (src, hops ++ []) := by
      apply traceBack_eq (ended.parent.trans rfl) trace _ _ apart.symm
      have bound := few.trans (Nat.add_le_add_right short 1)
      rw [pendingLinks_nil] at bound
      have first : (start src).heap.length = 1 := rfl
      rw [first, List.length_nil] at bound
      rw [searchFuel]
      omega
    rw [List.append_nil] at back
    have something : pickBestRouteWithin (searchFuel table) table src dst =
        some (some ⟨hops, finalTau, (final.bestSeen.get? dst).getD 0⟩) := by
      rw [pickBestRouteWithin, if_neg apart, ends]
      simp only [reached, back]
      exact if_neg (not_not.mpr rfl)
    have picked : pickBestRoute table src dst =
        some ⟨hops, finalTau, (final.bestSeen.get? dst).getD 0⟩ := by
      rw [pickBestRoute, something, Option.getD_some]
    rw [reached] at found
    rw [something, picked]
    refine ⟨rfl, fun route is => ?_, found⟩
    cases is
    refine ⟨ended.final.inv.walk_of_trace trace _ labelled, distinct, fun other label walk => ?_⟩
    have narrower := ended.final.width_le_target walk
    rwa [WidestPath.Search.labelD_of_label labelled] at narrower

/-- What a route picker promises: it ends, finds a route where there is one, and the route is a
widest simple path with the labels of that path. -/
structure RoutesTruly (table : RouteTable) (src dst : DeviceId) : Prop where
  ends : pickBestRouteWithin (searchFuel table) table src dst = some (pickBestRoute table src dst)
  finds : (pickBestRoute table src dst).isSome ↔ Reachable table src dst
  best : ∀ route, pickBestRoute table src dst = some route → BestRoute table src dst route

/-- **The picker keeps its promise unless all there is are links that bring no more than an unknown
peer counts for.** -/
theorem routesTruly_iff (table : RouteTable) (src dst : DeviceId) (apart : src ≠ dst) :
    RoutesTruly table src dst ↔ (Reachable table src dst → Findable table src dst) := by
  obtain ⟨ends, best, found⟩ := pickBestRoute_spec table apart
  constructor
  · intro truly reachable
    exact found.mp (truly.finds.mpr reachable)
  · intro findable
    refine ⟨ends, ⟨fun something => ?_, fun reachable => found.mpr (findable reachable)⟩, best⟩
    rcases found.mp something with ⟨hops, label, walk, _⟩ | ⟨hops, label, favoured, _⟩
    · exact ⟨hops, label, walk⟩
    · exact ⟨hops, label, favoured.walk⟩

section Examples

/-- A phone that announces one direct link to a laptop. -/
def phoneToLaptop (score : UInt32) (seen : UInt64) : RouteTable :=
  RouteTable.empty.insert
    { announcerDeviceId := filled 16 1
      announcerDayIndex := 0
      announcedAtUnix := 1
      links := [⟨filled 16 2, score, seen, true⟩]
      announcerSig := List.replicate hybridSigLen 0 }
    ⟨rfl, List.pairwise_singleton _ _, fun link here => by
      rw [List.mem_singleton.mp here]
      show (filled 16 2 : DeviceId) ≠ filled 16 1
      decide⟩

theorem phoneToLaptop_walk (score : UInt32) (seen : UInt64) :
    Walk (phoneToLaptop score seen).edge PickRoute.topLabel ⟨List.replicate 16 1, rfl⟩
      ⟨List.replicate 16 2, rfl⟩ ([⟨List.replicate 16 1, rfl⟩] ++ [⟨List.replicate 16 2, rfl⟩])
      (WidestPath.meet PickRoute.topLabel (toLex (score.toNat, seen.toNat))) :=
  .step .start rfl

theorem routesTruly_iff_scored :
    RoutesTruly (phoneToLaptop 7 0) ⟨List.replicate 16 1, rfl⟩ ⟨List.replicate 16 2, rfl⟩ :=
  (routesTruly_iff (phoneToLaptop 7 0) _ _ (by decide)).mpr fun _ =>
    .inl ⟨_, _, phoneToLaptop_walk 7 0, by decide⟩

/-- A known link of score zero, last seen in second zero, is not found. -/
theorem zero_link_unreached :
    let phone : DeviceId := ⟨List.replicate 16 1, rfl⟩
    let laptop : DeviceId := ⟨List.replicate 16 2, rfl⟩
    Reachable (phoneToLaptop 0 0) phone laptop ∧
      pickBestRoute (phoneToLaptop 0 0) phone laptop = none ∧
      ¬ RoutesTruly (phoneToLaptop 0 0) phone laptop := by
  intro phone laptop
  have reachable : Reachable (phoneToLaptop 0 0) phone laptop := ⟨_, _, phoneToLaptop_walk 0 0⟩
  have nothing : pickBestRoute (phoneToLaptop 0 0) phone laptop = none := by decide
  refine ⟨reachable, nothing, fun truly => ?_⟩
  have something := truly.finds.mpr reachable
  rw [nothing] at something
  cases something

end Examples

end OneLink.DeviceMesh
