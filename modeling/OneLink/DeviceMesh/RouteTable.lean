/-
# DeviceMesh.RouteTable — signed route announcements and the table of the latest ones

A device announces the peers it reaches, with the second and the day of its key.  The table keeps
one announcement for each device: a later one replaces it, where later compares the second and
then the day (`ingest_get?`).  Two announcements of one second and one day compare equal, and the
one that arrived first stays.  So two tables that heard the same announcements agree when every
device has a single latest announcement, and only then (`ingestAll_order_free_iff`).

The links of an announcement in the table are in ascending order of the peers and none of them
leads back to the announcer.
-/
import OneLink.DeviceMesh.QuorumSafety
import OneLink.DeviceMesh.Replan

namespace OneLink.DeviceMesh

open Library

set_option autoImplicit false

inductive RouteError where
  | tooManyLinks (got max : Nat)
  | linksNotSorted
  | selfLoop
  | badLength (expected got : Nat)
  | verifyFail
  deriving DecidableEq

def maxLinksPerAnnouncement : Nat := 64

/-- One reachability claim. -/
structure PeerLink where
  peerDeviceId : DeviceId
  tauScore : UInt32
  lastSeenUnix : UInt64
  direct : Bool
  deriving DecidableEq

structure RouteAnnouncement where
  announcerDeviceId : DeviceId
  announcerDayIndex : UInt64
  announcedAtUnix : UInt64
  links : List PeerLink
  announcerSig : Bytes
  deriving DecidableEq

namespace RouteAnnouncement

def canonicalTranscript (announcerDeviceId : DeviceId) (announcerDayIndex announcedAtUnix : UInt64)
    (links : List PeerLink) : Bytes :=
  ascii "OL-mesh-route-announcement-v1" ++ announcerDeviceId.1 ++ u64Bytes announcerDayIndex ++
    u64Bytes announcedAtUnix ++ lenBytes links.length ++
    links.flatMap fun l =>
      l.peerDeviceId.1 ++ beBytes 4 l.tauScore.toNat ++ u64Bytes l.lastSeenUnix ++
        [if l.direct then 1 else 0]

/-- The loop of `shape_check`, with the peer before. -/
def checkLinks (announcer : DeviceId) : Option DeviceId → List PeerLink → Except RouteError Unit
  | _, [] => return ()
  | prev, l :: rest => do
    require (∀ p ∈ prev, ¬ l.peerDeviceId ≤ p) .linksNotSorted
    require (l.peerDeviceId ≠ announcer) .selfLoop
    checkLinks announcer (some l.peerDeviceId) rest

def shapeCheck (ann : RouteAnnouncement) : Except RouteError Unit := do
  require (¬ ann.links.length > maxLinksPerAnnouncement)
    (.tooManyLinks ann.links.length maxLinksPerAnnouncement)
  checkLinks ann.announcerDeviceId none ann.links
  require (ann.announcerSig.length = hybridSigLen) (.badLength hybridSigLen ann.announcerSig.length)

def verify (P : Pqsig) (ann : RouteAnnouncement) (vk : P.VerifyingKey) : Except RouteError Unit := do
  ann.shapeCheck
  require (P.verify vk (canonicalTranscript ann.announcerDeviceId ann.announcerDayIndex
    ann.announcedAtUnix ann.links) ann.announcerSig = true) .verifyFail

/-- An announcement of `announcer` with its links in order. -/
structure Formed (announcer : DeviceId) (ann : RouteAnnouncement) : Prop where
  author : ann.announcerDeviceId = announcer
  ascending : ann.links.Pairwise fun l l' => l.peerDeviceId < l'.peerDeviceId
  noLoop : ∀ l ∈ ann.links, l.peerDeviceId ≠ announcer

theorem checkLinks_eq_ok {announcer : DeviceId} {prev : Option DeviceId} {links : List PeerLink}
    {done : Unit} :
    checkLinks announcer prev links = .ok done ↔
      (∀ p ∈ prev, ∀ l ∈ links, p < l.peerDeviceId) ∧
      links.Pairwise (fun l l' => l.peerDeviceId < l'.peerDeviceId) ∧
      ∀ l ∈ links, l.peerDeviceId ≠ announcer := by
  induction links generalizing prev with
  | nil => simp [checkLinks, pure_eq_ok_iff]
  | cons l rest ih =>
    simp only [checkLinks, bind_eq_ok, require_eq_ok, exists_const, ih, Option.mem_some_iff,
      forall_eq', List.pairwise_cons, List.forall_mem_cons, not_le]
    constructor
    · rintro ⟨above, apart, least, sorted, others⟩
      exact ⟨fun p before => ⟨above p before, fun l' later => (above p before).trans (least l' later)⟩,
        ⟨least, sorted⟩, apart, others⟩
    · rintro ⟨above, ⟨least, sorted⟩, apart, others⟩
      exact ⟨fun p before => (above p before).1, apart, least, sorted, others⟩

theorem verify_eq_ok {P : Pqsig} {ann : RouteAnnouncement} {vk : P.VerifyingKey} :
    ann.verify P vk = .ok () ↔
      ann.links.length ≤ maxLinksPerAnnouncement ∧ ann.Formed ann.announcerDeviceId ∧
      ann.announcerSig.length = hybridSigLen ∧
      P.verify vk (canonicalTranscript ann.announcerDeviceId ann.announcerDayIndex
        ann.announcedAtUnix ann.links) ann.announcerSig = true := by
  simp only [verify, shapeCheck, bind_eq_ok, require_eq_ok, exists_const, checkLinks_eq_ok, not_lt,
    gt_iff_lt]
  constructor
  · rintro ⟨⟨few, ⟨_, sorted, others⟩, sig⟩, signed⟩
    exact ⟨few, ⟨rfl, sorted, others⟩, sig, signed⟩
  · rintro ⟨few, ⟨_, sorted, others⟩, sig, signed⟩
    exact ⟨⟨few, ⟨fun _ nothing => absurd nothing (Option.not_mem_none _), sorted, others⟩, sig⟩,
      signed⟩

end RouteAnnouncement

/-! ## Signing -/

/-- `Vec::dedup_by_key`: keep the first of each run of elements with one key. -/
def dedupByKey {α κ : Type} [DecidableEq κ] (key : α → κ) : List α → List α
  | [] => []
  | a :: rest =>
    match dedupByKey key rest with
    | [] => [a]
    | b :: kept => if key a = key b then a :: kept else a :: b :: kept

/-- The order in which links are sorted: the peer, then the greater score first. -/
def PeerLink.before (l l' : PeerLink) : Bool :=
  l.peerDeviceId < l'.peerDeviceId ∨ (l.peerDeviceId = l'.peerDeviceId ∧ l.tauScore ≥ l'.tauScore)

def signRouteAnnouncement (P : Pqsig) (announcer : DeviceSubkey) (announcedAtUnix : UInt64)
    (links : List PeerLink) : Except RouteError RouteAnnouncement := do
  require (¬ links.length > maxLinksPerAnnouncement)
    (.tooManyLinks links.length maxLinksPerAnnouncement)
  let links := (dedupByKey (·.peerDeviceId) (links.mergeSort PeerLink.before)).filter
    (·.peerDeviceId ≠ announcer.deviceId)
  let transcript := RouteAnnouncement.canonicalTranscript announcer.deviceId announcer.dayIndex
    announcedAtUnix links
  return {
    announcerDeviceId := announcer.deviceId
    announcerDayIndex := announcer.dayIndex
    announcedAtUnix := announcedAtUnix
    links := links
    announcerSig := announcer.sign P transcript }

theorem dedupByKey_sublist {α κ : Type} [DecidableEq κ] (key : α → κ) (l : List α) :
    (dedupByKey key l).Sublist l := by
  induction l with
  | nil => exact List.Sublist.slnil
  | cons a rest ih =>
    rw [dedupByKey]
    split
    · exact List.singleton_sublist.mpr List.mem_cons_self
    · next b kept unfolded =>
      rw [unfolded] at ih
      split
      · exact ((List.sublist_cons_self b kept).trans ih).cons_cons a
      · exact ih.cons_cons a

/-- The keys that are left are the keys, each run once. -/
theorem map_dedupByKey {α κ : Type} [DecidableEq κ] (key : α → κ) (l : List α) :
    (dedupByKey key l).map key = dedup (l.map key) := by
  induction l with
  | nil => rfl
  | cons a rest ih =>
    rw [dedupByKey, List.map_cons, dedup, ← ih]
    cases dedupByKey key rest with
    | nil => rfl
    | cons b kept =>
      simp only [List.map_cons]
      split
      · next same => rw [List.map_cons, same]
      · rfl

theorem pairwise_before (links : List PeerLink) :
    (links.mergeSort PeerLink.before).Pairwise fun l l' => l.peerDeviceId ≤ l'.peerDeviceId := by
  have trans : ∀ a b c : PeerLink, a.before b = true → b.before c = true → a.before c = true := by
    intro a b c
    simp only [PeerLink.before, decide_eq_true_eq]
    rintro (first | ⟨same, first⟩) (second | ⟨same', second⟩)
    · exact .inl (first.trans second)
    · exact .inl (same' ▸ first)
    · exact .inl (same ▸ second)
    · exact .inr ⟨same.trans same', UInt32.le_trans second first⟩
  have total : ∀ a b : PeerLink, (a.before b || b.before a) = true := by
    intro a b
    simp only [PeerLink.before, Bool.or_eq_true, decide_eq_true_eq]
    rcases lt_trichotomy a.peerDeviceId b.peerDeviceId with below | same | above
    · exact .inl (.inl below)
    · rcases UInt32.le_total a.tauScore b.tauScore with low | high
      · exact .inr (.inr ⟨same.symm, low⟩)
      · exact .inl (.inr ⟨same, high⟩)
    · exact .inr (.inl above)
  refine (List.pairwise_mergeSort trans total links).imp ?_
  intro l l' sorted
  simp only [PeerLink.before, decide_eq_true_eq] at sorted
  rcases sorted with below | ⟨same, _⟩
  · exact below.le
  · exact same.le

/-- What a device signs, its key verifies. -/
theorem sign_verifies {P : Pqsig} (lawful : P.Lawful) {announcer : DeviceSubkey}
    {announcedAtUnix : UInt64} {links : List PeerLink} {ann : RouteAnnouncement}
    (signed : signRouteAnnouncement P announcer announcedAtUnix links = .ok ann) :
    ann.verify P (announcer.verifyingKey P) = .ok () := by
  simp only [signRouteAnnouncement, bind_eq_ok, require_eq_ok, exists_const, pure_eq_ok_iff,
    gt_iff_lt, not_lt] at signed
  obtain ⟨few, rfl⟩ := signed
  rw [RouteAnnouncement.verify_eq_ok]
  refine ⟨?_, ⟨rfl, ?_, ?_⟩, lawful.length_sign _ _, (lawful.verify_sign _ _ _).mpr rfl⟩
  · have once := (dedupByKey_sublist (·.peerDeviceId) (links.mergeSort PeerLink.before)).length_le
    have all : (links.mergeSort PeerLink.before).length = links.length :=
      (List.mergeSort_perm ..).length_eq
    exact (List.length_filter_le ..).trans (once.trans (all.le.trans few))
  · apply List.Pairwise.filter
    have keys := pairwise_lt_dedup (List.pairwise_map.mpr (pairwise_before links))
    rw [← map_dedupByKey] at keys
    exact List.pairwise_map.mp keys
  · intro l member
    simpa using (List.mem_filter.mp member).2

/-! ## The table -/

/-- The latest announcement of each device. -/
structure RouteTable where
  announcements : SortedMap DeviceId RouteAnnouncement
  formed : ∀ announcer ann, announcements.get? announcer = some ann → ann.Formed announcer

namespace RouteTable

theorem ext_announcements {table table' : RouteTable}
    (same : table.announcements = table'.announcements) : table = table' := by
  cases table
  cases same
  rfl

def empty : RouteTable where
  announcements := .empty
  formed _ _ found := absurd found (by simp)

def announcementFor (table : RouteTable) (announcer : DeviceId) : Option RouteAnnouncement :=
  table.announcements.get? announcer

/-- `ann` replaces `old`. -/
def dominates (ann old : RouteAnnouncement) : Bool :=
  if ann.announcedAtUnix > old.announcedAtUnix then true
  else if ann.announcedAtUnix < old.announcedAtUnix then false
  else ann.announcerDayIndex > old.announcerDayIndex

def insert (table : RouteTable) (ann : RouteAnnouncement)
    (formed : ann.Formed ann.announcerDeviceId) : RouteTable where
  announcements := table.announcements.alter ann.announcerDeviceId fun _ => ann
  formed announcer other found := by
    rw [SortedMap.get?_alter] at found
    split at found
    · next same =>
      cases found
      exact same ▸ formed
    · exact table.formed announcer other found

def dominatedBy (table : RouteTable) (ann : RouteAnnouncement) : Bool :=
  match table.announcementFor ann.announcerDeviceId with
  | none => true
  | some old => dominates ann old

/-- The result of the call and the table after it. -/
def ingest (P : Pqsig) (table : RouteTable) (ann : RouteAnnouncement)
    (announcerVk : P.VerifyingKey) : Except RouteError Bool × RouteTable :=
  match verified : ann.verify P announcerVk with
  | .error e => (.error e, table)
  | .ok () =>
    if table.dominatedBy ann then
      (.ok true, table.insert ann (RouteAnnouncement.verify_eq_ok.mp verified).2.1)
    else (.ok false, table)

/-- The table after a list of arrivals, each with the key it was verified with. -/
def ingestAll (P : Pqsig) (arrivals : List (RouteAnnouncement × P.VerifyingKey)) : RouteTable :=
  arrivals.foldl (fun table arrival => (table.ingest P arrival.1 arrival.2).2) .empty

end RouteTable

/-! ## Which announcement stays -/

/-- The second of an announcement, then the day of its key. -/
def RouteAnnouncement.stamp (ann : RouteAnnouncement) : Nat ×ₗ Nat :=
  toLex (ann.announcedAtUnix.toNat, ann.announcerDayIndex.toNat)

namespace RouteTable

theorem dominates_iff {ann old : RouteAnnouncement} :
    dominates ann old = true ↔ old.stamp < ann.stamp := by
  rw [dominates, RouteAnnouncement.stamp, RouteAnnouncement.stamp, Prod.Lex.toLex_lt_toLex]
  simp only [gt_iff_lt, UInt64.lt_iff_toNat_lt]
  split
  · next later => exact iff_of_true rfl (.inl later)
  · next notLater =>
    split
    · next earlier => exact iff_of_false Bool.false_ne_true (by omega)
    · next notEarlier => rw [decide_eq_true_iff]; omega

/-- The one of two announcements that stays. -/
def newer (old : Option RouteAnnouncement) (ann : RouteAnnouncement) : RouteAnnouncement :=
  match old with
  | none => ann
  | some old => if dominates ann old then ann else old

/-- A verified announcement changes the entry of its announcer only. -/
theorem ingest_get? {P : Pqsig} {ann : RouteAnnouncement} {vk : P.VerifyingKey}
    (verified : ann.verify P vk = .ok ()) (table : RouteTable) (announcer : DeviceId) :
    (table.ingest P ann vk).2.announcementFor announcer =
      if ann.announcerDeviceId = announcer then
        some (newer (table.announcementFor announcer) ann)
      else table.announcementFor announcer := by
  rw [ingest]
  split
  · next e refused =>
    rw [verified] at refused
    cases refused
  · next accepted =>
    by_cases own : ann.announcerDeviceId = announcer
    · subst own
      rw [if_pos rfl, dominatedBy]
      cases before : table.announcementFor ann.announcerDeviceId with
      | none => exact SortedMap.get?_alter_self _ _ _
      | some old =>
        simp only [newer]
        split
        · exact SortedMap.get?_alter_self _ _ _
        · exact before
    · rw [if_neg own]
      split
      · exact (SortedMap.get?_alter _ _ _ _).trans (if_neg own)
      · rfl

/-- `ann` is one of the announcements that `announcer` made last. -/
def Latest (signed : List RouteAnnouncement) (announcer : DeviceId) (ann : RouteAnnouncement) :
    Prop :=
  ann ∈ signed ∧ ann.announcerDeviceId = announcer ∧
    ∀ other ∈ signed, other.announcerDeviceId = announcer → other.stamp ≤ ann.stamp

/-- Every arrival is verified. -/
def Verified (P : Pqsig) (arrivals : List (RouteAnnouncement × P.VerifyingKey)) : Prop :=
  ∀ arrival ∈ arrivals, arrival.1.verify P arrival.2 = .ok ()

variable {P : Pqsig}

theorem newer_spec (old : Option RouteAnnouncement) (ann : RouteAnnouncement) :
    (newer old ann = ann ∨ old = some (newer old ann)) ∧ ann.stamp ≤ (newer old ann).stamp ∧
      ∀ before ∈ old, before.stamp ≤ (newer old ann).stamp := by
  cases old with
  | none => exact ⟨.inl rfl, le_refl _, fun _ nothing => absurd nothing (Option.not_mem_none _)⟩
  | some old =>
    rw [newer]
    split
    · next later =>
      exact ⟨.inl rfl, le_refl _, fun _ same => by cases same; exact (dominates_iff.mp later).le⟩
    · next notLater =>
      rw [dominates_iff, not_lt] at notLater
      exact ⟨.inr rfl, notLater, fun _ same => by cases same; exact le_refl _⟩

/-- What the table may hold for a device. -/
def EntryOf (signed : List RouteAnnouncement) (announcer : DeviceId) :
    Option RouteAnnouncement → Prop
  | none => ∀ ann ∈ signed, ann.announcerDeviceId ≠ announcer
  | some ann => Latest signed announcer ann

theorem EntryOf.newer {signed : List RouteAnnouncement} {announcer : DeviceId}
    {old : Option RouteAnnouncement} (before : EntryOf signed announcer old)
    {ann : RouteAnnouncement} (own : ann.announcerDeviceId = announcer) :
    EntryOf (signed ++ [ann]) announcer (some (newer old ann)) := by
  obtain ⟨source, above, kept⟩ := newer_spec old ann
  have stamps : ∀ other ∈ signed ++ [ann], other.announcerDeviceId = announcer →
      other.stamp ≤ (RouteTable.newer old ann).stamp := by
    intro other member author
    rcases List.mem_append.mp member with earlier | last
    · cases old with
      | none => exact absurd author (before other earlier)
      | some a => exact (before.2.2 other earlier author).trans (kept a rfl)
    · rw [List.mem_singleton.mp last]
      exact above
  rcases source with this | same
  · refine ⟨?_, ?_, stamps⟩
    · rw [this]
      exact List.mem_append_right _ (List.mem_singleton_self ann)
    · rw [this, own]
  · rw [same] at before
    exact ⟨List.mem_append_left _ before.1, before.2.1, stamps⟩

theorem EntryOf.other {signed : List RouteAnnouncement} {announcer : DeviceId}
    {old : Option RouteAnnouncement} (before : EntryOf signed announcer old)
    {ann : RouteAnnouncement} (other : ann.announcerDeviceId ≠ announcer) :
    EntryOf (signed ++ [ann]) announcer old := by
  cases old with
  | none =>
    intro b member
    rcases List.mem_append.mp member with earlier | last
    · exact before b earlier
    · rw [List.mem_singleton.mp last]
      exact other
  | some a =>
    refine ⟨List.mem_append_left _ before.1, before.2.1, fun b member author => ?_⟩
    rcases List.mem_append.mp member with earlier | last
    · exact before.2.2 b earlier author
    · rw [List.mem_singleton.mp last] at author
      exact absurd author other

/-- The entry of a device is one of its latest announcements, and there is one when it made any. -/
theorem ingestAll_spec {arrivals : List (RouteAnnouncement × P.VerifyingKey)}
    (verified : Verified P arrivals) (announcer : DeviceId) :
    EntryOf (arrivals.map Prod.fst) announcer
      ((ingestAll P arrivals).announcementFor announcer) := by
  induction arrivals using List.reverseRecOn with
  | nil => exact fun _ nothing => absurd nothing List.not_mem_nil
  | append_singleton arrivals arrival ih =>
    have before := ih fun earlier member => verified earlier (List.mem_append_left _ member)
    have step := ingest_get? (verified arrival (by simp)) (ingestAll P arrivals) announcer
    rw [ingestAll, List.foldl_append, List.foldl_cons, List.foldl_nil, ← ingestAll, step,
      List.map_append]
    split
    · next own => exact before.newer own
    · next other => exact before.other other

/-- A latest announcement that is in the table stays. -/
theorem announcementFor_foldl {announcer : DeviceId} {ann : RouteAnnouncement}
    (arrivals : List (RouteAnnouncement × P.VerifyingKey)) (verified : Verified P arrivals)
    (latest : ∀ arrival ∈ arrivals, arrival.1.announcerDeviceId = announcer →
      arrival.1.stamp ≤ ann.stamp)
    (table : RouteTable) (found : table.announcementFor announcer = some ann) :
    (arrivals.foldl (fun table arrival => (table.ingest P arrival.1 arrival.2).2)
      table).announcementFor announcer = some ann := by
  induction arrivals generalizing table with
  | nil => exact found
  | cons arrival rest ih =>
    refine ih (fun a member => verified a (List.mem_cons_of_mem _ member))
      (fun a member => latest a (List.mem_cons_of_mem _ member)) _ ?_
    rw [ingest_get? (verified arrival List.mem_cons_self), found]
    split
    · next own =>
      have below := latest arrival List.mem_cons_self own
      rw [newer, if_neg]
      rw [dominates_iff]
      exact not_lt.mpr below
    · rfl

/-- The first of several latest announcements stays. -/
theorem ingestAll_cons_latest (arrival : RouteAnnouncement × P.VerifyingKey)
    {arrivals : List (RouteAnnouncement × P.VerifyingKey)}
    (verified : Verified P (arrival :: arrivals))
    (latest : ∀ other ∈ arrivals, other.1.announcerDeviceId = arrival.1.announcerDeviceId →
      other.1.stamp ≤ arrival.1.stamp) :
    (ingestAll P (arrival :: arrivals)).announcementFor arrival.1.announcerDeviceId =
      some arrival.1 := by
  apply announcementFor_foldl arrivals
    (fun a member => verified a (List.mem_cons_of_mem _ member)) latest
  rw [ingest_get? (verified arrival List.mem_cons_self), if_pos rfl]
  rfl

/-- **Tables that hear the same announcements agree in every order exactly when every device has
one latest announcement.**  Otherwise the table keeps whichever of them came first. -/
theorem ingestAll_order_free_iff (P : Pqsig)
    (signed : List (RouteAnnouncement × P.VerifyingKey)) (verified : Verified P signed) :
    (∀ arrivals arrivals' : List (RouteAnnouncement × P.VerifyingKey),
      (∀ a, a ∈ arrivals ↔ a ∈ signed) → (∀ a, a ∈ arrivals' ↔ a ∈ signed) →
      ingestAll P arrivals = ingestAll P arrivals') ↔
    ∀ announcer ann ann', Latest (signed.map Prod.fst) announcer ann →
      Latest (signed.map Prod.fst) announcer ann' → ann = ann' := by
  constructor
  · intro same announcer ann ann' latest latest'
    have first : ∀ b, Latest (signed.map Prod.fst) announcer b → ∃ arrivals,
        (∀ a, a ∈ arrivals ↔ a ∈ signed) ∧
        (ingestAll P arrivals).announcementFor announcer = some b := by
      rintro b ⟨member, rfl, above⟩
      obtain ⟨arrival, listed, rfl⟩ := List.mem_map.mp member
      refine ⟨arrival :: signed, fun a => ?_, ingestAll_cons_latest arrival ?_ ?_⟩
      · rw [List.mem_cons]
        exact ⟨fun either => either.elim (fun same => same ▸ listed) id, .inr⟩
      · exact fun a there => (List.mem_cons.mp there).elim (fun same => same ▸ verified _ listed)
          (verified a)
      · exact fun other there => above other.1 (List.mem_map_of_mem there)
    obtain ⟨arrivals, all, found⟩ := first ann latest
    obtain ⟨arrivals', all', found'⟩ := first ann' latest'
    rw [same arrivals arrivals' all all', found'] at found
    exact (Option.some.inj found).symm
  · intro unique arrivals arrivals' all all'
    have entry : ∀ heard : List (RouteAnnouncement × P.VerifyingKey),
        (∀ a, a ∈ heard ↔ a ∈ signed) → ∀ announcer,
        EntryOf (signed.map Prod.fst) announcer ((ingestAll P heard).announcementFor announcer) := by
      intro heard members announcer
      have mapped : ∀ ann, ann ∈ heard.map Prod.fst ↔ ann ∈ signed.map Prod.fst := by
        intro ann
        simp only [List.mem_map, members]
      have spec := ingestAll_spec (fun a there => verified a ((members a).mp there)) announcer
      cases found : (ingestAll P heard).announcementFor announcer with
      | none =>
        rw [found] at spec
        exact fun ann member => spec ann ((mapped ann).mpr member)
      | some ann =>
        rw [found] at spec
        exact ⟨(mapped ann).mp spec.1, spec.2.1,
          fun other member => spec.2.2 other ((mapped other).mpr member)⟩
    apply ext_announcements
    apply SortedMap.ext_get?
    intro announcer
    have left := entry arrivals all announcer
    have right := entry arrivals' all' announcer
    show (ingestAll P arrivals).announcementFor announcer =
      (ingestAll P arrivals').announcementFor announcer
    cases found : (ingestAll P arrivals).announcementFor announcer with
    | none =>
      cases found' : (ingestAll P arrivals').announcementFor announcer with
      | none => rfl
      | some ann' =>
        rw [found] at left
        rw [found'] at right
        exact absurd right.2.1 (left ann' right.1)
    | some ann =>
      cases found' : (ingestAll P arrivals').announcementFor announcer with
      | none =>
        rw [found] at left
        rw [found'] at right
        exact absurd left.2.1 (right ann left.1)
      | some ann' =>
        rw [found] at left
        rw [found'] at right
        rw [unique announcer ann ann' left right]

section Examples

/-- The key of a phone on the day zero. -/
def phoneKey : DeviceSubkey := ⟨[1], .phone, filled 16 1, 0⟩

/-- One direct link, seen in the first second, with the given score. -/
def linkWithScore (score : UInt32) : PeerLink := ⟨filled 16 2, score, 1, true⟩

/-- What the phone announces in the first second. -/
def phoneAnnouncement (score : UInt32) : RouteAnnouncement :=
  { announcerDeviceId := phoneKey.deviceId
    announcerDayIndex := 0
    announcedAtUnix := 1
    links := [linkWithScore score]
    announcerSig := phoneKey.sign bytePqsig
      (RouteAnnouncement.canonicalTranscript phoneKey.deviceId 0 1 [linkWithScore score]) }

theorem sign_phoneAnnouncement (score : UInt32) :
    signRouteAnnouncement bytePqsig phoneKey 1 [linkWithScore score] =
      .ok (phoneAnnouncement score) := by
  have links : (dedupByKey (·.peerDeviceId)
      ([linkWithScore score].mergeSort PeerLink.before)).filter
        (·.peerDeviceId ≠ phoneKey.deviceId) = [linkWithScore score] := by
    rw [List.mergeSort_singleton, dedupByKey, dedupByKey, List.filter_cons_of_pos, List.filter_nil]
    show decide ((⟨List.replicate 16 2, rfl⟩ : DeviceId) ≠ ⟨List.replicate 16 1, rfl⟩) = true
    decide
  simp only [signRouteAnnouncement, links]
  rfl

theorem verified_phoneAnnouncement (score : UInt32) :
    (phoneAnnouncement score).verify bytePqsig (phoneKey.verifyingKey bytePqsig) = .ok () :=
  sign_verifies bytePqsig_lawful (sign_phoneAnnouncement score)

theorem ingestAll_order_free_iff_phone :
    let heard := [(phoneAnnouncement 10, phoneKey.verifyingKey bytePqsig)]
    ∀ arrivals, (∀ a, a ∈ arrivals ↔ a ∈ heard) →
      ingestAll bytePqsig arrivals = ingestAll bytePqsig heard := by
  intro heard arrivals members
  have verified : Verified bytePqsig heard := by
    intro arrival here
    rw [List.mem_singleton.mp here]
    exact verified_phoneAnnouncement 10
  refine (ingestAll_order_free_iff bytePqsig heard verified).mpr ?_ arrivals heard members
    fun _ => Iff.rfl
  intro announcer ann ann' latest latest'
  rw [List.mem_singleton.mp latest.1, List.mem_singleton.mp latest'.1]

/-- A phone signs two announcements in one second; the table keeps the one it hears first. -/
theorem ingestAll_depends_on_order :
    let vk := phoneKey.verifyingKey bytePqsig
    signRouteAnnouncement bytePqsig phoneKey 1 [linkWithScore 10] = .ok (phoneAnnouncement 10) ∧
    signRouteAnnouncement bytePqsig phoneKey 1 [linkWithScore 20] = .ok (phoneAnnouncement 20) ∧
    (phoneAnnouncement 10).verify bytePqsig vk = .ok () ∧
    (phoneAnnouncement 20).verify bytePqsig vk = .ok () ∧
    ingestAll bytePqsig [(phoneAnnouncement 10, vk), (phoneAnnouncement 20, vk)] ≠
      ingestAll bytePqsig [(phoneAnnouncement 20, vk), (phoneAnnouncement 10, vk)] := by
  intro vk
  have first (score score' : UInt32) :
      (ingestAll bytePqsig [(phoneAnnouncement score, vk),
        (phoneAnnouncement score', vk)]).announcementFor phoneKey.deviceId =
      some (phoneAnnouncement score) := by
    refine ingestAll_cons_latest (phoneAnnouncement score, vk) ?_ ?_
    · intro arrival here
      rcases List.mem_cons.mp here with rfl | here
      · exact verified_phoneAnnouncement score
      · rw [List.mem_singleton.mp here]
        exact verified_phoneAnnouncement score'
    · intro other here _
      rw [List.mem_singleton.mp here]
      exact le_refl (phoneAnnouncement score).stamp
  refine ⟨sign_phoneAnnouncement 10, sign_phoneAnnouncement 20, verified_phoneAnnouncement 10,
    verified_phoneAnnouncement 20, ?_⟩
  intro same
  have entry := first 10 20
  rw [same, first 20 10] at entry
  have links := congrArg RouteAnnouncement.links (Option.some.inj entry)
  have apart : [linkWithScore 20] ≠ [linkWithScore 10] := by decide
  exact apart links

end Examples

end RouteTable

end OneLink.DeviceMesh
