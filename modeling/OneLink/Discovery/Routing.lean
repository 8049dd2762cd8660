/-
# Discovery.Routing -- the k-bucket table as the source computes it

A node id is thirty-two bytes, its distance to another the exclusive or of the
two read as a big-endian number.  A bucket is a queue, least recently seen peer
at the head; a full bucket answers `insert` with its head, and the caller comes
back with `replace_head_on_timeout` after a PING that may take any time.

A call leaves the table alone, takes a peer out of one bucket, or puts a peer at
the tail of its own bucket behind entries that were there before
(`step_cases`).  The third case needs the peer not to be among them.  `insert`
looks; `replace_head_on_timeout` does not, and `Call.Safe` is what its caller
has to know.  Runs whose calls are safe keep the invariant, and the first call
that is not breaks it (`routing_table_invariant_iff`).
-/
import Mathlib.Data.List.Nodup
import Mathlib.Data.List.Pairwise
import OneLink.Library.FixedWidth
import OneLink.Library.Run

namespace OneLink.Discovery

set_option autoImplicit false

open Library

/-! ## Node ids -/

/-- `NODE_ID_BITS`, and the number of buckets. -/
def nodeIdBits : Nat := 256

structure NodeId where
  bytes : Bytes
  length_bytes : bytes.length = 32
deriving DecidableEq

namespace NodeId

/-- `NodeId::distance`. -/
def distance (self other : NodeId) : Bytes :=
  List.zipWith (fun a b => a ^^^ b) self.bytes other.bytes

/-- `NodeId::xor_leading_zeros`. -/
def xorLeadingZeros (self other : NodeId) : Nat := leadingZeros (self.distance other)

/-- `NodeId::bucket_index`. -/
def bucketIndex (self other : NodeId) : Option (Fin nodeIdBits) :=
  if inside : self.xorLeadingZeros other < nodeIdBits then some ⟨_, inside⟩ else none

end NodeId

/-- `closer_to`. -/
def closerTo (a b target : NodeId) : Ordering :=
  compareBytes (a.distance target) (b.distance target)

/-! ## The table -/

/-- `MAX_K_BUCKET_SIZE`. -/
def maxKBucketSize : Nat := 256

structure BucketEntry where
  id : NodeId
  lastSeenUnix : Nat
deriving DecidableEq

inductive InsertOutcome where
  | inserted
  | bumpedToTail
  | selfInsertIgnored
  | bucketFull (head : BucketEntry)
deriving DecidableEq

structure Bucket where
  entries : List BucketEntry := []
  lastRefreshUnix : Nat := 0
deriving DecidableEq

structure RoutingTable where
  ownId : NodeId
  k : Nat
  buckets : Vector Bucket nodeIdBits

namespace RoutingTable

/-- `RoutingTable::with_k`. -/
def withK (ownId : NodeId) (k : Nat) : RoutingTable where
  ownId := ownId
  k := max 1 (min k maxKBucketSize)
  buckets := Vector.replicate nodeIdBits {}

/-- The table with one bucket rewritten. -/
def setBucket (t : RoutingTable) (idx : Fin nodeIdBits) (bucket : Bucket) : RoutingTable :=
  { t with buckets := t.buckets.set idx bucket }

/-- `RoutingTable::insert`. -/
def insert (t : RoutingTable) (id : NodeId) (lastSeenUnix : Nat) : InsertOutcome × RoutingTable :=
  match t.ownId.bucketIndex id with
  | none => (.selfInsertIgnored, t)
  | some idx =>
    match t.buckets[idx].entries.findIdx? (·.id = id) with
    | some pos =>
      (.bumpedToTail, t.setBucket idx
        ⟨t.buckets[idx].entries.eraseIdx pos ++ [⟨id, lastSeenUnix⟩], lastSeenUnix⟩)
    | none =>
      if t.buckets[idx].entries.length < t.k then
        (.inserted, t.setBucket idx
          ⟨t.buckets[idx].entries ++ [⟨id, lastSeenUnix⟩], lastSeenUnix⟩)
      else
        match t.buckets[idx].entries with
        | head :: _ => (.bucketFull head, t)
        | [] => (.selfInsertIgnored, t)

/-- `RoutingTable::replace_head_on_timeout`. -/
def replaceHeadOnTimeout (t : RoutingTable) (timedOutHead newPeer : NodeId) (lastSeenUnix : Nat) :
    Bool × RoutingTable :=
  match t.ownId.bucketIndex newPeer with
  | none => (false, t)
  | some idx =>
    match t.buckets[idx].entries with
    | [] => (false, t)
    | head :: rest =>
      if head.id = timedOutHead then
        (true, t.setBucket idx ⟨rest ++ [⟨newPeer, lastSeenUnix⟩], lastSeenUnix⟩)
      else (false, t)

/-- `RoutingTable::remove`. -/
def remove (t : RoutingTable) (id : NodeId) : Bool × RoutingTable :=
  match t.ownId.bucketIndex id with
  | none => (false, t)
  | some idx =>
    match t.buckets[idx].entries.findIdx? (·.id = id) with
    | some pos =>
      (true, t.setBucket idx { t.buckets[idx] with entries := t.buckets[idx].entries.eraseIdx pos })
    | none => (false, t)

/-- `RoutingTable::contains`. -/
def contains (t : RoutingTable) (id : NodeId) : Bool :=
  match t.ownId.bucketIndex id with
  | none => false
  | some idx => t.buckets[idx].entries.any (·.id = id)

/-- Every entry of the table, bucket by bucket. -/
def all (t : RoutingTable) : List BucketEntry := t.buckets.toList.flatMap Bucket.entries

/-- `RoutingTable::closest_n_to`. -/
def closestNTo (t : RoutingTable) (target : NodeId) (n : Nat) : List BucketEntry :=
  (t.all.mergeSort fun a b => closerTo a.id b.id target != .gt).take n

/-- `RoutingTable::closest_to`. -/
def closestTo (t : RoutingTable) (target : NodeId) : List BucketEntry := t.closestNTo target t.k

end RoutingTable

/-! ## Calls on a table -/

inductive Call where
  | insert (id : NodeId) (lastSeenUnix : Nat)
  | replaceHeadOnTimeout (timedOutHead newPeer : NodeId) (lastSeenUnix : Nat)
  | remove (id : NodeId)

/-- A table, and its peers in the order of their latest sightings: each stands where it was last
inserted, bumped or put in for a head, with the time reported there. -/
structure Observed where
  table : RoutingTable
  latest : List BucketEntry

/-- The order of sightings after one more. -/
def sight (latest : List BucketEntry) (entry : BucketEntry) : List BucketEntry :=
  latest.filter (·.id ≠ entry.id) ++ [entry]

/-- One call, and the sighting it makes if it takes the peer in. -/
def Observed.step (s : Observed) : Call → Observed
  | .insert id time =>
    match s.table.insert id time with
    | (.inserted, table) | (.bumpedToTail, table) => ⟨table, sight s.latest ⟨id, time⟩⟩
    | (_, table) => ⟨table, s.latest⟩
  | .replaceHeadOnTimeout head peer time =>
    match s.table.replaceHeadOnTimeout head peer time with
    | (true, table) => ⟨table, sight s.latest ⟨peer, time⟩⟩
    | (false, table) => ⟨table, s.latest⟩
  | .remove id => ⟨(s.table.remove id).2, s.latest⟩

def Observed.start (ownId : NodeId) (k : Nat) : Observed := ⟨.withK ownId k, []⟩

/-! ## Distances -/

theorem NodeId.length_distance (a b : NodeId) : (a.distance b).length = 32 := by
  rw [NodeId.distance, List.length_zipWith, a.length_bytes, b.length_bytes, Nat.min_self]

/-- The distance as a number. -/
def xorDistance (a b : NodeId) : Nat := beValue (a.distance b)

theorem NodeId.ext_bytes {a b : NodeId} (same : a.bytes = b.bytes) : a = b := by
  cases a; cases b; cases same; rfl

theorem xorDistance_inj {a b target : NodeId} (same : xorDistance a target = xorDistance b target) :
    a = b := by
  have bytes := beValue_inj (by rw [a.length_distance, b.length_distance]) same
  refine NodeId.ext_bytes (List.ext_getElem (by rw [a.length_bytes, b.length_bytes])
    fun i left right => ?_)
  have inside : i < target.bytes.length := by rwa [target.length_bytes, ← a.length_bytes]
  have here := congrArg (fun l => l[i]?) bytes
  simp only [NodeId.distance, List.getElem?_zipWith, List.getElem?_eq_getElem left,
    List.getElem?_eq_getElem right, List.getElem?_eq_getElem inside, Option.some.injEq] at here
  exact (UInt8.xor_left_inj _).1 here

theorem xorDistance_self (a : NodeId) : xorDistance a a = 0 := by
  have zeros : a.distance a = List.replicate 32 0 := by
    refine List.ext_getElem (by rw [a.length_distance, List.length_replicate]) fun i _ _ => ?_
    rw [List.getElem_replicate]
    simp [NodeId.distance]
  rw [xorDistance, zeros]
  decide

/-- A bucket holds one binary order of magnitude of distances. -/
theorem bucketIndex_eq_some {own id : NodeId} {idx : Fin nodeIdBits}
    (placed : own.bucketIndex id = some idx) :
    2 ^ (255 - idx.val) ≤ xorDistance own id ∧ xorDistance own id < 2 ^ (256 - idx.val) := by
  rw [NodeId.bucketIndex] at placed
  split at placed
  · rename_i inside
    obtain rfl := Option.some.inj placed
    have spec := leadingZeros_spec (own.distance id)
    rw [own.length_distance] at spec
    obtain ⟨_, full⟩ | ⟨_, bounds⟩ := spec
    · exact absurd inside (by rw [NodeId.xorLeadingZeros, full]; decide)
    · exact bounds
  · cases placed

theorem bucketIndex_self (own : NodeId) : own.bucketIndex own = none := by
  cases placed : own.bucketIndex own with
  | none => rfl
  | some idx =>
    have positive := (bucketIndex_eq_some placed).1
    rw [xorDistance_self] at positive
    exact absurd positive (Nat.not_le.2 (Nat.two_pow_pos _))

/-! ## Buckets of a table -/

theorem setBucket_bucket (t : RoutingTable) (idx i : Fin nodeIdBits) (b : Bucket) :
    (t.setBucket idx b).buckets[i] = if i = idx then b else t.buckets[i] := by
  simp only [RoutingTable.setBucket, Fin.getElem_fin, Vector.getElem_set, Fin.ext_iff, eq_comm]

theorem mem_all {t : RoutingTable} {e : BucketEntry} :
    e ∈ t.all ↔ ∃ i : Fin nodeIdBits, e ∈ t.buckets[i].entries := by
  rw [RoutingTable.all, List.mem_flatMap]
  constructor
  · rintro ⟨bucket, mem, inside⟩
    obtain ⟨i, bound, rfl⟩ := List.mem_iff_getElem.1 mem
    exact ⟨⟨i, by simpa using bound⟩, by simpa using inside⟩
  · rintro ⟨i, inside⟩
    exact ⟨t.buckets[i], by simp, inside⟩

/-! ## The invariant -/

/-- Every bucket is small, holds peers of its own prefix, and lists them in the order of their
latest sightings; no peer has two latest sightings. -/
structure Sound (s : Observed) : Prop where
  sized : ∀ i : Fin nodeIdBits, s.table.buckets[i].entries.length ≤ s.table.k
  placed : ∀ (i : Fin nodeIdBits) (e : BucketEntry), e ∈ s.table.buckets[i].entries →
    s.table.ownId.bucketIndex e.id = some i
  ordered : ∀ i : Fin nodeIdBits, s.table.buckets[i].entries.Sublist s.latest
  once : (s.latest.map BucketEntry.id).Nodup

theorem sound_start (ownId : NodeId) (k : Nat) : Sound (.start ownId k) where
  sized i := by simp [Observed.start, RoutingTable.withK]
  placed i e mem := by simp [Observed.start, RoutingTable.withK] at mem
  ordered i := by simp [Observed.start, RoutingTable.withK]
  once := List.nodup_nil

theorem Sound.bucket_nodup {s : Observed} (sound : Sound s) (i : Fin nodeIdBits) :
    (s.table.buckets[i].entries.map BucketEntry.id).Nodup :=
  sound.once.sublist ((sound.ordered i).map _)

/-- A replacement does not put in a peer that stands behind the head it evicts. -/
def Call.Safe (t : RoutingTable) : Call → Prop
  | .replaceHeadOnTimeout timedOutHead newPeer _ => ∀ (idx : Fin nodeIdBits) (head : BucketEntry)
      (rest : List BucketEntry), t.ownId.bucketIndex newPeer = some idx →
      t.buckets[idx].entries = head :: rest → head.id = timedOutHead →
      newPeer ∉ rest.map BucketEntry.id
  | _ => True

/-- What a call does to the table and to the order of sightings. -/
inductive Moved (s : Observed) : Observed → Prop
  | nothing : Moved s s
  | out {idx : Fin nodeIdBits} {kept : List BucketEntry} {time : Nat}
      (stay : kept.Sublist s.table.buckets[idx].entries) :
      Moved s ⟨s.table.setBucket idx ⟨kept, time⟩, s.latest⟩
  | taken {idx : Fin nodeIdBits} {kept : List BucketEntry} {entry : BucketEntry}
      (place : s.table.ownId.bucketIndex entry.id = some idx)
      (stay : kept.Sublist s.table.buckets[idx].entries)
      (absent : entry.id ∉ kept.map BucketEntry.id) (room : kept.length < s.table.k) :
      Moved s ⟨s.table.setBucket idx ⟨kept ++ [entry], entry.lastSeenUnix⟩, sight s.latest entry⟩

/-! ## One call -/

theorem eraseIdx_absent {entries : List BucketEntry} {id : NodeId} {pos : Nat}
    (distinct : (entries.map BucketEntry.id).Nodup)
    (found : entries.findIdx? (·.id = id) = some pos) :
    id ∉ (entries.eraseIdx pos).map BucketEntry.id := by
  obtain ⟨inside, here, _⟩ := List.findIdx?_eq_some_iff_getElem.1 found
  rw [decide_eq_true_eq] at here
  intro mem
  obtain ⟨e, kept, same⟩ := List.mem_map.1 mem
  obtain ⟨j, bound, differs, rfl⟩ := List.mem_eraseIdx_iff_getElem.1 kept
  refine differs ((@List.Nodup.getElem_inj_iff _ _ distinct j (by simpa using bound) pos
    (by simpa using inside)).1 ?_)
  rw [List.getElem_map, List.getElem_map, same, here]

theorem Sound.insert_moved {s : Observed} (sound : Sound s) (id : NodeId) (time : Nat) :
    Moved s (s.step (.insert id time)) := by
  simp only [Observed.step, RoutingTable.insert]
  cases place : s.table.ownId.bucketIndex id with
  | none => exact .nothing
  | some idx =>
    simp only
    cases found : s.table.buckets[idx].entries.findIdx? (·.id = id) with
    | some pos =>
      obtain ⟨inside, _⟩ := List.findIdx?_eq_some_iff_getElem.1 found
      have shorter := List.length_eraseIdx_of_lt inside
      have sized := sound.sized idx
      exact @Moved.taken s idx _ ⟨id, time⟩ place (List.eraseIdx_sublist _ _)
        (eraseIdx_absent (sound.bucket_nodup idx) found) (by omega)
    | none =>
      simp only
      by_cases room : s.table.buckets[idx].entries.length < s.table.k
      · simp only [if_pos room]
        refine @Moved.taken s idx _ ⟨id, time⟩ place (List.Sublist.refl _) ?_ room
        simpa [List.findIdx?_eq_none_iff] using found
      · simp only [if_neg room]
        cases s.table.buckets[idx].entries with
        | nil => exact .nothing
        | cons head rest => exact .nothing

theorem Sound.replace_moved {s : Observed} (sound : Sound s) {head peer : NodeId} {time : Nat}
    (safe : (Call.replaceHeadOnTimeout head peer time).Safe s.table) :
    Moved s (s.step (.replaceHeadOnTimeout head peer time)) := by
  simp only [Observed.step, RoutingTable.replaceHeadOnTimeout]
  cases place : s.table.ownId.bucketIndex peer with
  | none => exact .nothing
  | some idx =>
    simp only
    cases entries : s.table.buckets[idx].entries with
    | nil => exact .nothing
    | cons first rest =>
      simp only
      by_cases timedOut : first.id = head
      · simp only [if_pos timedOut]
        have sized := sound.sized idx
        rw [entries, List.length_cons] at sized
        refine @Moved.taken s idx rest ⟨peer, time⟩ place ?_ (safe idx first rest place entries timedOut)
          (by omega)
        rw [entries]
        exact List.sublist_cons_self _ _
      · simp only [if_neg timedOut]
        exact .nothing

theorem remove_moved (s : Observed) (id : NodeId) : Moved s (s.step (.remove id)) := by
  simp only [Observed.step, RoutingTable.remove]
  cases s.table.ownId.bucketIndex id with
  | none => exact .nothing
  | some idx =>
    simp only
    cases s.table.buckets[idx].entries.findIdx? (·.id = id) with
    | none => exact .nothing
    | some pos => exact .out (List.eraseIdx_sublist _ _)

/-- **What a safe call does**, read off the three functions once. -/
theorem Sound.step_cases {s : Observed} (sound : Sound s) {call : Call} (safe : call.Safe s.table) :
    Moved s (s.step call) := by
  cases call with
  | insert id time => exact sound.insert_moved id time
  | replaceHeadOnTimeout head peer time => exact sound.replace_moved safe
  | remove id => exact remove_moved s id

theorem filter_absent {entries : List BucketEntry} {id : NodeId}
    (absent : id ∉ entries.map BucketEntry.id) : entries.filter (·.id ≠ id) = entries := by
  refine List.filter_eq_self.2 fun e mem => ?_
  rw [decide_eq_true_eq]
  rintro rfl
  exact absent (List.mem_map_of_mem mem)

/-- A new sighting moves one peer to the end and keeps the order of the others. -/
theorem sublist_sight {entries latest : List BucketEntry} {entry : BucketEntry}
    (ordered : entries.Sublist latest) (absent : entry.id ∉ entries.map BucketEntry.id) :
    entries.Sublist (latest.filter (·.id ≠ entry.id)) := by
  rw [← filter_absent absent]
  exact ordered.filter _

theorem sight_once {latest : List BucketEntry} (once : (latest.map BucketEntry.id).Nodup)
    (entry : BucketEntry) : ((sight latest entry).map BucketEntry.id).Nodup := by
  rw [sight, List.map_append, List.map_singleton, List.nodup_append]
  refine ⟨once.sublist (List.filter_sublist.map _), List.nodup_singleton _, ?_⟩
  intro id mem other single
  obtain ⟨e, kept, rfl⟩ := List.mem_map.1 mem
  rw [List.mem_singleton.1 single]
  exact of_decide_eq_true (List.mem_filter.1 kept).2

/-- The step lemma. -/
theorem Sound.moved {s s' : Observed} (sound : Sound s) (moved : Moved s s') : Sound s' := by
  cases moved with
  | nothing => exact sound
  | @out idx kept time stay =>
    refine ⟨fun i => ?_, fun i e mem => ?_, fun i => ?_, sound.once⟩
    · rw [setBucket_bucket]
      split
      · rename_i same
        subst same
        exact stay.length_le.trans (sound.sized i)
      · exact sound.sized i
    · rw [setBucket_bucket] at mem
      split at mem
      · rename_i same
        subst same
        exact sound.placed i e (stay.subset mem)
      · exact sound.placed i e mem
    · rw [setBucket_bucket]
      split
      · rename_i same
        subst same
        exact stay.trans (sound.ordered i)
      · exact sound.ordered i
  | @taken idx kept entry place stay absent room =>
    refine ⟨fun i => ?_, fun i e mem => ?_, fun i => ?_, sight_once sound.once entry⟩
    · rw [setBucket_bucket]
      split
      · rw [List.length_append, List.length_singleton]
        exact room
      · exact sound.sized i
    · rw [setBucket_bucket] at mem
      split at mem
      · rename_i same
        subst same
        obtain old | new := List.mem_append.1 mem
        · exact sound.placed i e (stay.subset old)
        · rw [List.mem_singleton.1 new]
          exact place
      · exact sound.placed i e mem
    · rw [setBucket_bucket]
      split
      · rename_i same
        subst same
        exact (sublist_sight (stay.trans (sound.ordered i)) absent).append (List.Sublist.refl _)
      · rename_i other
        have elsewhere : entry.id ∉ s.table.buckets[i].entries.map BucketEntry.id := by
          intro mem
          obtain ⟨e, inside, same⟩ := List.mem_map.1 mem
          have here := sound.placed i e inside
          rw [same, place] at here
          exact other (Option.some.inj here).symm
        exact (sublist_sight (sound.ordered i) elsewhere).trans (List.sublist_append_left _ _)

/-! ## What the table promises -/

/-- The answer to a lookup: as many entries as asked for and held, in increasing distance, and
nearer than every entry left out. -/
structure Nearest (entries : List BucketEntry) (target : NodeId) (n : Nat)
    (answer : List BucketEntry) : Prop where
  count : answer.length = min n entries.length
  member : ∀ e ∈ answer, e ∈ entries
  increasing : answer.Pairwise fun a b => xorDistance a.id target < xorDistance b.id target
  nearest : ∀ a ∈ answer, ∀ e ∈ entries, e ∉ answer →
    xorDistance a.id target < xorDistance e.id target

structure Kademlia (s : Observed) : Prop where
  sized : ∀ i : Fin nodeIdBits, s.table.buckets[i].entries.length ≤ s.table.k
  distinct : (s.table.all.map BucketEntry.id).Nodup
  placed : ∀ (i : Fin nodeIdBits) (e : BucketEntry), e ∈ s.table.buckets[i].entries →
    2 ^ (255 - i.val) ≤ xorDistance s.table.ownId e.id ∧
      xorDistance s.table.ownId e.id < 2 ^ (256 - i.val)
  notSelf : ∀ e ∈ s.table.all, e.id ≠ s.table.ownId
  ordered : ∀ i : Fin nodeIdBits, s.table.buckets[i].entries.Sublist s.latest
  lookups : ∀ target n, Nearest s.table.all target n (s.table.closestNTo target n)

theorem Sound.distinct {s : Observed} (sound : Sound s) :
    (s.table.all.map BucketEntry.id).Nodup := by
  rw [RoutingTable.all, List.map_flatMap, List.nodup_flatMap]
  constructor
  · intro bucket mem
    obtain ⟨i, bound, rfl⟩ := List.mem_iff_getElem.1 mem
    have inside : i < nodeIdBits := by simpa using bound
    simpa using sound.bucket_nodup ⟨i, inside⟩
  · rw [List.pairwise_iff_getElem]
    intro i j boundI boundJ less id left right
    have insideI : i < nodeIdBits := by simpa using boundI
    have insideJ : j < nodeIdBits := by simpa using boundJ
    obtain ⟨e, memE, rfl⟩ := List.mem_map.1 left
    obtain ⟨f, memF, same⟩ := List.mem_map.1 right
    have placeE := sound.placed ⟨i, insideI⟩ e (by simpa using memE)
    have placeF := sound.placed ⟨j, insideJ⟩ f (by simpa using memF)
    rw [same, placeE] at placeF
    exact Nat.ne_of_lt less (congrArg Fin.val (Option.some.inj placeF))

theorem closerTo_eq (a b target : NodeId) :
    closerTo a b target =
      if xorDistance a target < xorDistance b target then .lt
      else if xorDistance b target < xorDistance a target then .gt else .eq :=
  compareBytes_eq (by rw [a.length_distance, b.length_distance])

theorem nearer_iff (a b target : NodeId) :
    (closerTo a b target != .gt) = true ↔ xorDistance a target ≤ xorDistance b target := by
  rw [closerTo_eq]
  split
  · exact ⟨fun _ => by omega, fun _ => rfl⟩
  · split
    · exact ⟨fun absurd => (nomatch absurd), fun _ => by omega⟩
    · exact ⟨fun _ => by omega, fun _ => rfl⟩

/-- Sorting distinct ids by distance sorts them strictly. -/
theorem closestNTo_nearest {t : RoutingTable} (distinct : (t.all.map BucketEntry.id).Nodup)
    (target : NodeId) (n : Nat) : Nearest t.all target n (t.closestNTo target n) := by
  rw [RoutingTable.closestNTo]
  have perm := List.mergeSort_perm t.all fun a b => closerTo a.id b.id target != .gt
  have sorted := List.pairwise_mergeSort
    (fun (a b c : BucketEntry) ab bc =>
      (nearer_iff a.id c.id target).2
        (((nearer_iff a.id b.id target).1 ab).trans ((nearer_iff b.id c.id target).1 bc)))
    (fun (a b : BucketEntry) => Bool.or_eq_true_iff.2
      ((Nat.le_total (xorDistance a.id target) (xorDistance b.id target)).imp
        (nearer_iff a.id b.id target).2 (nearer_iff b.id a.id target).2)) t.all
  generalize t.all.mergeSort (fun a b => closerTo a.id b.id target != .gt) = byDistance at *
  have ids : byDistance.Pairwise fun a b => a.id ≠ b.id :=
    List.pairwise_map.1 ((perm.map BucketEntry.id).nodup_iff.2 distinct)
  have strict : byDistance.Pairwise fun a b => xorDistance a.id target < xorDistance b.id target :=
    (sorted.and ids).imp fun both =>
      Nat.lt_of_le_of_ne ((nearer_iff _ _ _).1 both.1) fun same => both.2 (xorDistance_inj same)
  refine ⟨?_, fun e mem => perm.mem_iff.1 (List.mem_of_mem_take mem),
    strict.sublist (List.take_sublist _ _), fun a taken e mem left => ?_⟩
  · rw [List.length_take, perm.length_eq]
  · have split := List.take_append_drop n byDistance
    have dropped : e ∈ byDistance.drop n := by
      have whole := perm.mem_iff.2 mem
      rw [← split] at whole
      exact (List.mem_append.1 whole).resolve_left left
    rw [← split, List.pairwise_append] at strict
    exact strict.2.2 a taken e dropped

theorem Sound.kademlia {s : Observed} (sound : Sound s) : Kademlia s where
  sized := sound.sized
  distinct := sound.distinct
  placed i e mem := bucketIndex_eq_some (sound.placed i e mem)
  notSelf e mem same := by
    obtain ⟨i, inside⟩ := mem_all.1 mem
    have placed := sound.placed i e inside
    rw [same, bucketIndex_self] at placed
    cases placed
  ordered := sound.ordered
  lookups := closestNTo_nearest sound.distinct

/-! ## Runs -/

/-- A call that is not safe leaves its peer in the bucket twice. -/
theorem unsafe_breaks {s : Observed} {call : Call} (not_safe : ¬ call.Safe s.table) :
    ¬ Kademlia (s.step call) := by
  intro after
  cases call with
  | insert id time => exact not_safe trivial
  | remove id => exact not_safe trivial
  | replaceHeadOnTimeout head peer time =>
    simp only [Call.Safe, not_forall, not_not] at not_safe
    obtain ⟨idx, first, rest, place, entries, timedOut, twice⟩ := not_safe
    have bucket : (s.step (.replaceHeadOnTimeout head peer time)).table.buckets[idx].entries =
        rest ++ [⟨peer, time⟩] := by
      simp only [Observed.step, RoutingTable.replaceHeadOnTimeout, place, entries, if_pos timedOut]
      rw [setBucket_bucket, if_pos rfl]
    have inBucket : ((s.step (.replaceHeadOnTimeout head peer time)).table.buckets[idx].entries.map
        BucketEntry.id).Nodup := by
      have distinct := after.distinct
      rw [RoutingTable.all, List.map_flatMap, List.nodup_flatMap] at distinct
      exact distinct.1 _ (by simp)
    rw [bucket, List.map_append, List.nodup_append] at inBucket
    exact inBucket.2.2 peer twice peer (by simp) rfl

/-- **The table invariant**: it holds in every state of a run exactly if no replacement of the run
puts in a peer that stands behind the head it evicts. -/
theorem routing_table_invariant_iff (ownId : NodeId) (k : Nat) (calls : List Call) :
    (∀ early late, calls = early ++ late →
      Kademlia (run Observed.step (.start ownId k) early)) ↔
    EachStep Observed.step (fun s call => call.Safe s.table) (.start ownId k) calls := by
  have keeps : ∀ (s : Observed) (call : Call), Sound s → call.Safe s.table → Sound (s.step call) :=
    fun s call sound safe => sound.moved (sound.step_cases safe)
  constructor
  · intro holds
    refine eachStep_iff_split.2 fun early call late split => ?_
    by_contra not_safe
    have after := holds (early ++ [call]) late (by rw [split, List.append_assoc, List.singleton_append])
    rw [run_append, run_cons, run_nil] at after
    exact unsafe_breaks not_safe after
  · rintro guarded early late rfl
    exact (run_invariant keeps (sound_start ownId k) (eachStep_append.1 guarded).1).kademlia

def zeroId : NodeId := ⟨_, (filled 32 0).property⟩

/-- A peer of the farthest bucket from `zeroId`. -/
def farPeer (byte : UInt8) : NodeId := ⟨0x80 :: byte :: List.replicate 30 0, rfl⟩

def farBucket : Fin nodeIdBits := ⟨0, by decide⟩

/-- While the PING of peer one is out, peer two leaves and the waiting peer three gets in by an
insert of its own; then the PING times out. -/
def lateTimeout : List Call :=
  [.insert (farPeer 1) 10, .insert (farPeer 2) 20, .insert (farPeer 3) 30, .remove (farPeer 2),
    .insert (farPeer 3) 40, .replaceHeadOnTimeout (farPeer 1) (farPeer 3) 50]

theorem late_timeout_duplicates : ¬ Kademlia (run Observed.step (.start zeroId 2) lateTimeout) := by
  intro holds
  have twice : (run Observed.step (.start zeroId 2) lateTimeout).table.buckets[farBucket].entries.map
      BucketEntry.id = [farPeer 3, farPeer 3] := by decide +kernel
  have distinct := holds.distinct
  rw [RoutingTable.all, List.map_flatMap, List.nodup_flatMap] at distinct
  have bucket := distinct.1
    (run Observed.step (.start zeroId 2) lateTimeout).table.buckets[farBucket] (by simp)
  rw [twice] at bucket
  simp at bucket

end OneLink.Discovery
