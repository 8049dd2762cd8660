/-
# Crdt.Convergence — replicas that exchange manifest entries

Replicas of one file write, send what they hold and merge what they receive, in
any order.  `merged` records, beside each entry, which writes went into it;
`Exchanged` is the closure of the writes under `merge_manifest_entries`: every
order, grouping and repetition in which they can be merged.

Whether two ways of merging one set of writes agree depends on the writes alone
(`manifest_converges_iff`): they all agree exactly when no superseded write
outranks both the write that superseded it and a third, concurrent one.  Such a
write comes back from the dead at replicas that merged it with the concurrent
one before they saw it superseded (`replicas_diverge`).
-/
import OneLink.Crdt.Manifest
import OneLink.Library.CausalMerge
import OneLink.Library.Run

namespace OneLink.Crdt

open Library ManifestEntry

set_option autoImplicit false

/-! ## Replicas -/

structure Write where
  author : String
  entry : ManifestEntry

/-- An entry, with the indices of the writes merged into it. -/
structure Held where
  entry : ManifestEntry
  merged : Finset Nat

structure Net where
  replicas : String → Option Held
  sent : List Held
  writes : List Write

inductive Action where
  | write (node : String) (blobHash : Option String) (mtimeMs : Option Int)
  | send (node : String)
  | receive (node : String) (message : Nat)

def Net.init : Net := ⟨fun _ => none, [], []⟩

/-- The clock a replica currently holds. -/
def Net.clockOf (s : Net) (node : String) : VectorClock :=
  match s.replicas node with
  | none => .empty
  | some held => held.entry.vclock

def Net.mergedOf (s : Net) (node : String) : Finset Nat :=
  match s.replicas node with
  | none => ∅
  | some held => held.merged

variable (path : String) (sizeOf : String → Nat)

/-- One step; `sizeOf` is the size of the content with a given hash. -/
def Net.step (s : Net) : Action → Net
  | .write node blobHash mtimeMs =>
    let entry : ManifestEntry :=
      { filePath := path, blobHash, size := blobHash.map sizeOf, mtimeMs,
        vclock := (s.clockOf node).increment node }
    { s with
      replicas := Function.update s.replicas node
        (some ⟨entry, insert s.writes.length (s.mergedOf node)⟩)
      writes := s.writes ++ [⟨node, entry⟩] }
  | .send node =>
    match s.replicas node with
    | none => s
    | some held => { s with sent := s.sent ++ [held] }
  | .receive node message =>
    match s.sent[message]? with
    | none => s
    | some remote =>
      match mergeManifestEntries ((s.replicas node).map Held.entry) (some remote.entry) with
      | .ok (some winner) =>
        { s with
          replicas := Function.update s.replicas node
            (some ⟨winner, s.mergedOf node ∪ remote.merged⟩) }
      | _ => s

/-- Every entry that merging the writes `S`, in some order and grouping, gives. -/
inductive Exchanged (writes : List Write) : ManifestEntry → Finset Nat → Prop where
  | write {i : Nat} {w : Write} (found : writes[i]? = some w) : Exchanged writes w.entry {i}
  | merge {l r m : ManifestEntry} {S T : Finset Nat} (left : Exchanged writes l S)
      (right : Exchanged writes r T)
      (merged : mergeManifestEntries (some l) (some r) = .ok (some m)) :
      Exchanged writes m (S ∪ T)

/-- No superseded write outranks both what superseded it and a write concurrent
with both. -/
def NoResurrection (writes : List Write) : Prop :=
  ∀ a ∈ writes, ∀ b ∈ writes, ∀ c ∈ writes,
    b.entry.vclock.happensBefore c.entry.vclock = true →
    a.entry.vclock.concurrentWith b.entry.vclock = true →
    a.entry.vclock.concurrentWith c.entry.vclock = true →
    b.entry.rank ≤ max a.entry.rank c.entry.rank

/-! ## Honest writes -/

def clockAt (writes : List Write) (i : Nat) : VectorClock :=
  match writes[i]? with
  | none => .empty
  | some w => w.entry.vclock

def rankAt (writes : List Write) (i : Nat) : WithBot String :=
  match writes[i]? with
  | none => ⊥
  | some w => w.entry.rank

/-- What honest writing gives: one path, sizes that fit the hashes, and clocks
whose author component tells what a clock has seen of the author. -/
structure Honest (writes : List Write) : Prop where
  path : ∀ w ∈ writes, w.entry.filePath = path
  sized : ∀ w ∈ writes, w.entry.Sized sizeOf
  counted : ∀ w ∈ writes, 0 < w.entry.vclock.get w.author
  causal : ∀ w ∈ writes, ∀ w' ∈ writes,
    w.entry.vclock.get w.author ≤ w'.entry.vclock.get w.author →
      w.entry.vclock ≤ w'.entry.vclock
  distinct : ∀ (i j : Nat) (w w' : Write), writes[i]? = some w → writes[j]? = some w' →
    w.entry.vclock = w'.entry.vclock → i = j

variable {path sizeOf} {writes : List Write}

theorem clockAt_of_found {i : Nat} {w : Write} (found : writes[i]? = some w) :
    clockAt writes i = w.entry.vclock := by
  rw [clockAt, found]

theorem rankAt_of_found {i : Nat} {w : Write} (found : writes[i]? = some w) :
    rankAt writes i = w.entry.rank := by
  rw [rankAt, found]

theorem found_of_lt {i : Nat} (index : i < writes.length) : ∃ w ∈ writes, writes[i]? = some w :=
  ⟨writes[i], List.getElem_mem index, List.getElem?_eq_getElem index⟩

/-- A finite join reads, at each node, what one of its members reads. -/
theorem reading_of_isLUB {S : Set Nat} {c : VectorClock} (finite : S.Finite) (nonempty : S.Nonempty)
    (lub : IsLUB (clockAt writes '' S) c) (n : String) :
    ∃ i ∈ S, c.get n = (clockAt writes i).get n := by
  obtain ⟨F, rfl⟩ := finite.exists_finset_coe
  have inhabited : F.Nonempty := by simpa using nonempty
  have sup : IsLUB (clockAt writes '' ↑F) (F.sup' inhabited (clockAt writes)) := by
    constructor
    · rintro _ ⟨i, hi, rfl⟩
      exact Finset.le_sup' _ hi
    · intro d above
      exact Finset.sup'_le _ _ fun i hi => above ⟨i, hi, rfl⟩
  rw [lub.unique sup]
  apply Finset.sup'_induction inhabited (clockAt writes)
    (p := fun c => ∃ i ∈ (F : Set Nat), c.get n = (clockAt writes i).get n)
  · rintro a ⟨i, hi, ha⟩ b ⟨j, hj, hb⟩
    show ∃ k ∈ (F : Set Nat), (a.merge b).get n = (clockAt writes k).get n
    rw [VectorClock.get_merge]
    rcases max_choice (a.get n) (b.get n) with left | right
    · exact ⟨i, hi, left.trans ha⟩
    · exact ⟨j, hj, right.trans hb⟩
  · intro i hi
    exact ⟨i, hi, rfl⟩

/-- **Honest clocks are causal.** -/
theorem Honest.toCausal (honest : Honest path sizeOf writes) :
    CausalMerge.Causal (clockAt writes) {i | i < writes.length} where
  prime := by
    intro i hi S sub c finite lub le
    obtain ⟨w, member, found⟩ := found_of_lt hi
    rw [clockAt_of_found found] at le ⊢
    rcases S.eq_empty_or_nonempty with rfl | nonempty
    · -- the join of no clocks is the empty clock, which counts nothing
      have bottom : c ≤ VectorClock.empty := lub.2 (by simp [upperBounds])
      have := (le.trans bottom) w.author
      have counted := honest.counted w member
      rw [VectorClock.get_empty] at this
      omega
    · obtain ⟨j, hj, reading⟩ := reading_of_isLUB finite nonempty lub w.author
      obtain ⟨w', member', found'⟩ := found_of_lt (sub hj)
      rw [clockAt_of_found found'] at reading
      refine ⟨j, hj, ?_⟩
      rw [clockAt_of_found found']
      exact honest.causal w member w' member' (reading ▸ le w.author)
  injective := by
    intro i hi j hj same
    obtain ⟨w, -, found⟩ := found_of_lt hi
    obtain ⟨w', -, found'⟩ := found_of_lt hj
    rw [clockAt_of_found found, clockAt_of_found found'] at same
    exact honest.distinct i j w w' found found' same

theorem NoResurrection.toRanks (writes : List Write) (none : NoResurrection writes) :
    CausalMerge.NoResurrection (clockAt writes) (rankAt writes) {i | i < writes.length} := by
  intro i hi j hj k hk before nab nba nac nca
  obtain ⟨a, memberA, foundA⟩ := found_of_lt hi
  obtain ⟨b, memberB, foundB⟩ := found_of_lt hj
  obtain ⟨c, memberC, foundC⟩ := found_of_lt hk
  rw [clockAt_of_found foundB, clockAt_of_found foundC] at before
  rw [clockAt_of_found foundA, clockAt_of_found foundB] at nab nba
  rw [clockAt_of_found foundA, clockAt_of_found foundC] at nac nca
  rw [rankAt_of_found foundA, rankAt_of_found foundB, rankAt_of_found foundC]
  exact none a memberA b memberB c memberC (VectorClock.happensBefore_iff.mpr before)
    (VectorClock.concurrentWith_iff.mpr ⟨nab, nba⟩) (VectorClock.concurrentWith_iff.mpr ⟨nac, nca⟩)

/-! ## What an exchanged entry knows -/

theorem mem_of_found {i : Nat} {w : Write} (found : writes[i]? = some w) : w ∈ writes :=
  List.mem_of_getElem? found

theorem Exchanged.append {e : ManifestEntry} {S : Finset Nat} (exchanged : Exchanged writes e S)
    (more : List Write) : Exchanged (writes ++ more) e S := by
  induction exchanged with
  | write found =>
    obtain ⟨index, -⟩ := List.getElem?_eq_some_iff.mp found
    exact .write (by rw [List.getElem?_append_left index, found])
  | merge _ _ merged ihl ihr => exact .merge ihl ihr merged

theorem Exchanged.indices {e : ManifestEntry} {S : Finset Nat} (exchanged : Exchanged writes e S) :
    (S : Set Nat) ⊆ {i | i < writes.length} := by
  induction exchanged with
  | write found =>
    obtain ⟨index, -⟩ := List.getElem?_eq_some_iff.mp found
    simpa using index
  | merge _ _ _ ihl ihr =>
    rw [Finset.coe_union]
    exact Set.union_subset ihl ihr

theorem Exchanged.filePath (honest : Honest path sizeOf writes) {e : ManifestEntry} {S : Finset Nat}
    (exchanged : Exchanged writes e S) : e.filePath = path := by
  induction exchanged with
  | write found => exact honest.path _ (mem_of_found found)
  | merge _ _ merged ihl ihr =>
    obtain ⟨same, rfl⟩ := mergeManifestEntries_eq_ok.mp merged
    rw [filePath_mergeEntry same, ihl]

/-- Exchanged entries always merge. -/
theorem Exchanged.mergeEntry (honest : Honest path sizeOf writes) {l r : ManifestEntry}
    {S T : Finset Nat} (left : Exchanged writes l S) (right : Exchanged writes r T) :
    Exchanged writes (l.mergeEntry r) (S ∪ T) := by
  have same : l.filePath = r.filePath := by rw [left.filePath honest, right.filePath honest]
  exact .merge left right (mergeManifestEntries_eq_ok.mpr ⟨same, rfl⟩)

theorem Exchanged.sized (honest : Honest path sizeOf writes) {e : ManifestEntry} {S : Finset Nat}
    (exchanged : Exchanged writes e S) : e.Sized sizeOf := by
  induction exchanged with
  | write found => exact honest.sized _ (mem_of_found found)
  | merge _ _ merged ihl ihr =>
    obtain ⟨-, rfl⟩ := mergeManifestEntries_eq_ok.mp merged
    exact sized_mergeEntry ihl ihr

/-- A clock reads at a node no more than some bound of all writes. -/
theorem Exchanged.get_le {e : ManifestEntry} {S : Finset Nat} (exchanged : Exchanged writes e S)
    {n : String} {bound : Nat} (writesLe : ∀ w ∈ writes, w.entry.vclock.get n ≤ bound) :
    e.vclock.get n ≤ bound := by
  induction exchanged with
  | write found => exact writesLe _ (mem_of_found found)
  | merge _ _ merged ihl ihr =>
    obtain ⟨-, rfl⟩ := mergeManifestEntries_eq_ok.mp merged
    rw [vclock_mergeEntry, ← VectorClock.merge_eq_sup, VectorClock.get_merge]
    exact max_le ihl ihr

/-- An entry that has counted a write has seen it. -/
theorem Exchanged.causal (honest : Honest path sizeOf writes) {e : ManifestEntry} {S : Finset Nat}
    (exchanged : Exchanged writes e S) {w : Write} (member : w ∈ writes)
    (counted : w.entry.vclock.get w.author ≤ e.vclock.get w.author) :
    w.entry.vclock ≤ e.vclock := by
  induction exchanged with
  | write found => exact honest.causal w member _ (mem_of_found found) counted
  | merge _ _ merged ihl ihr =>
    obtain ⟨-, rfl⟩ := mergeManifestEntries_eq_ok.mp merged
    rw [vclock_mergeEntry] at counted ⊢
    rw [← VectorClock.merge_eq_sup, VectorClock.get_merge, le_max_iff] at counted
    rcases counted with left | right
    · exact (ihl left).trans le_sup_left
    · exact (ihr right).trans le_sup_right

/-- **An exchanged entry represents its writes.** -/
theorem Exchanged.represents (honest : Honest path sizeOf writes) (none : NoResurrection writes)
    {e : ManifestEntry} {S : Finset Nat} (exchanged : Exchanged writes e S) :
    CausalMerge.Represents (clockAt writes) (rankAt writes) e.vclock e.rank (S : Set Nat) := by
  induction exchanged with
  | write found =>
    rw [← clockAt_of_found found, ← rankAt_of_found found, Finset.coe_singleton]
    exact .single _
  | @merge l r m S T left right merged ihl ihr =>
    obtain ⟨-, rfl⟩ := mergeManifestEntries_eq_ok.mp merged
    rw [Finset.coe_union]
    rcases mergeEntry_cases l r with ⟨ge, same⟩ | ⟨le, same⟩ | ⟨nle, nge, same⟩
    · rw [same, Set.union_comm]
      exact .of_le honest.toCausal right.indices left.indices ihr ihl ge
    · rw [same]
      exact .of_le honest.toCausal left.indices right.indices ihl ihr le
    · rw [same, vclock_mergeConcurrent, rank_mergeConcurrent]
      exact .of_concurrent none.toRanks left.indices right.indices ihl ihr nle nge

theorem Exchanged.same (honest : Honest path sizeOf writes) (none : NoResurrection writes)
    {e e' : ManifestEntry} {S : Finset Nat} (left : Exchanged writes e S)
    (right : Exchanged writes e' S) : e.Same e' := by
  obtain ⟨clocks, ranks⟩ :=
    (left.represents honest none).unique (right.represents honest none)
  have hashes := rank_injective ranks
  exact ⟨hashes, by rw [left.sized honest, right.sized honest, hashes], clocks⟩

/-- A resurrecting triple merges differently in its two groupings. -/
theorem noResurrection_of_same (honest : Honest path sizeOf writes)
    (converge : ∀ e e' S, Exchanged writes e S → Exchanged writes e' S → e.Same e') :
    NoResurrection writes := by
  intro a memberA b memberB c memberC before nab nac
  rw [VectorClock.happensBefore_iff] at before
  rw [VectorClock.concurrentWith_iff] at nab nac
  obtain ⟨i, foundA⟩ := List.getElem?_of_mem memberA
  obtain ⟨j, foundB⟩ := List.getElem?_of_mem memberB
  obtain ⟨k, foundC⟩ := List.getElem?_of_mem memberC
  -- `(a, b)` first: their join does not reach `c`
  have ab := mergeEntry_of_concurrent nab.1 nab.2
  have clockAB : (mergeEntry a.entry b.entry).vclock = a.entry.vclock ⊔ b.entry.vclock :=
    vclock_mergeEntry _ _
  have high : ¬ (mergeEntry a.entry b.entry).vclock ≤ c.entry.vclock := by
    rw [clockAB]
    exact fun le => nac.1 (le_sup_left.trans le)
  have low : ¬ c.entry.vclock ≤ (mergeEntry a.entry b.entry).vclock := by
    intro le
    have counted := le c.author
    rw [clockAB, ← VectorClock.merge_eq_sup, VectorClock.get_merge, le_max_iff] at counted
    rcases counted with viaA | viaB
    · exact nac.2 (honest.causal c memberC a memberA viaA)
    · exact before.not_ge (honest.causal c memberC b memberB viaB)
  have early : Exchanged writes ((a.entry.mergeEntry b.entry).mergeEntry c.entry)
      ({i} ∪ {j} ∪ {k}) :=
    ((Exchanged.write foundA).mergeEntry honest (.write foundB)).mergeEntry honest (.write foundC)
  -- `(b, c)` first: `b` is gone
  have late : Exchanged writes (a.entry.mergeEntry c.entry) ({i} ∪ ({j} ∪ {k})) := by
    have bc := (Exchanged.write foundB).mergeEntry honest (.write foundC)
    rw [mergeEntry_of_lt before] at bc
    exact (Exchanged.write foundA).mergeEntry honest bc
  rw [Finset.union_assoc] at early
  have hashes := (converge _ _ _ early late).1
  have ranks : (mergeEntry (mergeEntry a.entry b.entry) c.entry).rank =
      (mergeEntry a.entry c.entry).rank := by
    rw [rank, rank, hashes]
  rw [mergeEntry_of_concurrent high low, rank_mergeConcurrent, ab, rank_mergeConcurrent,
    mergeEntry_of_concurrent nac.1 nac.2, rank_mergeConcurrent] at ranks
  rw [← ranks]
  exact (le_max_right _ _).trans (le_max_left _ _)

/-! ## Runs -/

variable (path sizeOf)

/-- Writes are honest, everything held or in flight was exchanged, and no clock
is ahead of a node's own in what it counts of that node. -/
structure Inv (s : Net) : Prop where
  honest : Honest path sizeOf s.writes
  held : ∀ node h, s.replicas node = some h → Exchanged s.writes h.entry h.merged
  flight : ∀ h ∈ s.sent, Exchanged s.writes h.entry h.merged
  ownTop : ∀ w ∈ s.writes, ∀ n, w.entry.vclock.get n ≤ (s.clockOf n).get n
  ownBelow : ∀ w ∈ s.writes, w.entry.vclock ≤ s.clockOf w.author

variable {path sizeOf}

theorem inv_init : Inv path sizeOf .init where
  honest := ⟨by simp [Net.init], by simp [Net.init], by simp [Net.init], by simp [Net.init],
    by simp [Net.init]⟩
  held := by simp [Net.init]
  flight := by simp [Net.init]
  ownTop := by simp [Net.init]
  ownBelow := by simp [Net.init]

theorem clockOf_update (s : Net) (node n : String) (h : Held) :
    ({ s with replicas := Function.update s.replicas node (some h) } : Net).clockOf n =
      if n = node then h.entry.vclock else s.clockOf n := by
  unfold Net.clockOf
  by_cases same : n = node
  · subst same
    simp
  · simp [same]

/-- The clock a replica holds has seen each write it has counted. -/
theorem Inv.clockOf_causal {s : Net} (inv : Inv path sizeOf s) (node : String) {w : Write}
    (member : w ∈ s.writes)
    (counted : w.entry.vclock.get w.author ≤ (s.clockOf node).get w.author) :
    w.entry.vclock ≤ s.clockOf node := by
  unfold Net.clockOf at counted ⊢
  cases held : s.replicas node with
  | none =>
    have positive := inv.honest.counted w member
    rw [held] at counted
    simp at counted
    omega
  | some h =>
    rw [held] at counted
    exact (inv.held node h held).causal inv.honest member counted

theorem Inv.clockOf_get_le {s : Net} (inv : Inv path sizeOf s) (node n : String) :
    (s.clockOf node).get n ≤ (s.clockOf n).get n := by
  have readings := fun w member => inv.ownTop w member n
  generalize (s.clockOf n).get n = bound at readings
  unfold Net.clockOf
  cases held : s.replicas node with
  | none => exact Nat.zero_le _
  | some h => exact (inv.held node h held).get_le readings

/-- Replacing what one replica holds by something newer that was exchanged. -/
theorem Inv.update {s : Net} (inv : Inv path sizeOf s) {node : String} {h : Held}
    (exchanged : Exchanged s.writes h.entry h.merged)
    (newer : s.clockOf node ≤ h.entry.vclock) :
    Inv path sizeOf { s with replicas := Function.update s.replicas node (some h) } where
  honest := inv.honest
  held := by
    intro n h' held
    dsimp only at held
    by_cases same : n = node
    · subst same
      rw [Function.update_self, Option.some.injEq] at held
      exact held ▸ exchanged
    · rw [Function.update_of_ne same] at held
      exact inv.held n h' held
  flight := inv.flight
  ownTop := by
    intro w member n
    rw [clockOf_update]
    split
    · rename_i same
      subst same
      exact (inv.ownTop w member n).trans (newer n)
    · exact inv.ownTop w member n
  ownBelow := by
    intro w member
    rw [clockOf_update]
    split
    · rename_i same
      exact (inv.ownBelow w member).trans (same ▸ newer)
    · exact inv.ownBelow w member

/-- A write on top of the clock its author holds keeps the writes honest. -/
theorem Inv.honest_write {s : Net} (inv : Inv path sizeOf s) {node : String} {w : Write}
    (author : w.author = node) (hpath : w.entry.filePath = path) (sized : w.entry.Sized sizeOf)
    (clock : w.entry.vclock = (s.clockOf node).increment node) :
    Honest path sizeOf (s.writes ++ [w]) := by
  have old : ∀ w' ∈ s.writes, w'.entry.vclock.get node < w.entry.vclock.get node := by
    intro w' member
    rw [clock, VectorClock.get_increment_self]
    exact Nat.lt_succ_of_le (inv.ownTop w' member node)
  refine ⟨?_, ?_, ?_, ?_, ?_⟩
  · intro w' member
    rcases List.mem_append.mp member with early | late
    · exact inv.honest.path w' early
    · rw [List.mem_singleton.mp late, hpath]
  · intro w' member
    rcases List.mem_append.mp member with early | late
    · exact inv.honest.sized w' early
    · rw [List.mem_singleton.mp late]
      exact sized
  · intro w' member
    rcases List.mem_append.mp member with early | late
    · exact inv.honest.counted w' early
    · rw [List.mem_singleton.mp late, author, clock, VectorClock.get_increment_self]
      exact Nat.succ_pos _
  · intro a memberA b memberB counted
    rcases List.mem_append.mp memberA with earlyA | lateA
    · rcases List.mem_append.mp memberB with earlyB | lateB
      · exact inv.honest.causal a earlyA b earlyB counted
      · -- an old write against the new one: the author's clock has seen it
        rw [List.mem_singleton.mp lateB, clock] at counted ⊢
        refine le_trans ?_ (VectorClock.lt_increment _ node).le
        by_cases own : a.author = node
        · exact own ▸ inv.ownBelow a earlyA
        · rw [VectorClock.get_increment, if_neg (Ne.symm own)] at counted
          exact inv.clockOf_causal node earlyA counted
    · rcases List.mem_append.mp memberB with earlyB | lateB
      · rw [List.mem_singleton.mp lateA, author] at counted
        exact absurd counted (not_le.mpr (old b earlyB))
      · rw [List.mem_singleton.mp lateA, List.mem_singleton.mp lateB]
  · intro i j a b foundA foundB same
    rw [List.getElem?_append] at foundA foundB
    split at foundA
    · split at foundB
      · exact inv.honest.distinct i j a b foundA foundB same
      · rw [List.getElem?_singleton] at foundB
        split at foundB
        · cases foundB
          have := old a (mem_of_found foundA)
          rw [same] at this
          omega
        · simp at foundB
    · rename_i beyondA
      rw [List.getElem?_singleton] at foundA
      split at foundA
      · cases foundA
        split at foundB
        · have := old b (mem_of_found foundB)
          rw [same] at this
          omega
        · rw [List.getElem?_singleton] at foundB
          split at foundB
          · omega
          · simp at foundB
      · simp at foundA

/-- What the author holds after a write was exchanged: the write supersedes the
entry it was made on. -/
theorem Inv.exchanged_write {s : Net} (inv : Inv path sizeOf s) {node : String} {w : Write}
    (honest : Honest path sizeOf (s.writes ++ [w]))
    (clock : w.entry.vclock = (s.clockOf node).increment node) :
    Exchanged (s.writes ++ [w]) w.entry (insert s.writes.length (s.mergedOf node)) := by
  have written : Exchanged (s.writes ++ [w]) w.entry {s.writes.length} := .write (by simp)
  unfold Net.mergedOf
  cases held : s.replicas node with
  | none => simpa using written
  | some h =>
    have before : h.entry.vclock < w.entry.vclock := by
      rw [clock, Net.clockOf, held]
      exact VectorClock.lt_increment _ node
    have both := ((inv.held node h held).append [w]).mergeEntry honest written
    rw [mergeEntry_of_lt before, Finset.union_comm] at both
    exact both

theorem Inv.write {s : Net} (inv : Inv path sizeOf s) (node : String) (blobHash : Option String)
    (mtimeMs : Option Int) : Inv path sizeOf (s.step path sizeOf (.write node blobHash mtimeMs)) := by
  have newer := VectorClock.lt_increment (s.clockOf node) node
  have honest := inv.honest_write (w := ⟨node, path, blobHash, blobHash.map sizeOf, mtimeMs,
    (s.clockOf node).increment node⟩) rfl rfl rfl rfl
  have clocks := clockOf_update s node
  refine ⟨honest, ?_, fun h member => (inv.flight h member).append _, ?_, ?_⟩
  · intro n h held
    dsimp only [Net.step] at held
    by_cases same : n = node
    · subst same
      rw [Function.update_self, Option.some.injEq] at held
      subst held
      exact inv.exchanged_write honest rfl
    · rw [Function.update_of_ne same] at held
      exact (inv.held n h held).append _
  · intro w member n
    show w.entry.vclock.get n ≤
      (Net.clockOf { s with replicas := Function.update s.replicas node _ } n).get n
    rw [clocks]
    rcases List.mem_append.mp member with early | late
    · split
      · rename_i same
        subst same
        exact (inv.ownTop w early n).trans (newer.le n)
      · exact inv.ownTop w early n
    · rw [List.mem_singleton.mp late]
      split
      · exact le_rfl
      · rename_i other
        rw [VectorClock.get_increment, if_neg (Ne.symm other)]
        exact inv.clockOf_get_le node n
  · intro w member
    show w.entry.vclock ≤
      Net.clockOf { s with replicas := Function.update s.replicas node _ } w.author
    rw [clocks]
    rcases List.mem_append.mp member with early | late
    · split
      · rename_i same
        exact (inv.ownBelow w early).trans (same ▸ newer.le)
      · exact inv.ownBelow w early
    · rw [List.mem_singleton.mp late, if_pos rfl]

theorem Inv.receive {s : Net} (inv : Inv path sizeOf s) (node : String) (message : Nat) :
    Inv path sizeOf (s.step path sizeOf (.receive node message)) := by
  unfold Net.step
  dsimp only
  cases sent : s.sent[message]? with
  | none => exact inv
  | some remote =>
    have exchanged := inv.flight remote (List.mem_of_getElem? sent)
    cases held : s.replicas node with
    | none =>
      simp only [Option.map_none, mergeManifestEntries]
      refine inv.update ?_ ?_
      · simpa [Net.mergedOf, held] using exchanged
      · rw [Net.clockOf, held]
        exact fun n => Nat.zero_le _
    | some h =>
      have mine := inv.held node h held
      have same : h.entry.filePath = remote.entry.filePath := by
        rw [mine.filePath inv.honest, exchanged.filePath inv.honest]
      simp only [Option.map_some, mergeManifestEntries, same, ne_eq, not_true_eq_false, if_false]
      refine inv.update ?_ ?_
      · simp only [Net.mergedOf, held]
        exact mine.mergeEntry inv.honest exchanged
      · simp only [Net.clockOf, held, vclock_mergeEntry]
        exact le_sup_left

theorem Inv.step {s : Net} (inv : Inv path sizeOf s) (action : Action) :
    Inv path sizeOf (s.step path sizeOf action) := by
  cases action with
  | write node blobHash mtimeMs => exact inv.write node blobHash mtimeMs
  | send node =>
    unfold Net.step
    dsimp only
    cases held : s.replicas node with
    | none => exact inv
    | some h =>
      refine { inv with flight := fun h' member => ?_ }
      rcases List.mem_append.mp member with early | late
      · exact inv.flight h' early
      · rw [List.mem_singleton.mp late]
        exact inv.held node h held
  | receive node message => exact inv.receive node message

/-- `S` has each write that the clock counts at its author. -/
def Counts (writes : List Write) (c : VectorClock) (S : Finset Nat) : Prop :=
  ∀ i w, writes[i]? = some w → w.entry.vclock.get w.author ≤ c.get w.author → i ∈ S

theorem Counts.append {c c' : VectorClock} {S S' : Finset Nat} {w' : Write}
    (counts : Counts writes c S) (grown : S ⊆ S')
    (old : ∀ w ∈ writes, w.entry.vclock.get w.author ≤ c'.get w.author →
      w.entry.vclock.get w.author ≤ c.get w.author)
    (new : w'.entry.vclock.get w'.author ≤ c'.get w'.author → writes.length ∈ S') :
    Counts (writes ++ [w']) c' S' := by
  intro i w found counted
  rw [List.getElem?_append] at found
  split at found
  · exact grown (counts i w found (old w (mem_of_found found) counted))
  · obtain ⟨first, rfl⟩ : i - writes.length = 0 ∧ w' = w := by
      simpa [List.getElem?_singleton] using found
    rw [show i = writes.length by omega]
    exact new counted

/-- The clock of an exchanged entry is the least one above its writes. -/
theorem Exchanged.le_iff {e : ManifestEntry} {S : Finset Nat} (exchanged : Exchanged writes e S)
    {c : VectorClock} :
    e.vclock ≤ c ↔ ∀ i ∈ S, ∃ w, writes[i]? = some w ∧ w.entry.vclock ≤ c := by
  induction exchanged with
  | write found => simp [found]
  | merge _ _ merged ihl ihr =>
    obtain ⟨-, rfl⟩ := mergeManifestEntries_eq_ok.mp merged
    simp only [vclock_mergeEntry, sup_le_iff, ihl, ihr, Finset.mem_union, or_imp, forall_and]

structure Seen (s : Net) : Prop where
  own : ∀ node, Counts s.writes (s.clockOf node) (s.mergedOf node)
  flight : ∀ h ∈ s.sent, Counts s.writes h.entry.vclock h.merged

theorem Seen.replace {s : Net} (node : String) {h : Held}
    (mine : Counts writes h.entry.vclock h.merged)
    (others : ∀ n, Counts writes (s.clockOf n) (s.mergedOf n))
    (flight : ∀ h ∈ s.sent, Counts writes h.entry.vclock h.merged) :
    Seen ⟨Function.update s.replicas node (some h), s.sent, writes⟩ where
  own n := by
    by_cases same : n = node
    · subst same
      simpa [Net.clockOf, Net.mergedOf] using mine
    · simpa [Net.clockOf, Net.mergedOf, same] using others n
  flight := flight

theorem Seen.step {s : Net} (seen : Seen s) (inv : Inv path sizeOf s) (action : Action) :
    Seen (s.step path sizeOf action) := by
  cases action with
  | write node blobHash mtimeMs =>
    have old {w : Write} (author : w.author = node)
        (clock : w.entry.vclock = (s.clockOf node).increment node) {c : VectorClock}
        {S : Finset Nat} (counts : Counts s.writes c S)
        (below : c.get node ≤ (s.clockOf node).get node) : Counts (s.writes ++ [w]) c S := by
      refine counts.append subset_rfl (fun _ _ => id) fun counted => ?_
      rw [clock, author, VectorClock.get_increment_self] at counted
      omega
    refine Seen.replace node ((seen.own node).append (Finset.subset_insert _ _) ?_ fun _ =>
      Finset.mem_insert_self _ _) (fun n => old rfl rfl (seen.own n) (inv.clockOf_get_le n node))
      fun h member => old rfl rfl (seen.flight h member)
        ((inv.flight h member).get_le fun w here => inv.ownTop w here node)
    intro w member counted
    rw [VectorClock.get_increment] at counted
    split at counted
    · next own => exact own ▸ inv.ownTop w member node
    · exact counted
  | send node =>
    have own := seen.own node
    unfold Net.clockOf Net.mergedOf at own
    unfold Net.step
    dsimp only
    cases held : s.replicas node with
    | none => exact seen
    | some h =>
      rw [held] at own
      refine ⟨seen.own, fun h' member => ?_⟩
      rcases List.mem_append.mp member with early | late
      · exact seen.flight h' early
      · exact List.mem_singleton.mp late ▸ own
  | receive node message =>
    unfold Net.step
    dsimp only
    split
    · exact seen
    · next remote sent =>
      split
      · next winner merged =>
        refine Seen.replace node (fun i w found counted => Finset.mem_union.mpr ?_) seen.own seen.flight
        have own := seen.own node i w found
        have theirs := seen.flight remote (List.mem_of_getElem? sent) i w found
        unfold Net.clockOf at own
        cases held : s.replicas node with
        | none =>
          rw [held] at merged
          obtain rfl := Option.some.inj (Except.ok.inj merged)
          exact .inr (theirs counted)
        | some h =>
          rw [held] at own merged
          obtain ⟨-, rfl⟩ := mergeManifestEntries_eq_ok.mp merged
          rw [vclock_mergeEntry, ← VectorClock.merge_eq_sup, VectorClock.get_merge,
            le_max_iff] at counted
          exact counted.imp own theirs
      · exact seen

variable (path sizeOf)

theorem inv_run (actions : List Action) :
    Inv path sizeOf (run (Net.step path sizeOf) .init actions) :=
  run_preserves (fun _ a inv => inv.step a) actions inv_init

/-- **Replicas converge exactly when no write of the run comes back from the
dead.**  What a replica holds is some merge of the writes it has merged; all
merges of one set of writes agree, and merging is commutative, associative and
idempotent on them, if and only if the run's writes meet `NoResurrection`. -/
theorem manifest_converges_iff (actions : List Action) :
    let s := run (Net.step path sizeOf) .init actions
    (∀ node h, s.replicas node = some h → Exchanged s.writes h.entry h.merged) ∧
    ((∀ e e' S, Exchanged s.writes e S → Exchanged s.writes e' S → e.Same e') ↔
      NoResurrection s.writes) ∧
    (NoResurrection s.writes → ∀ node node' h h', s.replicas node = some h →
      s.replicas node' = some h' → h.merged = h'.merged → h.entry.Same h'.entry) ∧
    (NoResurrection s.writes → ∀ x y z S T U, Exchanged s.writes x S → Exchanged s.writes y T →
      Exchanged s.writes z U →
      (x.mergeEntry y).Same (y.mergeEntry x) ∧
      ((x.mergeEntry y).mergeEntry z).Same (x.mergeEntry (y.mergeEntry z)) ∧
      (x.mergeEntry x).Same x) := by
  have inv := inv_run path sizeOf actions
  refine ⟨inv.held, ⟨noResurrection_of_same inv.honest, fun none e e' S left right => ?_⟩, ?_, ?_⟩
  · exact left.same inv.honest none right
  · intro none node node' h h' held held' same
    have mine := inv.held node h held
    rw [same] at mine
    exact mine.same inv.honest none (inv.held node' h' held')
  · intro none x y z S T U hx hy hz
    have xy := hx.mergeEntry inv.honest hy
    have yx := hy.mergeEntry inv.honest hx
    have left := xy.mergeEntry inv.honest hz
    have right := hx.mergeEntry inv.honest (hy.mergeEntry inv.honest hz)
    have twice := hx.mergeEntry inv.honest hx
    rw [Finset.union_comm] at yx
    rw [Finset.union_assoc] at left
    rw [Finset.union_self] at twice
    exact ⟨xy.same inv.honest none yx, left.same inv.honest none right, twice.same inv.honest none hx⟩

/-- **The clocks are causality.**  In every run, what a replica has merged are the writes below
its clock, and the clocks of two replicas compare as these sets do. -/
theorem clocks_are_causality (actions : List Action) (node node' : String) :
    let s := run (Net.step path sizeOf) .init actions
    (∀ i, i ∈ s.mergedOf node ↔
      ∃ w, s.writes[i]? = some w ∧ w.entry.vclock ≤ s.clockOf node) ∧
    ((s.clockOf node).happensBefore (s.clockOf node') = true ↔
      s.mergedOf node ⊂ s.mergedOf node') ∧
    ((s.clockOf node).concurrentWith (s.clockOf node') = true ↔
      ¬ s.mergedOf node ⊆ s.mergedOf node' ∧ ¬ s.mergedOf node' ⊆ s.mergedOf node) := by
  obtain ⟨inv, seen⟩ := @run_preserves _ _ (Net.step path sizeOf) (fun s => Inv path sizeOf s ∧ Seen s)
    (fun _ a both => ⟨both.1.step a, both.2.step both.1 a⟩) _ actions
    ⟨inv_init, by simp [Counts, Net.init], by simp [Net.init]⟩
  generalize run (Net.step path sizeOf) .init actions = s at inv seen
  have below (n : String) (c : VectorClock) : s.clockOf n ≤ c ↔
      ∀ i ∈ s.mergedOf n, ∃ w, s.writes[i]? = some w ∧ w.entry.vclock ≤ c := by
    unfold Net.clockOf Net.mergedOf
    cases held : s.replicas n with
    | none => exact iff_of_true (fun _ => Nat.zero_le _) (by simp)
    | some h => exact (inv.held n h held).le_iff
  have merged (n : String) (i : Nat) : i ∈ s.mergedOf n ↔
      ∃ w, s.writes[i]? = some w ∧ w.entry.vclock ≤ s.clockOf n := by
    refine ⟨(below n _).mp le_rfl i, ?_⟩
    rintro ⟨w, found, le⟩
    exact seen.own n i w found (le w.author)
  have order (n n' : String) : s.clockOf n ≤ s.clockOf n' ↔ s.mergedOf n ⊆ s.mergedOf n' := by
    rw [below]
    exact forall₂_congr fun i _ => (merged n' i).symm
  refine ⟨merged node, ?_, ?_⟩
  · rw [VectorClock.happensBefore_iff, lt_iff_le_not_ge, order, order]
    rfl
  · rw [VectorClock.concurrentWith_iff, order, order]

/-! ## Poles -/

/-- A 64-digit hash of one repeated digit. -/
def digest (digit : Char) : String := String.ofList (List.replicate 64 digit)

/-- `A` writes `b…`; `B` writes `f…` and then `1…`; `C` merges them in the order
written, `D` sees `f…` superseded before it sees `b…`. -/
def resurrectingRun : List Action :=
  [.write "A" (some (digest 'b')) none, .send "A", .write "B" (some (digest 'f')) none, .send "B",
   .write "B" (some (digest '1')) none, .send "B",
   .receive "C" 0, .receive "C" 1, .receive "C" 2,
   .receive "D" 1, .receive "D" 2, .receive "D" 0]

/-- Two replicas that merged the same three writes hold different content. -/
theorem replicas_diverge :
    ∃ h h', (run (Net.step "f" fun _ => 1) .init resurrectingRun).replicas "C" = some h ∧
      (run (Net.step "f" fun _ => 1) .init resurrectingRun).replicas "D" = some h' ∧
      h.merged = h'.merged ∧ h.entry.blobHash = some (digest 'f') ∧
      h'.entry.blobHash = some (digest 'b') := by
  refine ⟨_, _, rfl, rfl, ?_, ?_, ?_⟩
  · decide +kernel
  · decide +kernel
  · decide +kernel

end OneLink.Crdt
