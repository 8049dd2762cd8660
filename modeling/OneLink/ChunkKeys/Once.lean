/-
# ChunkKeys.Once -- every chunk key is handed out once, and failed calls change nothing

The history of a run in the words of the protocol, kept beside the code: an
index the chain passes is `skipped`, one that a call returns is `returned`, and
a skipped index is `evicted` when another is skipped while as many wait as the
store holds.  `waiting` is what is left, oldest first.

The state of the code follows the ledger of its run (`Follows`): the chain is the
sender's at the ledger's position, the store holds the sender's keys of the
indexes that wait.  One call serves an index or changes nothing (`keyAt_cases`),
as long as a run ahead finds a store that takes the keys it passes.  With a
store of capacity zero the first `insert` raises after the chain has moved.
-/
import Mathlib.Data.List.Induction
import Mathlib.Tactic.ByContra
import OneLink.ChunkKeys.Ratchet
import OneLink.Library.Checked
import OneLink.Library.Run

namespace OneLink.ChunkKeys

set_option autoImplicit false

structure Ledger where
  position : Nat := 0
  skipped : List Nat := []
  returned : List Nat := []
  evicted : List Nat := []
deriving DecidableEq

namespace Ledger

/-- Skipped and neither returned nor evicted, oldest first. -/
def waiting (l : Ledger) : List Nat := l.skipped.filter fun i => i ∉ l.returned ∧ i ∉ l.evicted

/-- The chain passes the index at its position. -/
def skip (cap : Nat) (l : Ledger) : Ledger where
  position := l.position + 1
  skipped := l.skipped ++ [l.position]
  returned := l.returned
  evicted := if l.waiting.length = cap then l.evicted ++ l.waiting.take 1 else l.evicted

/-- A call returns the key of an index. -/
def handOut (l : Ledger) (i : Nat) : Ledger :=
  { l with position := max l.position (i + 1), returned := l.returned ++ [i] }

/-- A call for `target` succeeded: what lay between was skipped. -/
def serve (cap : Nat) (l : Ledger) (target : Nat) : Ledger :=
  ((skip cap)^[target - l.position] l).handOut target

/-- Nothing lies ahead of the position, and nothing is recorded twice. -/
structure Valid (l : Ledger) : Prop where
  skippedBehind : ∀ i ∈ l.skipped, i < l.position
  returnedBehind : ∀ i ∈ l.returned, i < l.position
  evictedBehind : ∀ i ∈ l.evicted, i < l.position
  skippedOnce : l.skipped.Nodup
  returnedOnce : l.returned.Nodup

theorem valid_start : Valid {} := ⟨by simp, by simp, by simp, List.nodup_nil, List.nodup_nil⟩

variable {cap : Nat} {l : Ledger}

theorem mem_waiting {i : Nat} :
    i ∈ l.waiting ↔ i ∈ l.skipped ∧ i ∉ l.returned ∧ i ∉ l.evicted := by
  rw [waiting, List.mem_filter, decide_eq_true_eq]

theorem Valid.waiting_nodup (valid : l.Valid) : l.waiting.Nodup := valid.skippedOnce.filter _

theorem Valid.waiting_behind (valid : l.Valid) {i : Nat} (mem : i ∈ l.waiting) : i < l.position :=
  valid.skippedBehind i (mem_waiting.1 mem).1

theorem Valid.skip (valid : l.Valid) : (l.skip cap).Valid where
  skippedBehind i mem := by
    obtain old | new := List.mem_append.1 mem
    · exact Nat.lt_succ_of_lt (valid.skippedBehind i old)
    · rw [List.mem_singleton.1 new]
      exact Nat.lt_succ_self _
  returnedBehind i mem := Nat.lt_succ_of_lt (valid.returnedBehind i mem)
  evictedBehind i mem := by
    simp only [Ledger.skip] at mem
    split at mem
    · obtain old | new := List.mem_append.1 mem
      · exact Nat.lt_succ_of_lt (valid.evictedBehind i old)
      · exact Nat.lt_succ_of_lt (valid.waiting_behind (List.mem_of_mem_take new))
    · exact Nat.lt_succ_of_lt (valid.evictedBehind i mem)
  skippedOnce := by
    rw [Ledger.skip, List.nodup_append]
    refine ⟨valid.skippedOnce, List.nodup_singleton _, fun i mem j single => ?_⟩
    rw [List.mem_singleton.1 single]
    exact Nat.ne_of_lt (valid.skippedBehind i mem)
  returnedOnce := valid.returnedOnce

/-- The skipped index joins the queue; a full queue loses its oldest. -/
theorem Valid.waiting_skip (valid : l.Valid) :
    (l.skip cap).waiting =
      (if l.waiting.length = cap then l.waiting.drop 1 else l.waiting) ++ [l.position] := by
  have fresh : l.position ∉ (l.skip cap).returned ∧ l.position ∉ (l.skip cap).evicted := by
    refine ⟨fun mem => Nat.lt_irrefl _ (valid.returnedBehind _ mem), fun mem => ?_⟩
    simp only [Ledger.skip] at mem
    split at mem
    · obtain old | new := List.mem_append.1 mem
      · exact Nat.lt_irrefl _ (valid.evictedBehind _ old)
      · exact Nat.lt_irrefl _ (valid.waiting_behind (List.mem_of_mem_take new))
    · exact Nat.lt_irrefl _ (valid.evictedBehind _ mem)
  have last : [l.position].filter (fun i => i ∉ (l.skip cap).returned ∧ i ∉ (l.skip cap).evicted) =
      [l.position] := List.filter_cons_of_pos (by simpa using fresh)
  rw [waiting]
  show (l.skipped ++ [l.position]).filter _ = _
  rw [List.filter_append, last]
  congr 1
  by_cases full : l.waiting.length = cap
  · rw [if_pos full]
    have evicted : (l.skip cap).evicted = l.evicted ++ l.waiting.take 1 := if_pos full
    have again : l.skipped.filter (fun i => i ∉ (l.skip cap).returned ∧ i ∉ (l.skip cap).evicted) =
        l.waiting.filter fun i => i ∉ l.waiting.take 1 := by
      rw [evicted]
      generalize l.waiting.take 1 = gone
      rw [waiting, List.filter_filter]
      refine List.filter_congr fun i _ => ?_
      simp only [Ledger.skip, List.mem_append, not_or, Bool.decide_and]
      rw [← Bool.and_assoc, Bool.and_comm]
    rw [again]
    have distinct := valid.waiting_nodup
    generalize l.waiting = queue at distinct ⊢
    obtain _ | ⟨oldest, rest⟩ := queue
    · rfl
    · simp only [List.take_succ_cons, List.take_zero, List.mem_singleton, List.drop_succ_cons,
        List.drop_zero]
      rw [List.filter_cons_of_neg (by simp), List.filter_eq_self.2]
      intro i mem
      rw [decide_eq_true_eq]
      rintro rfl
      exact (List.nodup_cons.1 distinct).1 mem
  · rw [if_neg full]
    have evicted : (l.skip cap).evicted = l.evicted := if_neg full
    rw [evicted]
    rfl

theorem Valid.handOut (valid : l.Valid) {i : Nat} (first : i ∉ l.returned) :
    (l.handOut i).Valid where
  skippedBehind j mem := Nat.lt_of_lt_of_le (valid.skippedBehind j mem) (Nat.le_max_left _ _)
  returnedBehind j mem := by
    obtain old | new := List.mem_append.1 mem
    · exact Nat.lt_of_lt_of_le (valid.returnedBehind j old) (Nat.le_max_left _ _)
    · rw [List.mem_singleton.1 new]
      exact Nat.le_max_right _ _
  evictedBehind j mem := Nat.lt_of_lt_of_le (valid.evictedBehind j mem) (Nat.le_max_left _ _)
  skippedOnce := valid.skippedOnce
  returnedOnce := by
    rw [Ledger.handOut, List.nodup_append]
    refine ⟨valid.returnedOnce, List.nodup_singleton _, fun j mem k single => ?_⟩
    rw [List.mem_singleton.1 single]
    rintro rfl
    exact first mem

/-- A returned index leaves the queue. -/
theorem Valid.waiting_handOut (valid : l.Valid) (i : Nat) :
    (l.handOut i).waiting = l.waiting.erase i := by
  rw [valid.waiting_nodup.erase_eq_filter, waiting, waiting, List.filter_filter]
  refine List.filter_congr fun j _ => ?_
  simp only [Ledger.handOut, List.mem_append, List.mem_singleton, not_or]
  by_cases same : j = i <;> simp [same]

end Ledger

open Library

variable (prims : Primitives)

/-! ## The sender's keys -/

/-- The ratchet after one `next_key`. -/
def ChunkRatchet.next (r : ChunkRatchet) : ChunkRatchet := (r.nextKey prims).2

/-- The sender after `n` keys. -/
def senderAfter (start : ChunkRatchet) (n : Nat) : ChunkRatchet :=
  (ChunkRatchet.next prims)^[n] start

/-- The key the sender's `i`-th `next_key` gives. -/
def senderKey (start : ChunkRatchet) (i : Nat) : Bytes :=
  ((senderAfter prims start i).nextKey prims).1.1

variable {prims} {start : ChunkRatchet}

theorem senderAfter_succ (n : Nat) :
    senderAfter prims start (n + 1) = (senderAfter prims start n).next prims :=
  Function.iterate_succ_apply' _ _ _

theorem nextIdx_senderAfter (n : Nat) :
    (senderAfter prims start n).nextIdx = start.nextIdx + n := by
  induction n with
  | zero => rfl
  | succ n ih =>
    rw [senderAfter_succ]
    show (senderAfter prims start n).nextIdx + 1 = _
    rw [ih, Nat.add_assoc]

theorem nextKey_senderAfter (fresh : start.nextIdx = 0) (n : Nat) :
    (senderAfter prims start n).nextKey prims =
      ((senderKey prims start n, n), senderAfter prims start (n + 1)) := by
  have index : ((senderAfter prims start n).nextKey prims).1.2 = n := by
    show (senderAfter prims start n).nextIdx = n
    rw [nextIdx_senderAfter, fresh, Nat.zero_add]
  rw [senderAfter_succ]
  exact Prod.ext (Prod.ext rfl index) rfl

theorem deriveChunkKey_eq {secret : Bytes}
    (made : ChunkRatchet.fromSharedSecret prims secret = .ok start) (i : Nat) :
    deriveChunkKey prims secret i = .ok (senderKey prims start i) := by
  rw [deriveChunkKey, made, ok_bind]
  rfl

/-! ## The state that follows a ledger -/

structure Follows (prims : Primitives) (start : ChunkRatchet) (cap : Nat) (l : Ledger)
    (r : ChunkRatchet) (s : SkippedKeyStore) : Prop where
  valid : l.Valid
  chain : r = senderAfter prims start l.position
  capacity : s.cap = cap
  order : s.order = l.waiting
  keys : s.map.keys = l.waiting
  held : ∀ i ∈ l.waiting, s.map.get? i = some (senderKey prims start i)
  small : ∀ i ∈ l.waiting, i < 2 ^ 64

variable {cap : Nat} {l : Ledger} {r : ChunkRatchet} {s : SkippedKeyStore}

theorem Follows.position (follows : Follows prims start cap l r s) (fresh : start.nextIdx = 0) :
    r.nextIdx = l.position := by
  rw [follows.chain, nextIdx_senderAfter, fresh, Nat.zero_add]

/-- A full store evicts the key that has waited longest. -/
theorem Follows.roomy (follows : Follows prims start cap l r s) (room : cap ≠ 0) :
    ∃ s' : SkippedKeyStore,
      (if l.position ∉ s.map.keys ∧ s.map.size = s.cap then s.evictOldest else s) = s' ∧
      s'.cap = cap ∧
      s'.order = (if l.waiting.length = cap then l.waiting.drop 1 else l.waiting) ∧
      s'.map.keys = (if l.waiting.length = cap then l.waiting.drop 1 else l.waiting) ∧
      ∀ i ∈ s'.map.keys, s'.map.get? i = some (senderKey prims start i) := by
  refine ⟨_, rfl, ?_⟩
  have absent : l.position ∉ s.map.keys := by
    rw [follows.keys]
    exact fun mem => Nat.lt_irrefl _ (follows.valid.waiting_behind mem)
  have size : s.map.size = l.waiting.length := by
    rw [← OrderedDict.length_keys, follows.keys]
  rw [size, follows.capacity]
  by_cases full : l.waiting.length = cap
  · rw [if_pos ⟨absent, full⟩, if_pos full, SkippedKeyStore.evictOldest, follows.order]
    have keys := follows.keys
    have held := follows.held
    cases queue : l.waiting with
    | nil =>
      rw [queue] at full
      exact absurd full.symm room
    | cons oldest rest =>
      have distinct := follows.valid.waiting_nodup
      rw [queue] at keys held distinct
      have erased : (s.map.erase oldest).keys = rest := by
        rw [OrderedDict.keys_erase, keys, List.erase_cons_head]
      refine ⟨follows.capacity, rfl, erased, fun i mem => ?_⟩
      simp only at mem
      rw [erased] at mem
      have differs : oldest ≠ i := by
        rintro rfl
        exact (List.nodup_cons.1 distinct).1 mem
      simp only
      rw [OrderedDict.get?_erase_of_ne _ differs]
      exact held i (List.mem_cons_of_mem _ mem)
  · rw [if_neg fun both => full both.2, if_neg full]
    exact ⟨follows.capacity, follows.order, follows.keys, fun i mem =>
      follows.held i (follows.keys ▸ mem)⟩

/-- One index passed. -/
theorem Follows.insert (follows : Follows prims start cap l r s) (room : cap ≠ 0)
    (fits : l.position < 2 ^ 64) : ∃ s' : SkippedKeyStore,
      s.insert l.position (senderKey prims start l.position) = .ok s' ∧
      Follows prims start cap (l.skip cap) (senderAfter prims start (l.position + 1)) s' := by
  obtain ⟨roomy, same, capacity, order, keys, held⟩ := follows.roomy room
  have fresh : l.position ∉ roomy.map.keys := by
    rw [keys]
    intro mem
    refine Nat.lt_irrefl _ (follows.valid.waiting_behind ?_)
    split at mem
    · exact List.mem_of_mem_drop mem
    · exact mem
  rw [SkippedKeyStore.insert, if_neg (Nat.not_le.2 fits), follows.capacity, if_neg room]
  rw [follows.capacity] at same
  simp only [same]
  refine ⟨_, rfl, follows.valid.skip, rfl, capacity, ?_, ?_, fun i mem => ?_, fun i mem => ?_⟩
  · rw [follows.valid.waiting_skip, ← order, if_neg fresh]
  · rw [follows.valid.waiting_skip, ← keys, OrderedDict.keys_set, if_neg fresh]
  · rw [follows.valid.waiting_skip, ← keys] at mem
    rw [OrderedDict.get?_set]
    obtain old | new := List.mem_append.1 mem
    · have differs : l.position ≠ i := by
        rintro rfl
        exact fresh old
      rw [if_neg differs, held i old]
    · rw [List.mem_singleton.1 new, if_pos rfl]
  · rw [follows.valid.waiting_skip] at mem
    obtain old | new := List.mem_append.1 mem
    · refine follows.small i ?_
      split at old
      · exact List.mem_of_mem_drop old
      · exact old
    · rw [List.mem_singleton.1 new]
      exact fits

/-- Any number of indexes passed. -/
theorem Follows.skipAhead (follows : Follows prims start cap l r s) (fresh : start.nextIdx = 0)
    (room : cap ≠ 0) {passes : Nat} (fits : l.position + passes ≤ 2 ^ 64) :
    ∃ (r' : ChunkRatchet) (s' : SkippedKeyStore),
      ChunkRatchet.skipAhead prims passes r (some s) = (.ok (), r', some s') ∧
      Follows prims start cap ((Ledger.skip cap)^[passes] l) r' s' := by
  induction passes generalizing l r s with
  | zero => exact ⟨r, s, rfl, follows⟩
  | succ passes ih =>
    obtain ⟨s', inserted, next⟩ := follows.insert room (by omega)
    obtain ⟨r'', s'', ran, done⟩ := @ih (l.skip cap) _ s' next
      (by simp only [Ledger.skip]; omega)
    refine ⟨r'', s'', ?_, done⟩
    rw [ChunkRatchet.skipAhead, follows.chain, nextKey_senderAfter fresh]
    simp only [ChunkRatchet.stash, inserted, Functor.map, Except.map]
    exact ran

theorem Ledger.position_skips (cap : Nat) (l : Ledger) (passes : Nat) :
    ((Ledger.skip cap)^[passes] l).position = l.position + passes := by
  induction passes generalizing l with
  | zero => rfl
  | succ passes ih =>
    rw [Function.iterate_succ_apply, ih]
    simp only [Ledger.skip]
    omega

/-- The key at the position is handed out. -/
theorem Follows.advance (follows : Follows prims start cap l r s) :
    Follows prims start cap (l.handOut l.position) (senderAfter prims start (l.position + 1)) s := by
  have position : (l.handOut l.position).position = l.position + 1 :=
    Nat.max_eq_right (Nat.le_succ _)
  have notWaiting : l.position ∉ l.waiting := fun mem =>
    Nat.lt_irrefl _ (follows.valid.waiting_behind mem)
  have waiting : (l.handOut l.position).waiting = l.waiting := by
    rw [follows.valid.waiting_handOut, List.erase_of_not_mem notWaiting]
  refine ⟨follows.valid.handOut fun mem => Nat.lt_irrefl _ (follows.valid.returnedBehind _ mem),
    by rw [position], follows.capacity, ?_, ?_, ?_, ?_⟩
  · rw [waiting, follows.order]
  · rw [waiting, follows.keys]
  · rw [waiting]
    exact follows.held
  · rw [waiting]
    exact follows.small

/-- A key that waits is taken. -/
theorem Follows.take (follows : Follows prims start cap l r s) {i : Nat} (waits : i ∈ l.waiting)
    (fits : i < 2 ^ 64) : ∃ s' : SkippedKeyStore,
      s.take i = .ok (senderKey prims start i, s') ∧ Follows prims start cap (l.handOut i) r s' := by
  have position : (l.handOut i).position = l.position :=
    Nat.max_eq_left (follows.valid.waiting_behind waits)
  rw [SkippedKeyStore.take, if_neg (Nat.not_le.2 fits), follows.held i waits]
  refine ⟨_, rfl, follows.valid.handOut (Ledger.mem_waiting.1 waits).2.1, ?_, follows.capacity, ?_,
    ?_, fun j mem => ?_, fun j mem => ?_⟩
  · rw [position]
    exact follows.chain
  · rw [follows.valid.waiting_handOut, ← follows.order]
  · rw [follows.valid.waiting_handOut, ← follows.keys, OrderedDict.keys_erase]
  · rw [follows.valid.waiting_handOut] at mem
    have differs : i ≠ j := fun same =>
      (follows.valid.waiting_nodup.mem_erase_iff.1 mem).1 same.symm
    rw [OrderedDict.get?_erase_of_ne _ differs]
    exact follows.held j (List.mem_of_mem_erase mem)
  · rw [follows.valid.waiting_handOut] at mem
    exact follows.small j (List.mem_of_mem_erase mem)

/-! ## One call -/

theorem Ledger.serve_behind {i : Nat} (behind : i < l.position) : l.serve cap i = l.handOut i := by
  rw [Ledger.serve, Nat.sub_eq_zero_of_le (Nat.le_of_lt behind)]
  rfl

theorem Ledger.serve_here : l.serve cap l.position = l.handOut l.position := by
  rw [Ledger.serve, Nat.sub_self]
  rfl

/-- **What `key_at` does**: it serves an index that is not behind, or that waits, and then follows
the ledger; or it raises and leaves everything as it was. -/
theorem Follows.keyAt_cases (follows : Follows prims start cap l r s) (fresh : start.nextIdx = 0)
    {target : Int} (admitted : (l.position : Int) < target → target ≤ l.position + maxSkipKeys →
      cap ≠ 0 ∧ target ≤ 2 ^ 64) :
    (∃ (i : Nat) (r' : ChunkRatchet) (s' : SkippedKeyStore), target = i ∧ i ∉ l.returned ∧
      (i < l.position → i ∈ l.waiting) ∧
      r.keyAt prims (some s) target = (.ok (senderKey prims start i), r', some s') ∧
      Follows prims start cap (l.serve cap i) r' s') ∨
    ∃ err, r.keyAt prims (some s) target = (.error err, r, some s) ∧
      ∀ i : Nat, target = i → i < l.position → i ∉ l.waiting := by
  have position := follows.position fresh
  rw [ChunkRatchet.keyAt, position]
  by_cases negative : target < 0
  · exact .inr ⟨_, if_pos negative, fun i same _ => absurd negative (by omega)⟩
  obtain ⟨i, rfl⟩ := Int.eq_ofNat_of_zero_le (Int.not_lt.1 negative)
  rw [if_neg negative]
  simp only [Int.toNat_natCast]
  by_cases far : ((l.position + maxSkipKeys : Nat) : Int) < i
  · refine .inr ⟨_, if_pos far, fun j same behind => absurd far ?_⟩
    omega
  rw [if_neg far]
  by_cases here : (i : Int) = l.position
  · rw [if_pos here, follows.chain, nextKey_senderAfter fresh]
    obtain rfl : i = l.position := by omega
    exact .inl ⟨l.position, _, s, rfl, fun mem => Nat.lt_irrefl _ (follows.valid.returnedBehind _ mem),
      fun behind => absurd behind (Nat.lt_irrefl _), rfl, Ledger.serve_here ▸ follows.advance⟩
  rw [if_neg here]
  by_cases ahead : (l.position : Int) < i
  · obtain ⟨room, fits⟩ := admitted ahead (by omega)
    obtain ⟨r', s', ran, done⟩ := follows.skipAhead fresh room
      (by omega : l.position + (i - l.position) ≤ 2 ^ 64)
    have reached : ((Ledger.skip cap)^[i - l.position] l).position = i := by
      rw [Ledger.position_skips]
      omega
    refine .inl ⟨i, senderAfter prims start (i + 1), s', rfl, fun mem => ?_,
      fun behind => absurd behind (by omega), ?_, ?_⟩
    · exact absurd (follows.valid.returnedBehind i mem) (by omega)
    · rw [if_pos ahead, ran]
      simp only
      rw [done.chain, reached, nextKey_senderAfter fresh]
    · have served := done.advance
      rw [reached] at served
      exact served
  · have behind : i < l.position := by omega
    rw [if_neg ahead]
    by_cases waits : i ∈ l.waiting
    · obtain ⟨s', taken, done⟩ := follows.take waits (follows.small i waits)
      refine .inl ⟨i, r, s', rfl, (Ledger.mem_waiting.1 waits).2.1, fun _ => waits, ?_,
        Ledger.serve_behind behind ▸ done⟩
      simp only [taken]
    · have missing : s.map.get? i = none := by
        rw [← s.map.not_mem_keys_iff, follows.keys]
        exact waits
      have refused : ∃ err, s.take i = .error err := by
        rw [SkippedKeyStore.take, missing]
        split
        · exact ⟨_, rfl⟩
        · exact ⟨_, rfl⟩
      obtain ⟨err, refused⟩ := refused
      refine .inr ⟨err, by simp only [refused], fun j same _ => ?_⟩
      obtain rfl : i = j := by omega
      exact waits

/-! ## Runs ahead that the store refuses -/

/-- A store of capacity zero, or an index beyond 64 bits, stops a run ahead after the chain has
moved. -/
theorem skipAhead_refused {passes : Nat} (some_ : 0 < passes)
    (refuses : s.cap = 0 ∨ 2 ^ 64 < r.nextIdx + passes) : ∃ err r' s',
      ChunkRatchet.skipAhead prims passes r (some s) = (.error err, r', s') ∧
      r.nextIdx < r'.nextIdx := by
  induction passes generalizing r s with
  | zero => exact absurd some_ (Nat.lt_irrefl 0)
  | succ passes ih =>
    rw [ChunkRatchet.skipAhead]
    simp only [ChunkRatchet.stash]
    cases inserted : s.insert (r.nextKey prims).1.2 (r.nextKey prims).1.1 with
    | error err => exact ⟨err, _, _, rfl, Nat.lt_succ_self _⟩
    | ok s' =>
      rw [SkippedKeyStore.insert] at inserted
      split at inserted
      · cases inserted
      · rename_i fits
        split at inserted
        · cases inserted
        · rename_i roomy
          have index : (r.nextKey prims).1.2 = r.nextIdx := rfl
          have after : (r.nextKey prims).2.nextIdx = r.nextIdx + 1 := rfl
          have beyond := refuses.resolve_left roomy
          obtain ⟨err, r', s'', ran, moved⟩ := @ih (r.nextKey prims).2 s' (by omega)
            (.inr (by omega))
          exact ⟨err, r', s'', ran, by omega⟩

/-! ## Runs -/

/-- A receiver: its ratchet, its store, and the history of its calls. -/
structure Session where
  ratchet : ChunkRatchet
  skipped : Option SkippedKeyStore
  ledger : Ledger

def Session.opened (start : ChunkRatchet) (cap : Nat) : Session :=
  ⟨start, some (.withCapacity cap), {}⟩

variable (prims) in
/-- `key_at` on the receiver, recorded if it returns. -/
def Session.step (cap : Nat) (s : Session) (target : Int) : Session :=
  match s.ratchet.keyAt prims s.skipped target with
  | (.ok _, ratchet, skipped) => ⟨ratchet, skipped, s.ledger.serve cap target.toNat⟩
  | (.error _, ratchet, skipped) => ⟨ratchet, skipped, s.ledger⟩

variable (prims) in
/-- What one call promises: the sender's key of an index not returned before; an index behind the
chain exactly if it was skipped, not returned and not evicted; no change if it raises. -/
structure CallHolds (secret : Bytes) (start : ChunkRatchet) (s : Session) (target : Int) : Prop where
  key : ∀ key, (s.ratchet.keyAt prims s.skipped target).1 = .ok key → ∃ i : Nat, target = i ∧
    key = senderKey prims start i ∧ deriveChunkKey prims secret i = .ok key ∧ i ∉ s.ledger.returned
  behind : ∀ i : Nat, target = i → i < s.ratchet.nextIdx →
    ((∃ key, (s.ratchet.keyAt prims s.skipped target).1 = .ok key) ↔
      i ∈ s.ledger.skipped ∧ i ∉ s.ledger.returned ∧ i ∉ s.ledger.evicted)
  failed : ∀ err, (s.ratchet.keyAt prims s.skipped target).1 = .error err →
    s.ratchet.keyAt prims s.skipped target = (.error err, s.ratchet, s.skipped)

/-- A call that runs ahead has a store with room, and passes no index beyond 64 bits. -/
def Admitted (cap : Nat) (s : Session) (target : Int) : Prop :=
  (s.ratchet.nextIdx : Int) < target → target ≤ s.ratchet.nextIdx + maxSkipKeys →
    cap ≠ 0 ∧ target ≤ 2 ^ 64

variable (prims) in
def Session.Sound (start : ChunkRatchet) (cap : Nat) (s : Session) : Prop :=
  ∃ store, s.skipped = some store ∧ Follows prims start cap s.ledger s.ratchet store

theorem Session.Sound.admitted {session : Session} (sound : session.Sound prims start cap)
    (fresh : start.nextIdx = 0) {target : Int} (admitted : Admitted cap session target) :
    ∃ store, session.skipped = some store ∧
      Follows prims start cap session.ledger session.ratchet store ∧
      ((session.ledger.position : Int) < target → target ≤ session.ledger.position + maxSkipKeys →
        cap ≠ 0 ∧ target ≤ 2 ^ 64) := by
  obtain ⟨store, here, follows⟩ := sound
  refine ⟨store, here, follows, ?_⟩
  rw [← follows.position fresh]
  exact admitted

theorem Session.Sound.step {session : Session} (sound : session.Sound prims start cap)
    (fresh : start.nextIdx = 0) {target : Int} (admitted : Admitted cap session target) :
    (session.step prims cap target).Sound prims start cap := by
  obtain ⟨store, here, follows, guard⟩ := sound.admitted fresh admitted
  rw [Session.step, here]
  obtain ⟨i, r', s', rfl, _, _, ran, served⟩ | ⟨err, ran, _⟩ := follows.keyAt_cases fresh guard
  · rw [ran]
    exact ⟨s', rfl, served⟩
  · rw [ran]
    exact ⟨store, rfl, follows⟩

theorem Session.Sound.call {secret : Bytes} {session : Session}
    (made : ChunkRatchet.fromSharedSecret prims secret = .ok start)
    (sound : session.Sound prims start cap) (fresh : start.nextIdx = 0) {target : Int}
    (admitted : Admitted cap session target) : CallHolds prims secret start session target := by
  obtain ⟨store, here, follows, guard⟩ := sound.admitted fresh admitted
  have position := follows.position fresh
  obtain ⟨i, r', s', rfl, first, waits, ran, _⟩ | ⟨err, ran, absent⟩ :=
    follows.keyAt_cases fresh guard
  · refine ⟨fun key returned => ?_, fun j same behind => ?_, fun err raised => ?_⟩
    · rw [here, ran] at returned
      obtain rfl := Except.ok.inj returned
      exact ⟨i, rfl, rfl, deriveChunkKey_eq made i, first⟩
    · obtain rfl : i = j := by omega
      rw [here, ran, ← Ledger.mem_waiting]
      exact ⟨fun _ => waits (position ▸ behind), fun _ => ⟨_, rfl⟩⟩
    · rw [here, ran] at raised
      cases raised
  · refine ⟨fun key returned => ?_, fun j same behind => ?_, fun other raised => ?_⟩
    · rw [here, ran] at returned
      cases returned
    · rw [here, ran, ← Ledger.mem_waiting]
      refine ⟨fun ⟨key, returned⟩ => (nomatch returned), fun waits => ?_⟩
      exact absurd waits (absent j same (position ▸ behind))
    · rw [here, ran] at raised ⊢
      obtain rfl := Except.error.inj raised
      rfl

theorem not_admitted_fails {secret : Bytes} {session : Session}
    (sound : session.Sound prims start cap) {target : Int}
    (refused : ¬ Admitted cap session target) : ¬ CallHolds prims secret start session target := by
  intro holds
  obtain ⟨store, here, follows⟩ := sound
  simp only [Admitted, not_forall, not_and, Int.not_le] at refused
  obtain ⟨ahead, near, refuses⟩ := refused
  obtain ⟨err, r', s', ran, moved⟩ := @skipAhead_refused prims session.ratchet store
    (target.toNat - session.ratchet.nextIdx) (by omega) (by
      rw [follows.capacity]
      by_cases room : cap = 0
      · exact .inl room
      · have far := refuses room
        right
        omega)
  have outcome : session.ratchet.keyAt prims session.skipped target = (.error err, r', s') := by
    rw [here, ChunkRatchet.keyAt, if_neg (by omega), if_neg (by simp only [Int.natCast_add]; omega), if_neg (by omega),
      if_pos ahead, ran]
  have unchanged := holds.failed err (by rw [outcome])
  rw [outcome] at unchanged
  have same : r' = session.ratchet := congrArg (fun x => x.2.1) unchanged
  rw [same] at moved
  exact Nat.lt_irrefl _ moved

theorem fresh_fromSharedSecret {secret : Bytes}
    (made : ChunkRatchet.fromSharedSecret prims secret = .ok start) : start.nextIdx = 0 := by
  rw [ChunkRatchet.fromSharedSecret] at made
  split at made
  · cases made
  · cases made
    rfl

theorem Follows.opened (start : ChunkRatchet) (cap : Nat) :
    Follows prims start cap {} start (.withCapacity cap) :=
  ⟨Ledger.valid_start, rfl, rfl, rfl, rfl, nofun, nofun⟩

variable (prims) in
/-- Every call of the run holds its promise. -/
def KeysOnce (secret : Bytes) (start : ChunkRatchet) (cap : Nat) (targets : List Int) : Prop :=
  ∀ early target late, targets = early ++ target :: late →
    CallHolds prims secret start
      (run (Session.step prims cap) (Session.opened start cap) early) target

/-- **Each chunk key is handed out once** and failed calls change nothing, in every run, exactly
if no call runs ahead with a store that refuses the keys it passes. -/
theorem chunk_keys_once_iff {secret : Bytes}
    (made : ChunkRatchet.fromSharedSecret prims secret = .ok start) (cap : Nat)
    (targets : List Int) :
    KeysOnce prims secret start cap targets ↔
      EachStep (Session.step prims cap) (Admitted cap) (Session.opened start cap) targets := by
  have fresh := fresh_fromSharedSecret made
  have begun : (Session.opened start cap).Sound prims start cap :=
    ⟨_, rfl, Follows.opened start cap⟩
  have kept : ∀ (s : Session) (target : Int), s.Sound prims start cap → Admitted cap s target →
      (s.step prims cap target).Sound prims start cap := fun s target sound =>
    sound.step fresh
  constructor
  · intro holds
    induction targets using List.reverseRecOn with
    | nil => trivial
    | append_singleton targets target ih =>
      have earlier := ih fun early call late split =>
        holds early call (late ++ [target]) (by rw [split, List.append_assoc, List.cons_append])
      have sound := run_invariant kept begun earlier
      refine eachStep_append.2 ⟨earlier, ?_, trivial⟩
      by_contra refused
      exact not_admitted_fails sound refused (holds targets target [] rfl)
  · rintro guarded early target late rfl
    obtain ⟨before, admitted, _⟩ := eachStep_append.1 guarded
    exact (run_invariant kept begun before).call made fresh admitted

/-! ## Small runs -/

/-- A derivation that keeps the first bytes of its input, the tag put before them. -/
def prefixPrims : Primitives where
  deriveKey _ input := (input.reverse.headD 0 :: input).take 32

def sampleSecret : Bytes := List.replicate 32 9

def sampleRatchet : ChunkRatchet := ⟨Chain.fromSharedSecret prefixPrims sampleSecret, 0⟩

/-- Three chunks out of order, with room for two keys. -/
theorem chunk_keys_once_three :
    KeysOnce prefixPrims sampleSecret sampleRatchet 2 [2, 0, 1] :=
  (chunk_keys_once_iff rfl 2 [2, 0, 1]).2
    ⟨fun _ _ => by decide, fun ahead _ => absurd ahead (by decide +kernel),
      fun ahead _ => absurd ahead (by decide +kernel), trivial⟩

/-- With a store of capacity zero the call for index one raises, and index zero is lost. -/
theorem failed_call_loses_a_key :
    ¬ KeysOnce prefixPrims sampleSecret sampleRatchet 0 [1] := by
  intro holds
  have unchanged := (holds [] 1 [] rfl).failed (.skippedStoreFull 0) rfl
  have moved := congrArg (fun outcome => outcome.2.1.nextIdx) unchanged
  exact absurd moved (by decide)

end OneLink.ChunkKeys
