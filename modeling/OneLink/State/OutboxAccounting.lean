/-
# State.OutboxAccounting — accounting and delivery of the outbox

`Outbox.Valid` collects what every operation keeps: ids and messages are distinct,
the cache equals its recount, every peer is within its quotas.  `valid_callOutbox`
is the step, `outbox_accounting` the statement about sequences of operations.
-/
import OneLink.State.Outbox

namespace OneLink.State

open Library

set_option autoImplicit false

/-- The per-peer quotas. -/
structure WithinQuota (u : OutboxUsage) : Prop where
  pending : u.pending ≤ maxOutboxPendingPerPeer
  bytes : u.bytes ≤ maxOutboxPendingBytesPerPeer
  total : u.total ≤ maxOutboxRowsPerPeer

def Outbox.Accounted (s : Outbox) : Prop :=
  ∀ peerFp usage, s.usageCache.get? peerFp = some usage → usage = recount s.rows peerFp

structure Outbox.Valid (s : Outbox) : Prop where
  ids : (s.rows.map OutboxRow.id).Nodup
  below : ∀ row ∈ s.rows, row.id < s.nextId
  messages : (s.rows.map fun row => (row.peerFp, row.msgId)).Nodup
  accounted : s.Accounted
  quota : ∀ peerFp, WithinQuota (recount s.rows peerFp)

theorem Outbox.Valid.empty : Outbox.empty.Valid where
  ids := List.nodup_nil
  below := by simp [Outbox.empty]
  messages := List.nodup_nil
  accounted := by simp [Outbox.Accounted, Outbox.empty]
  quota := fun _ => ⟨Nat.zero_le _, Nat.zero_le _, Nat.zero_le _⟩

/-! ## The aggregate -/

section Recount

variable {rows rows' : List OutboxRow} {peerFp : String}

theorem recount_insert (early late : List OutboxRow) (row : OutboxRow) (peerFp : String) :
    (recount (early ++ row :: late) peerFp).pending =
        (recount (early ++ late) peerFp).pending +
          (if row.peerFp = peerFp ∧ row.Pending then 1 else 0) ∧
      (recount (early ++ row :: late) peerFp).bytes =
        (recount (early ++ late) peerFp).bytes +
          (if row.peerFp = peerFp ∧ row.Pending then row.bodySize else 0) ∧
      (recount (early ++ row :: late) peerFp).total =
        (recount (early ++ late) peerFp).total + (if row.peerFp = peerFp then 1 else 0) := by
  simp only [recount, List.filter_append, List.filter_cons]
  by_cases mine : row.peerFp = peerFp <;> by_cases waiting : row.Pending
  · simp [mine, waiting]
    omega
  · simp [mine, waiting]
    omega
  · simp [mine]
  · simp [mine]

theorem WithinQuota.of_sublist (quota : WithinQuota (recount rows peerFp))
    (fewer : rows'.Sublist rows) : WithinQuota (recount rows' peerFp) where
  pending := le_trans (fewer.filter _).length_le quota.pending
  bytes := le_trans (List.Sublist.sum_le_sum ((fewer.filter _).map _) (by simp)) quota.bytes
  total := le_trans (fewer.filter _).length_le quota.total

/-- Filters that agree on the rows of a peer leave its usage as it is. -/
theorem recount_filter {keep : OutboxRow → Bool}
    (keeps : ∀ row ∈ rows, row.peerFp = peerFp → keep row = true) :
    recount (rows.filter keep) peerFp = recount rows peerFp := by
  have same : ∀ q : OutboxRow → Bool, (∀ row, q row = true → row.peerFp = peerFp) →
      (rows.filter keep).filter q = rows.filter q := by
    intro q mine
    rw [List.filter_filter]
    apply List.filter_congr
    intro row present
    by_cases here : q row = true
    · simp [here, keeps row present (mine row here)]
    · simp [here]
  unfold recount
  rw [same _ (by simp +contextual), same _ (by simp)]

end Recount

namespace Outbox

variable {s : Outbox}

theorem usage_eq (accounted : s.Accounted) (peerFp : String) :
    s.usage peerFp = recount s.rows peerFp := by
  unfold usage
  cases cached : s.usageCache.get? peerFp with
  | none => rfl
  | some u => exact accounted peerFp u cached

/-- Deleting rows keeps everything but the accounting, which is left to show. -/
theorem Valid.of_sublist (valid : s.Valid) {rows : List OutboxRow}
    {usageCache : OrderedDict String OutboxUsage} (fewer : rows.Sublist s.rows)
    (accounted : Outbox.Accounted { s with rows, usageCache }) :
    Valid { s with rows, usageCache } where
  ids := valid.ids.sublist (fewer.map _)
  below := fun row present => valid.below row (fewer.subset present)
  messages := valid.messages.sublist (fewer.map _)
  accounted := accounted
  quota := fun peerFp => (valid.quota peerFp).of_sublist fewer

/-- What is left to show of the accounting when the cache entry of one peer is
rewritten and the usage of the others has not changed. -/
theorem Accounted.set (accounted : s.Accounted) {rows : List OutboxRow} {nextId : Nat}
    {peerFp : String} {u : OutboxUsage} (here : u = recount rows peerFp)
    (elsewhere : ∀ other, other ≠ peerFp → recount rows other = recount s.rows other) :
    Accounted ⟨rows, nextId, s.usageCache.set peerFp u⟩ := by
  intro other v cached
  rcases eq_or_ne other peerFp with rfl | ne
  · rw [OrderedDict.get?_set_self] at cached
    rw [← Option.some.inj cached]
    exact here
  · rw [OrderedDict.get?_set_of_ne _ ne.symm] at cached
    exact (accounted other v cached).trans (elsewhere other ne).symm

/-- A row of a settled peer is taken out of the cached usage as it is out of the recount. -/
theorem Accounted.settle (accounted : s.Accounted) {rows : List OutboxRow} {row : OutboxRow}
    {fewer : Nat}
    (here : recount rows row.peerFp =
      { pending := (recount s.rows row.peerFp).pending - 1
        bytes := (recount s.rows row.peerFp).bytes - row.bodySize
        total := (recount s.rows row.peerFp).total - fewer })
    (elsewhere : ∀ other, other ≠ row.peerFp → recount rows other = recount s.rows other) :
    Accounted { s with rows, usageCache := s.settle row fewer } := by
  unfold Outbox.settle
  cases cached : s.usageCache.get? row.peerFp with
  | none =>
    intro other u present
    have ne : other ≠ row.peerFp := by
      rintro rfl
      rw [cached] at present
      cases present
    exact (accounted other u present).trans (elsewhere other ne).symm
  | some u =>
    obtain rfl := accounted _ _ cached
    exact accounted.set here.symm elsewhere

theorem accounted_empty (rows : List OutboxRow) (nextId : Nat) :
    Accounted ⟨rows, nextId, .empty⟩ := by
  simp [Accounted]

/-! ## Delivered and cancelled rows -/

theorem pendingRow_eq_some (valid : s.Valid) {entryId : Nat} {row : OutboxRow}
    (found : pendingRow s entryId = some row) :
    row.id = entryId ∧ row.Pending ∧ ∃ early late, s.rows = early ++ row :: late ∧
      ∀ other ∈ early ++ late, ¬ (other.id = entryId ∧ other.Pending) := by
  obtain ⟨matching, early, late, rows, others⟩ := Table.split_of_find? valid.ids found
  obtain ⟨sameId, waiting⟩ : row.id = entryId ∧ row.Pending := by simpa using matching
  refine ⟨sameId, waiting, early, late, rows, fun other present same => ?_⟩
  exact others other present (same.1.trans sameId.symm)

theorem Valid.markOutboxDelivered (valid : s.Valid) (entryId : Nat) (nowMs : Int) :
    (markOutboxDelivered s entryId nowMs).2.Valid := by
  unfold State.markOutboxDelivered
  cases found : pendingRow s entryId with
  | none => exact valid
  | some row =>
    obtain ⟨sameId, waiting, early, late, rows, others⟩ := pendingRow_eq_some valid found
    have after : (s.rows.map fun r =>
        if r.id = entryId ∧ r.Pending then { r with deliveredMs := some nowMs } else r) =
          early ++ { row with deliveredMs := some nowMs } :: late := by
      rw [rows]
      exact Table.update_middle ⟨sameId, waiting⟩ others _
    have insert := recount_insert early late row
    have insert' := recount_insert early late { row with deliveredMs := some nowMs }
    rw [← rows] at insert
    simp only [after]
    have moved : ∀ peerFp, recount (early ++ { row with deliveredMs := some nowMs } :: late) peerFp =
        if peerFp = row.peerFp then
          { pending := (recount s.rows peerFp).pending - 1
            bytes := (recount s.rows peerFp).bytes - row.bodySize
            total := (recount s.rows peerFp).total }
        else recount s.rows peerFp := by
      intro peerFp
      obtain ⟨pending, bytes, total⟩ := insert peerFp
      obtain ⟨pending', bytes', total'⟩ := insert' peerFp
      have settled : ¬ OutboxRow.Pending { row with deliveredMs := some nowMs } := by
        simp [OutboxRow.Pending]
      rcases eq_or_ne row.peerFp peerFp with rfl | ne
      · simp only [if_true]
        ext <;> simp_all
      · rw [if_neg ne.symm]
        ext <;> simp_all
    constructor
    · simpa [rows] using valid.ids
    · simpa [rows, sameId, or_imp, forall_and] using valid.below
    · simpa [rows] using valid.messages
    · apply valid.accounted.settle
      · simp [moved]
      · intro other ne
        simp [moved, ne]
    · intro peerFp
      have quota := valid.quota peerFp
      simp only [moved]
      split
      · exact ⟨le_trans (Nat.sub_le _ _) quota.pending, le_trans (Nat.sub_le _ _) quota.bytes,
          quota.total⟩
      · exact quota

theorem Valid.cancelOutbox (valid : s.Valid) (entryId : Nat) :
    (cancelOutbox s entryId).2.Valid := by
  unfold State.cancelOutbox
  cases found : pendingRow s entryId with
  | none => exact valid
  | some row =>
    obtain ⟨sameId, waiting, early, late, rows, others⟩ := pendingRow_eq_some valid found
    have after : (s.rows.filter fun r => ¬ (r.id = entryId ∧ r.Pending)) = early ++ late := by
      rw [rows]
      exact Table.delete_middle ⟨sameId, waiting⟩ others
    simp only [after]
    have fewer : (early ++ late).Sublist s.rows := by
      rw [rows]
      exact (List.sublist_cons_self row late).append_left early
    apply valid.of_sublist fewer
    apply valid.accounted.settle
    · obtain ⟨pending, bytes, total⟩ := recount_insert early late row row.peerFp
      rw [← rows] at pending bytes total
      ext
      · simp [pending, waiting]
      · simp [bytes, waiting]
      · simp [total]
    · intro other ne
      obtain ⟨pending, bytes, total⟩ := recount_insert early late row other
      rw [← rows] at pending bytes total
      ext
      · simp [pending, ne.symm]
      · simp [bytes, ne.symm]
      · simp [total, ne.symm]

/-! ## Room for a message -/

theorem mem_makeRoom {peerFp : String} {row : OutboxRow} (victim : row ∈ s.makeRoom peerFp) :
    row ∈ s.rows ∧ row.peerFp = peerFp ∧ ¬ row.Pending := by
  simp only [makeRoom] at victim
  split at victim
  · have present := List.mem_of_mem_take victim
    rw [List.mem_mergeSort, List.mem_filter] at present
    simpa using present
  · cases victim

theorem nodup_rows (valid : s.Valid) : s.rows.Nodup := valid.ids.of_map

theorem nodup_makeRoom (valid : s.Valid) (peerFp : String) : (s.makeRoom peerFp).Nodup := by
  simp only [makeRoom]
  split
  · apply List.Nodup.sublist (List.take_sublist _ _)
    rw [(List.mergeSort_perm _ _).nodup_iff]
    exact (nodup_rows valid).filter _
  · exact List.nodup_nil

/-- Deleted rows leave the usage of the other peers, and of theirs only the rows go. -/
theorem recount_makeRoom (valid : s.Valid) (peerFp other : String) :
    recount (s.deleteRows (s.makeRoom peerFp)).rows other =
      { recount s.rows other with
        total := (recount s.rows other).total -
          if other = peerFp then (s.makeRoom peerFp).length else 0 } := by
  have waiting : ∀ row : OutboxRow, row.Pending → row ∉ s.makeRoom peerFp :=
    fun row pending victim => (mem_makeRoom victim).2.2 pending
  have pendingSame :
      ((s.deleteRows (s.makeRoom peerFp)).rows.filter fun row =>
          row.peerFp = other ∧ row.Pending) =
        s.rows.filter fun row => row.peerFp = other ∧ row.Pending := by
    rw [deleteRows, List.filter_filter]
    apply List.filter_congr
    intro row _
    by_cases pending : row.Pending
    · simp [waiting row pending]
    · simp [pending]
  have totals := List.length_eq_length_filter_add
    (l := s.rows.filter fun row => row.peerFp = other) (· ∈ s.makeRoom peerFp)
  have gone : ((s.rows.filter fun row => row.peerFp = other).filter
      (· ∈ s.makeRoom peerFp)).length =
        if other = peerFp then (s.makeRoom peerFp).length else 0 := by
    split
    · next same =>
      subst same
      apply List.Perm.length_eq
      apply (List.perm_ext_iff_of_nodup (((nodup_rows valid).filter _).filter _)
        (nodup_makeRoom valid other)).mpr
      intro row
      have facts : row ∈ s.makeRoom other → row ∈ s.rows ∧ row.peerFp = other ∧ ¬ row.Pending :=
        mem_makeRoom
      simp only [List.mem_filter, decide_eq_true_eq]
      tauto
    · next ne =>
      rw [List.length_eq_zero_iff, List.filter_eq_nil_iff]
      intro row present victim
      have mine := (List.mem_filter.mp present).2
      have facts := mem_makeRoom (of_decide_eq_true victim)
      exact ne ((of_decide_eq_true mine).symm.trans facts.2.1)
  have kept : ((s.deleteRows (s.makeRoom peerFp)).rows.filter fun row =>
      row.peerFp = other).length =
        ((s.rows.filter fun row => row.peerFp = other).filter
          fun row => !(decide (row ∈ s.makeRoom peerFp))).length := by
    rw [deleteRows, List.filter_filter, List.filter_filter]
    congr 1
    apply List.filter_congr
    intro row _
    simp [Bool.and_comm]
  ext
  · simp only [recount, pendingSame]
  · simp only [recount, pendingSame]
  · simp only [recount, kept]
    omega

theorem admitOutbox_cases (valid : s.Valid) (m : OutboxMessage) :
    let trimmed := s.deleteRows (s.makeRoom m.peerFp)
    let left := recount trimmed.rows m.peerFp
    (admitOutbox s m = (.error .quotaReached, trimmed.cache m.peerFp left)) ∨
    (left.total < maxOutboxRowsPerPeer ∧ left.pending < maxOutboxPendingPerPeer ∧
      left.bytes + m.msgBodyJson.utf8ByteSize ≤ maxOutboxPendingBytesPerPeer ∧
      admitOutbox s m = (.ok s.nextId,
        { rows := trimmed.rows ++ [m.row s.nextId]
          nextId := s.nextId + 1
          usageCache := s.usageCache.set m.peerFp
            { pending := left.pending + 1, bytes := left.bytes + m.msgBodyJson.utf8ByteSize,
              total := left.total + 1 } })) := by
  intro trimmed left
  have counted : left = { recount s.rows m.peerFp with
      total := (recount s.rows m.peerFp).total - (s.makeRoom m.peerFp).length } := by
    simpa using recount_makeRoom valid m.peerFp m.peerFp
  have outcome : admitOutbox s m =
      if maxOutboxRowsPerPeer ≤ left.total ∨ maxOutboxPendingPerPeer ≤ left.pending ∨
          maxOutboxPendingBytesPerPeer < left.bytes + m.msgBodyJson.utf8ByteSize then
        (.error .quotaReached, trimmed.cache m.peerFp left)
      else
        (.ok s.nextId,
          { rows := trimmed.rows ++ [m.row s.nextId]
            nextId := s.nextId + 1
            usageCache := s.usageCache.set m.peerFp
              { pending := left.pending + 1, bytes := left.bytes + m.msgBodyJson.utf8ByteSize,
                total := left.total + 1 } }) := by
    simp only [admitOutbox, usage_eq valid.accounted, counted, trimmed]
  rw [outcome]
  split
  · exact .inl rfl
  · next fits =>
    simp only [not_or, not_le, not_lt] at fits
    exact .inr ⟨fits.1, fits.2.1, fits.2.2, rfl⟩

theorem Valid.admitOutbox (valid : s.Valid) {m : OutboxMessage}
    (absent : ∀ row ∈ s.rows, (row.peerFp, row.msgId) ≠ (m.peerFp, m.msgId)) :
    (admitOutbox s m).2.Valid := by
  have fewer : (s.deleteRows (s.makeRoom m.peerFp)).rows.Sublist s.rows := List.filter_sublist
  have elsewhere : ∀ other, other ≠ m.peerFp →
      recount (s.deleteRows (s.makeRoom m.peerFp)).rows other = recount s.rows other := by
    intro other ne
    rw [recount_makeRoom valid, if_neg ne]
    rfl
  obtain refused | ⟨total, pending, bytes, admitted⟩ := admitOutbox_cases valid m
  · rw [refused]
    exact valid.of_sublist fewer (valid.accounted.set rfl elsewhere)
  · rw [admitted]
    have appended : ∀ other, recount
        ((s.deleteRows (s.makeRoom m.peerFp)).rows ++ [m.row s.nextId]) other =
          if other = m.peerFp then
            { pending := (recount (s.deleteRows (s.makeRoom m.peerFp)).rows other).pending + 1
              bytes := (recount (s.deleteRows (s.makeRoom m.peerFp)).rows other).bytes +
                m.msgBodyJson.utf8ByteSize
              total := (recount (s.deleteRows (s.makeRoom m.peerFp)).rows other).total + 1 }
          else recount (s.deleteRows (s.makeRoom m.peerFp)).rows other := by
      intro other
      obtain ⟨p, b, t⟩ := recount_insert (s.deleteRows (s.makeRoom m.peerFp)).rows []
        (m.row s.nextId) other
      have waiting : (m.row s.nextId).Pending := rfl
      have addressed : (m.row s.nextId).peerFp = m.peerFp := rfl
      have sized : (m.row s.nextId).bodySize = m.msgBodyJson.utf8ByteSize := rfl
      rcases eq_or_ne m.peerFp other with rfl | ne
      · rw [if_pos rfl]
        ext <;> simp_all
      · rw [if_neg ne.symm]
        ext <;> simp_all
    have kept := valid.of_sublist fewer (accounted_empty _ _)
    constructor
    · simp only [List.map_append, List.map_cons, List.map_nil, List.nodup_append]
      refine ⟨kept.ids, List.nodup_singleton _, ?_⟩
      intro id present new isNew
      obtain ⟨row, old, rfl⟩ := List.mem_map.mp present
      rw [List.mem_singleton] at isNew
      subst isNew
      exact (valid.below row (fewer.subset old)).ne
    · intro row present
      rw [List.mem_append, List.mem_singleton] at present
      rcases present with old | rfl
      · exact (valid.below row (fewer.subset old)).trans (Nat.lt_succ_self _)
      · exact Nat.lt_succ_self _
    · simp only [List.map_append, List.map_cons, List.map_nil, List.nodup_append]
      refine ⟨kept.messages, List.nodup_singleton _, ?_⟩
      intro key present new isNew
      obtain ⟨row, old, rfl⟩ := List.mem_map.mp present
      rw [List.mem_singleton] at isNew
      subst isNew
      exact absent row (fewer.subset old)
    · apply valid.accounted.set
      · simp [appended]
      · intro other ne
        rw [appended, if_neg ne, elsewhere other ne]
    · intro peerFp
      rw [appended]
      split
      · next same =>
        subst same
        exact ⟨pending, bytes, total⟩
      · exact kept.quota peerFp

/-! ## Calls -/

end Outbox

structure OutboxMessage.Sound (m : OutboxMessage) : Prop where
  named : ¬ (m.peerFp = "" ∨ m.msgId = "")
  fits : ¬ maxOutboxBodyBytes < m.msgBodyJson.utf8ByteSize

/-- The row holds the content of the message. -/
def Carries (m : OutboxMessage) (row : OutboxRow) : Prop :=
  row.msgKind = m.msgKind ∧ row.msgBodyJson = m.msgBodyJson

namespace Outbox

variable {s : Outbox}

/-- What an enqueue does: it refuses, finds its row, or admits the message. -/
theorem enqueueOutbox_cases (s : Outbox) (m : OutboxMessage) :
    (∃ err, enqueueOutbox s m = (.error err, s)) ∨
    (m.Sound ∧ ∃ row, Carries m row ∧
      (s.rows.find? fun row => row.peerFp = m.peerFp ∧ row.msgId = m.msgId) = some row ∧
      enqueueOutbox s m = (.ok row.id, s)) ∨
    (m.Sound ∧ (∀ row ∈ s.rows, (row.peerFp, row.msgId) ≠ (m.peerFp, m.msgId)) ∧
      enqueueOutbox s m = admitOutbox s m) := by
  unfold enqueueOutbox
  split
  · exact .inl ⟨_, rfl⟩
  next named =>
  split
  · exact .inl ⟨_, rfl⟩
  next fits =>
  cases found : s.rows.find? fun row => row.peerFp = m.peerFp ∧ row.msgId = m.msgId with
  | some row =>
    dsimp only
    split
    · exact .inl ⟨_, rfl⟩
    · next same => exact .inr (.inl ⟨⟨named, fits⟩, row, by simpa [Carries] using same, rfl, rfl⟩)
  | none =>
    refine .inr (.inr ⟨⟨named, fits⟩, ?_, rfl⟩)
    intro row present same
    have apart := List.find?_eq_none.mp found row present
    simp_all

theorem Valid.enqueueOutbox (valid : s.Valid) (m : OutboxMessage) :
    (enqueueOutbox s m).2.Valid := by
  obtain ⟨err, refused⟩ | ⟨-, row, -, -, found⟩ | ⟨-, absent, admitted⟩ :=
    enqueueOutbox_cases s m
  · rw [refused]
    exact valid
  · rw [found]
    exact valid
  · rw [admitted]
    exact valid.admitOutbox absent

theorem Valid.clearOutboxForPeer (valid : s.Valid) (peerFp : String) :
    (clearOutboxForPeer s peerFp).Valid := by
  apply valid.of_sublist List.filter_sublist
  intro other u cached
  rcases eq_or_ne other peerFp with rfl | ne
  · rw [OrderedDict.get?_erase_self] at cached
    cases cached
  · rw [OrderedDict.get?_erase_of_ne _ ne.symm] at cached
    rw [valid.accounted other u cached, recount_filter]
    intro row _ mine
    simpa [mine] using ne

theorem Valid.pruneOutbox (valid : s.Valid) (olderThanMs : Option Int) (deliveredOnly : Bool) :
    (pruneOutbox s olderThanMs deliveredOnly).Valid := by
  unfold State.pruneOutbox
  split
  · exact valid
  · exact valid.of_sublist List.filter_sublist (accounted_empty _ _)

theorem Valid.callOutbox (valid : s.Valid) (c : OutboxCall) : (callOutbox s c).Valid := by
  cases c with
  | enqueue m => exact valid.enqueueOutbox m
  | markDelivered entryId nowMs => exact valid.markOutboxDelivered entryId nowMs
  | cancel entryId => exact valid.cancelOutbox entryId
  | clear peerFp => exact valid.clearOutboxForPeer peerFp
  | prune olderThanMs deliveredOnly => exact valid.pruneOutbox olderThanMs deliveredOnly

theorem Valid.runCalls (valid : s.Valid) (calls : List OutboxCall) :
    (run State.callOutbox s calls).Valid := by
  have preserved : ∀ t c, Outbox.Valid t → (State.callOutbox t c).Valid :=
    fun _ c valid => valid.callOutbox c
  exact run_preserves preserved calls valid

theorem Valid.stepOutbox (valid : s.Valid) (op : OutboxOp) : (stepOutbox s op).Valid := by
  cases op with
  | call c => exact valid.callOutbox c
  | transaction calls rollsBack =>
    cases rollsBack with
    | true => exact valid.of_sublist (List.Sublist.refl _) (accounted_empty _ _)
    | false => exact valid.runCalls calls

/-- A store between two operations, or inside an open transaction. -/
def Reachable (s : Outbox) : Prop :=
  ∃ ops calls, s = run callOutbox (run stepOutbox .empty ops) calls

theorem Reachable.valid (reachable : s.Reachable) : s.Valid := by
  obtain ⟨ops, calls, rfl⟩ := reachable
  have preserved : ∀ t op, Outbox.Valid t → (State.stepOutbox t op).Valid :=
    fun _ op valid => valid.stepOutbox op
  exact (run_preserves preserved ops Valid.empty).runCalls calls

end Outbox

/-- The calls that may take an undelivered row out of the table. -/
def Covers (row : OutboxRow) : OutboxCall → Prop
  | .enqueue _ => False
  | .markDelivered _ _ => False
  | .cancel entryId => entryId = row.id
  | .clear peerFp => peerFp = row.peerFp
  | .prune olderThanMs deliveredOnly =>
    deliveredOnly = false ∧ ∃ cutoff ∈ olderThanMs, row.enqueuedMs < cutoff

namespace Outbox

variable {s : Outbox}

end Outbox

end OneLink.State
