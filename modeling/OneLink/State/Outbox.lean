/-
# State.Outbox — the outbox and its cached usage

`enqueue_outbox`, `mark_outbox_delivered`, `cancel_outbox`,
`clear_outbox_for_peer` and `prune_outbox` over the rows of the outbox table and
the per-peer usage cache, alone or inside a transaction that may roll back.

`recount` is the SQL aggregate.  The cache is right when every entry equals its
recount (`Outbox.Accounted`), and each operation keeps it so, also when it raises.
A message is its kind and the canonical JSON text of its body.
-/
import Mathlib
import OneLink.Library.OrderedDict
import OneLink.Library.Run
import OneLink.Library.Table

namespace OneLink.State

open Library

set_option autoImplicit false

def maxOutboxPendingPerPeer : Nat := 10000

def maxOutboxRowsPerPeer : Nat := 50000

def maxOutboxPendingBytesPerPeer : Nat := 256 * 1024 * 1024

def maxOutboxBodyBytes : Nat := 256 * 1024

structure OutboxRow where
  id : Nat
  peerFp : String
  msgId : String
  msgKind : String
  msgBodyJson : String
  enqueuedMs : Int
  deliveredMs : Option Int
  deriving DecidableEq

/-- `(pending rows, pending payload bytes, all rows)` of a peer. -/
@[ext]
structure OutboxUsage where
  pending : Nat
  bytes : Nat
  total : Nat
  deriving DecidableEq, Repr

inductive OutboxError where
  | peerAndMsgIdRequired
  | payloadLimit
  | messageIdConflict
  | quotaReached
  deriving DecidableEq, Repr

namespace OutboxError

/-- The texts, with `pyRepr` for Python's `repr` of a string. -/
def message (pyRepr : String → String) (msgId : String) : OutboxError → String
  | peerAndMsgIdRequired => "peer_fp and msg_id required"
  | payloadLimit => "outbox message exceeds payload limit"
  | messageIdConflict =>
    "outbox message id " ++ pyRepr msgId ++ " was reused for different content"
  | quotaReached => "outbox quota reached; deliver or cancel pending messages"

end OutboxError

structure Outbox where
  rows : List OutboxRow
  /-- The next `AUTOINCREMENT` value. -/
  nextId : Nat
  /-- `_outbox_usage_cache` -/
  usageCache : OrderedDict String OutboxUsage

namespace OutboxRow

def bodySize (row : OutboxRow) : Nat := row.msgBodyJson.utf8ByteSize

/-- `delivered_ms IS NULL` -/
def Pending (row : OutboxRow) : Prop := row.deliveredMs = none

instance (row : OutboxRow) : Decidable row.Pending :=
  inferInstanceAs (Decidable (row.deliveredMs = none))

end OutboxRow

/-- The aggregate `_outbox_usage` selects. -/
def recount (rows : List OutboxRow) (peerFp : String) : OutboxUsage where
  pending := (rows.filter fun row => row.peerFp = peerFp ∧ row.Pending).length
  bytes := ((rows.filter fun row => row.peerFp = peerFp ∧ row.Pending).map
    OutboxRow.bodySize).sum
  total := (rows.filter fun row => row.peerFp = peerFp).length

namespace Outbox

def empty : Outbox := ⟨[], 1, .empty⟩

def cache (s : Outbox) (peerFp : String) (usage : OutboxUsage) : Outbox :=
  { s with usageCache := s.usageCache.set peerFp usage }

/-- `_outbox_usage` without its write: the cached usage, or a recount. -/
def usage (s : Outbox) (peerFp : String) : OutboxUsage :=
  (s.usageCache.get? peerFp).getD (recount s.rows peerFp)

end Outbox

structure OutboxMessage where
  peerFp : String
  msgId : String
  msgKind : String
  msgBodyJson : String
  nowMs : Int
  deriving DecidableEq

def OutboxMessage.row (m : OutboxMessage) (id : Nat) : OutboxRow where
  id := id
  peerFp := m.peerFp
  msgId := m.msgId
  msgKind := m.msgKind
  msgBodyJson := m.msgBodyJson
  enqueuedMs := m.nowMs
  deliveredMs := none

/-- `ORDER BY delivered_ms ASC, id ASC` -/
def deliveredEarlier (a b : OutboxRow) : Bool :=
  let first := a.deliveredMs.getD 0
  let second := b.deliveredMs.getD 0
  first < second ∨ (first = second ∧ a.id ≤ b.id)

/-- The delivered rows of a peer that an enqueue at the row cap deletes. -/
def pruneVictims (rows : List OutboxRow) (peerFp : String) (limit : Nat) : List OutboxRow :=
  ((rows.filter fun row => row.peerFp = peerFp ∧ ¬ row.Pending).mergeSort deliveredEarlier).take
    limit

namespace Outbox

/-- Delete delivered rows of a peer that has reached the row cap. -/
def makeRoom (s : Outbox) (peerFp : String) : List OutboxRow :=
  let total := (s.usage peerFp).total
  if maxOutboxRowsPerPeer ≤ total then
    pruneVictims s.rows peerFp (max 1000 (total - maxOutboxRowsPerPeer + 1))
  else []

def deleteRows (s : Outbox) (victims : List OutboxRow) : Outbox :=
  { s with rows := s.rows.filter fun row => row ∉ victims }

end Outbox

/-- `enqueue_outbox` from the quota check on, at a message that is not in the table. -/
def admitOutbox (s : Outbox) (m : OutboxMessage) : Except OutboxError Nat × Outbox :=
  let usage := s.usage m.peerFp
  let victims := s.makeRoom m.peerFp
  let total := usage.total - victims.length
  let trimmed := s.deleteRows victims
  if maxOutboxRowsPerPeer ≤ total ∨ maxOutboxPendingPerPeer ≤ usage.pending ∨
      maxOutboxPendingBytesPerPeer < usage.bytes + m.msgBodyJson.utf8ByteSize then
    (.error .quotaReached, trimmed.cache m.peerFp { usage with total := total })
  else
    (.ok s.nextId,
      { rows := trimmed.rows ++ [m.row s.nextId]
        nextId := s.nextId + 1
        usageCache := s.usageCache.set m.peerFp
          { pending := usage.pending + 1
            bytes := usage.bytes + m.msgBodyJson.utf8ByteSize
            total := total + 1 } })

def enqueueOutbox (s : Outbox) (m : OutboxMessage) : Except OutboxError Nat × Outbox :=
  if m.peerFp = "" ∨ m.msgId = "" then (.error .peerAndMsgIdRequired, s)
  else if maxOutboxBodyBytes < m.msgBodyJson.utf8ByteSize then (.error .payloadLimit, s)
  else
    match s.rows.find? fun row => row.peerFp = m.peerFp ∧ row.msgId = m.msgId with
    | some row =>
      if row.msgKind ≠ m.msgKind ∨ row.msgBodyJson ≠ m.msgBodyJson then
        (.error .messageIdConflict, s)
      else (.ok row.id, s)
    | none => admitOutbox s m

/-- The row with this id, if it is undelivered. -/
def pendingRow (s : Outbox) (entryId : Nat) : Option OutboxRow :=
  s.rows.find? fun row => row.id = entryId ∧ row.Pending

/-- Adjust a cached usage for one undelivered row of `row.peerFp` less. -/
def Outbox.settle (s : Outbox) (row : OutboxRow) (fewer : Nat) : OrderedDict String OutboxUsage :=
  match s.usageCache.get? row.peerFp with
  | none => s.usageCache
  | some usage => s.usageCache.set row.peerFp
      { pending := usage.pending - 1, bytes := usage.bytes - row.bodySize,
        total := usage.total - fewer }

def markOutboxDelivered (s : Outbox) (entryId : Nat) (nowMs : Int) : Bool × Outbox :=
  match pendingRow s entryId with
  | none => (false, s)
  | some row =>
    (true, { s with
      rows := s.rows.map fun r =>
        if r.id = entryId ∧ r.Pending then { r with deliveredMs := some nowMs } else r
      usageCache := s.settle row 0 })

def cancelOutbox (s : Outbox) (entryId : Nat) : Bool × Outbox :=
  match pendingRow s entryId with
  | none => (false, s)
  | some row =>
    (true, { s with
      rows := s.rows.filter fun r => ¬ (r.id = entryId ∧ r.Pending)
      usageCache := s.settle row 1 })

def clearOutboxForPeer (s : Outbox) (peerFp : String) : Outbox :=
  { s with
    rows := s.rows.filter fun r => r.peerFp ≠ peerFp
    usageCache := s.usageCache.erase peerFp }

/-- The rows `prune_outbox` deletes. -/
def Prunes (olderThanMs : Option Int) (deliveredOnly : Bool) (row : OutboxRow) : Prop :=
  (deliveredOnly = true → ¬ row.Pending) ∧ ∀ cutoff ∈ olderThanMs, row.enqueuedMs < cutoff

instance (olderThanMs : Option Int) (deliveredOnly : Bool) (row : OutboxRow) :
    Decidable (Prunes olderThanMs deliveredOnly row) :=
  inferInstanceAs (Decidable (_ ∧ _))

def pruneOutbox (s : Outbox) (olderThanMs : Option Int) (deliveredOnly : Bool) : Outbox :=
  -- without a clause the source returns 0 and touches nothing
  if deliveredOnly = false ∧ olderThanMs = none then s
  else
    { s with
      rows := s.rows.filter fun r => ¬ Prunes olderThanMs deliveredOnly r
      usageCache := .empty }

inductive OutboxCall where
  | enqueue (m : OutboxMessage)
  | markDelivered (entryId : Nat) (nowMs : Int)
  | cancel (entryId : Nat)
  | clear (peerFp : String)
  | prune (olderThanMs : Option Int) (deliveredOnly : Bool)

/-- The store after one call, whether it returned or raised. -/
def callOutbox (s : Outbox) : OutboxCall → Outbox
  | .enqueue m => (enqueueOutbox s m).2
  | .markDelivered entryId nowMs => (markOutboxDelivered s entryId nowMs).2
  | .cancel entryId => (cancelOutbox s entryId).2
  | .clear peerFp => clearOutboxForPeer s peerFp
  | .prune olderThanMs deliveredOnly => pruneOutbox s olderThanMs deliveredOnly

/-- A call in autocommit mode, or the calls made inside one transaction. -/
inductive OutboxOp where
  | call (c : OutboxCall)
  | transaction (calls : List OutboxCall) (rollsBack : Bool)

def stepOutbox (s : Outbox) : OutboxOp → Outbox
  | .call c => callOutbox s c
  -- ROLLBACK restores the table with its sequence; the handler clears the cache
  | .transaction _ true => { s with usageCache := .empty }
  | .transaction calls false => run callOutbox s calls

end OneLink.State
