/-
# DeviceMesh.Sync — pairwise anti-entropy

A replica keeps the operations it holds in ingest order, the `(device, seq)` pairs it has
seen and the highest sequence number of each device.  Two replicas exchange the latter and
reply with what the peer seems to miss.

The emitting device applies its own operation; `record_local_emit` leaves that to the
caller.  `ol_pqsig`'s verification is a parameter.
-/
import OneLink.DeviceMesh.State

namespace OneLink.DeviceMesh

open Library

set_option autoImplicit false

/-! ## `AuthenticatedOp` -/

def maxDeltaValueLen : Nat := 8192

/-- `ED25519_SIG_LEN + ML_DSA_65_SIG_LEN` -/
def hybridSigLen : Nat := 64 + 3309

namespace Delta

def kindTag : Delta → UInt8
  | lwwSet .. => 1
  | orAdd .. => 2
  | orRemove .. => 3
  | counter .. => 4
  | mapPut .. => 5
  | mapDelete .. => 6

def validateSize : Delta → Except MeshError Unit
  | lwwSet value _ | mapPut _ value _ =>
    require (value.length ≤ maxDeltaValueLen) (.deltaValueTooLong value.length maxDeltaValueLen)
  | _ => .ok ()

/-- `delta.to_be_bytes()` of an `i64` is that of its two's complement. -/
def canonical (d : Delta) : Bytes :=
  d.kindTag :: match d with
    | lwwSet value ts => lenPrefixed value ++ beBytes 8 ts
    | orAdd element tag | orRemove element tag => lenPrefixed element ++ tag.1
    | counter deviceId delta => deviceId.1 ++ beBytes 8 delta.toUInt64.toNat
    | mapPut key value ts => lenPrefixed key ++ lenPrefixed value ++ beBytes 8 ts
    | mapDelete key ts => lenPrefixed key ++ beBytes 8 ts

end Delta

structure AuthenticatedOp where
  subtree : Bytes
  delta : Delta
  deviceId : DeviceId
  dayIndex : Nat
  seq : Nat
  wallUnix : Nat
  subkeySig : Bytes
  deriving DecidableEq

variable {VerifyingKey : Type} (verifySig : VerifyingKey → (message sig : Bytes) → Bool)

namespace AuthenticatedOp

def canonicalTranscript (op : AuthenticatedOp) : Bytes :=
  ascii "OL-mesh-auth-op-v1" ++ lenPrefixed op.subtree ++ op.delta.canonical ++ op.deviceId.1 ++
    beBytes 8 op.dayIndex ++ beBytes 8 op.seq ++ beBytes 8 op.wallUnix

def verify (op : AuthenticatedOp) (subkeyVk : VerifyingKey) : Except MeshError Unit := do
  require (op.subkeySig.length = hybridSigLen) (.badLength hybridSigLen op.subkeySig.length)
  require (op.subtree.length ≤ maxSubtreeLabelLen)
    (.subtreeLabelTooLong op.subtree.length maxSubtreeLabelLen)
  op.delta.validateSize
  require (verifySig subkeyVk op.canonicalTranscript op.subkeySig = true) .authOpVerifyFail

/-- What an operation is told apart by. -/
def key (op : AuthenticatedOp) : DeviceId ×ₗ Nat := toLex (op.deviceId, op.seq)

end AuthenticatedOp

/-! ## `SyncState` -/

def maxOpsPerSync : Nat := 1024

/-- Highest sequence number of each device. -/
abbrev SyncSummary := SortedMap DeviceId Nat

structure SyncState where
  seen : SortedMap (DeviceId ×ₗ Nat) Unit
  lastSeenSeq : SortedMap DeviceId Nat
  opLog : List AuthenticatedOp

namespace SyncState

def empty : SyncState := ⟨.empty, .empty, []⟩

def lastSeen (s : SyncState) (deviceId : DeviceId) : Nat := (s.lastSeenSeq.get? deviceId).getD 0

def summary (s : SyncState) : SyncSummary := s.lastSeenSeq

/-- Whether the operation was new, and the replica after it. -/
def ingest (s : SyncState) (op : AuthenticatedOp) (state : MeshState)
    (vkLookup : DeviceId → Nat → Except MeshError VerifyingKey) :
    Except MeshError (Bool × SyncState × MeshState) :=
  if (s.seen.get? op.key).isSome then .ok (false, s, state)
  else do
    let vk ← vkLookup op.deviceId op.dayIndex
    op.verify verifySig vk
    let state ← MeshState.applyDelta state op.subtree op.delta op.deviceId
    return (true,
      { seen := s.seen.alter op.key fun _ => ()
        lastSeenSeq := s.lastSeenSeq.alter op.deviceId fun old =>
          if op.seq > old.getD 0 then op.seq else old.getD 0
        opLog := s.opLog ++ [op] },
      state)

/-- The loop stops at `MAX_OPS_PER_SYNC`. -/
def diffForPeer (s : SyncState) (peer : SyncSummary) : List AuthenticatedOp :=
  (s.opLog.filter fun op => op.seq > (peer.get? op.deviceId).getD 0).take maxOpsPerSync

def recordLocalEmit (s : SyncState) (op : AuthenticatedOp) : Except MeshError SyncState := do
  require (op.seq > s.lastSeen op.deviceId)
    (.opSeqNotMonotonic op.deviceId op.seq (s.lastSeen op.deviceId))
  return {
    seen := s.seen.alter op.key fun _ => ()
    lastSeenSeq := s.lastSeenSeq.alter op.deviceId fun _ => op.seq
    opLog := s.opLog ++ [op] }

end SyncState

/-! ## Replicas that exchange operations -/

structure Replica where
  sync : SyncState
  state : MeshState

/-- One replica for each device, and every operation emitted so far. -/
structure Mesh where
  replicas : DeviceId → Replica
  sent : List AuthenticatedOp

/-- All replicas are set up with the same subtrees. -/
def Mesh.start (subtrees : MeshState) : Mesh := ⟨fun _ => ⟨.empty, subtrees⟩, []⟩

variable (VerifyingKey) in
inductive Action where
  /-- The device of the operation applies and records it. -/
  | emit (op : AuthenticatedOp)
  /-- An operation that some device emitted reaches a replica. -/
  | deliver (receiver : DeviceId) (op : AuthenticatedOp)
      (vkLookup : DeviceId → Nat → Except MeshError VerifyingKey)

def Mesh.set (m : Mesh) (id : DeviceId) (replica : Replica) : Mesh :=
  { m with replicas := fun other => if other = id then replica else m.replicas other }

def Replica.emit (r : Replica) (op : AuthenticatedOp) : Except MeshError Replica := do
  let state ← MeshState.applyDelta r.state op.subtree op.delta op.deviceId
  let sync ← r.sync.recordLocalEmit op
  return ⟨sync, state⟩

def Mesh.step (m : Mesh) : Action VerifyingKey → Mesh
  | .emit op =>
    match (m.replicas op.deviceId).emit op with
    | .ok replica => { m.set op.deviceId replica with sent := m.sent ++ [op] }
    | .error _ => m
  | .deliver receiver op vkLookup =>
    if op ∈ m.sent then
      match (m.replicas receiver).sync.ingest verifySig op (m.replicas receiver).state vkLookup with
      | .ok (_, sync, state) => m.set receiver ⟨sync, state⟩
      | .error _ => m
    else m

end OneLink.DeviceMesh
