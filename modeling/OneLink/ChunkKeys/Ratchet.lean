/-
# ChunkKeys.Ratchet -- the chunk-key chain, the skipped-key store, and `key_at`

The chain derives one key per step and moves one way.  `key_at` serves an index
at the chain's position, runs ahead to a later one while it stashes the keys it
passes, or takes an earlier one from the store.  The store holds `cap` keys and
evicts the oldest.  BLAKE3 is a parameter; the chain's counter is 64 bits wide
and wraps, the index kept beside it is a Python integer.

Every operation answers with the state it leaves, also where it raises.
-/
import Mathlib.Logic.Function.Iterate
import OneLink.Library.FixedWidth
import OneLink.Library.OrderedDict

namespace OneLink.ChunkKeys

open Library

set_option autoImplicit false

/-- `MAX_SKIP_KEYS`. -/
def maxSkipKeys : Nat := 1024

inductive RatchetError where
  | secretLength (got : Nat)
  | negativeIndex
  | beyondWindow (target position : Nat)
  /-- `OverflowError`: the index does not fit `u64`. -/
  | indexOverflow
  | rewind (requested current : Nat)
  | skipTooLarge (start target delta : Nat)
  | skippedStoreFull (cap : Nat)
  | skippedKeyNotFound (step : Nat)
  /-- `KeyError`: behind the chain and no store given. -/
  | storeRequired (target position : Nat)
deriving DecidableEq, Repr

/-- `blake3::derive_key(context, input)`, 32 bytes. -/
structure Primitives where
  deriveKey : (context input : Bytes) → Bytes

def chainStepContext : Bytes := ascii "ol-ratchet-chain-step-v1"
def rootBootstrapContext : Bytes := ascii "ol-ratchet-root-bootstrap-v1"

variable (prims : Primitives)

/-! ## The native chain -/

structure Chain where
  chainKey : Bytes
  step : UInt64
deriving DecidableEq

namespace Chain

/-- `Chain::from_shared_secret`. -/
def fromSharedSecret (sharedSecret : Bytes) : Chain :=
  ⟨prims.deriveKey rootBootstrapContext sharedSecret, 0⟩

/-- `chain_key || step_le || tag`. -/
def stepInput (chainKey : Bytes) (step : UInt64) (tag : UInt8) : Bytes :=
  chainKey ++ leBytes 8 step.toNat ++ [tag]

/-- `derive_from`. -/
def deriveFrom (chainKey : Bytes) (step : UInt64) : Bytes :=
  prims.deriveKey chainStepContext (stepInput chainKey step 0x4D)

/-- `advance`, and the step it counts. -/
def advance (c : Chain) : Chain :=
  ⟨prims.deriveKey chainStepContext (stepInput c.chainKey c.step 0x43), c.step + 1⟩

/-- `next_message_key`. -/
def nextMessageKey (c : Chain) : Bytes × Chain := (deriveFrom prims c.chainKey c.step, c.advance prims)

end Chain

/-! ## The skipped-key store -/

structure SkippedKeyStore where
  map : OrderedDict Nat Bytes
  order : List Nat
  cap : Nat

namespace SkippedKeyStore

/-- `SkippedKeyStore::with_capacity`. -/
def withCapacity (cap : Nat) : SkippedKeyStore := ⟨.empty, [], cap⟩

/-- The eviction of `insert`: the oldest key goes. -/
def evictOldest (s : SkippedKeyStore) : SkippedKeyStore :=
  match s.order with
  | [] => s
  | oldest :: rest => { s with map := s.map.erase oldest, order := rest }

/-- `SkippedKeyStore::insert`, behind the conversion of the index to `u64`. -/
def insert (s : SkippedKeyStore) (step : Nat) (key : Bytes) : Except RatchetError SkippedKeyStore :=
  if 2 ^ 64 ≤ step then .error .indexOverflow
  else if s.cap = 0 then .error (.skippedStoreFull s.cap)
  else
    let roomy := if step ∉ s.map.keys ∧ s.map.size = s.cap then s.evictOldest else s
    .ok { roomy with
      order := if step ∈ roomy.map.keys then roomy.order else roomy.order ++ [step]
      map := roomy.map.set step key }

/-- `SkippedKeyStore::take`, behind the conversion of the index to `u64`. -/
def take (s : SkippedKeyStore) (step : Nat) : Except RatchetError (Bytes × SkippedKeyStore) :=
  if 2 ^ 64 ≤ step then .error .indexOverflow
  else
    match s.map.get? step with
    | none => .error (.skippedKeyNotFound step)
    | some key => .ok (key, { s with map := s.map.erase step, order := s.order.erase step })

end SkippedKeyStore

/-! ## The ratchet -/

/-- A ratchet as `from_shared_secret` builds it: the chain, and the index of its next key. -/
structure ChunkRatchet where
  chain : Chain
  nextIdx : Nat
deriving DecidableEq

namespace ChunkRatchet

/-- `ChunkRatchet.from_shared_secret`. -/
def fromSharedSecret (sharedSecret : Bytes) : Except RatchetError ChunkRatchet :=
  if sharedSecret.length ≠ 32 then .error (.secretLength sharedSecret.length)
  else .ok ⟨Chain.fromSharedSecret prims sharedSecret, 0⟩

/-- `next_key`. -/
def nextKey (r : ChunkRatchet) : (Bytes × Nat) × ChunkRatchet :=
  let (key, chain) := r.chain.nextMessageKey prims
  ((key, r.nextIdx), ⟨chain, r.nextIdx + 1⟩)

/-- `if skipped is not None: skipped.insert(idx, k)`. -/
def stash (idx : Nat) (key : Bytes) : Option SkippedKeyStore → Except RatchetError (Option SkippedKeyStore)
  | none => .ok none
  | some store => some <$> store.insert idx key

/-- `while self._next_idx < target_idx`, with the number of keys to pass. -/
def skipAhead : Nat → ChunkRatchet → Option SkippedKeyStore →
    Except RatchetError Unit × ChunkRatchet × Option SkippedKeyStore
  | 0, r, skipped => (.ok (), r, skipped)
  | passes + 1, r, skipped =>
    let ((key, idx), r) := r.nextKey prims
    match stash idx key skipped with
    | .error err => (.error err, r, skipped)
    | .ok skipped => skipAhead passes r skipped

/-- `key_at`. -/
def keyAt (r : ChunkRatchet) (skipped : Option SkippedKeyStore) (targetIdx : Int) :
    Except RatchetError Bytes × ChunkRatchet × Option SkippedKeyStore :=
  if targetIdx < 0 then (.error .negativeIndex, r, skipped)
  else if (r.nextIdx + maxSkipKeys : Nat) < targetIdx then
    (.error (.beyondWindow targetIdx.toNat r.nextIdx), r, skipped)
  else if targetIdx = r.nextIdx then
    (.ok (r.nextKey prims).1.1, (r.nextKey prims).2, skipped)
  else if (r.nextIdx : Int) < targetIdx then
    match skipAhead prims (targetIdx.toNat - r.nextIdx) r skipped with
    | (.error err, r, skipped) => (.error err, r, skipped)
    | (.ok _, r, skipped) => (.ok (r.nextKey prims).1.1, (r.nextKey prims).2, skipped)
  else
    match skipped with
    | none => (.error (.storeRequired targetIdx.toNat r.nextIdx), r, skipped)
    | some store =>
      match store.take targetIdx.toNat with
      | .error err => (.error err, r, some store)
      | .ok (key, store) => (.ok key, r, some store)

end ChunkRatchet

/-- `derive_chunk_key`. -/
def deriveChunkKey (sharedSecret : Bytes) (chunkIdx : Nat) : Except RatchetError Bytes := do
  let r ← ChunkRatchet.fromSharedSecret prims sharedSecret
  .ok (((fun r : ChunkRatchet => (r.nextKey prims).2)^[chunkIdx] r).nextKey prims).1.1

end OneLink.ChunkKeys
