/-
# Discovery.RecordStore -- the signed records a node keeps

A node keeps one record for each publisher, under the hash of the publisher's key.
Five operations put records in or take them out, each with checks of its own:

* `STORE`, from any peer: signature, freshness, future skew, room after pruning;
* `publish_self_record`: signature, own id, freshness, future skew;
* `cache_verified_record`: signature, room;
* `FIND_VALUE` and `lookup_record` drop a record that cannot be served;
* `republish_records` prunes.

None of them compares the record it puts in with the one it replaces.  `step_records`
says what each does to the map, in the checks alone (`Op.incoming`).  Ed25519 and BLAKE3
are imported; the map's iteration order is left open by the source and read nowhere here.
-/
import OneLink.Discovery.Routing
import OneLink.Library.Checked
import OneLink.Library.OrderedDict

namespace OneLink.Discovery

open Library

set_option autoImplicit false

/-! ## Records -/

/-- `MAX_ENDPOINT_LEN` -/
def maxEndpointLen : Nat := 128

/-- `MAX_ENDPOINTS` -/
def maxEndpoints : Nat := 8

/-- `MAX_RECORD_TTL_SECS` -/
def maxRecordTtlSecs : UInt64 := 7 * 24 * 60 * 60

/-- `u64::saturating_add` -/
def saturatingAdd (a b : UInt64) : UInt64 := UInt64.ofNat (min (a.toNat + b.toNat) (2 ^ 64 - 1))

inductive RecordError where
  | badSignature
  | malformedPubkey
  | tooManyEndpoints (got max : Nat)
  | endpointTooLong (got max : Nat)
  | invalidTtl (got max : UInt64)
deriving DecidableEq, Repr

/-- An endpoint is the UTF-8 of its text. -/
structure PeerRecord where
  publisherPubkey : Bytes
  endpoints : List Bytes
  publishTimeUnix : UInt64
  ttlSecs : UInt64
deriving DecidableEq

namespace PeerRecord

/-- A length as `u16`, cut off at its maximum. -/
def u16Len (n : Nat) : Nat := min n 65535

def canonicalBytes (r : PeerRecord) : Bytes :=
  [79, 76, 82, 49] ++ r.publisherPubkey ++ beBytes 8 r.publishTimeUnix.toNat ++
    beBytes 8 r.ttlSecs.toNat ++ beBytes 2 (u16Len r.endpoints.length) ++
    r.endpoints.flatMap fun ep => beBytes 2 (u16Len ep.length) ++ ep.take (u16Len ep.length)

def isFresh (r : PeerRecord) (nowUnix : UInt64) : Bool :=
  nowUnix < saturatingAdd r.publishTimeUnix r.ttlSecs

def validate (r : PeerRecord) : Except RecordError Unit := do
  require (r.endpoints.length ≤ maxEndpoints) (.tooManyEndpoints r.endpoints.length maxEndpoints)
  r.endpoints.forM fun ep =>
    require (ep.length ≤ maxEndpointLen) (.endpointTooLong ep.length maxEndpointLen)
  require (r.ttlSecs ≠ 0 ∧ r.ttlSecs ≤ maxRecordTtlSecs) (.invalidTtl r.ttlSecs maxRecordTtlSecs)

theorem isFresh_of_le {r : PeerRecord} {early late : UInt64} (le : early ≤ late)
    (fresh : r.isFresh late = true) : r.isFresh early = true := by
  unfold isFresh at *
  simp only [decide_eq_true_eq] at *
  exact UInt64.lt_of_le_of_lt le fresh

end PeerRecord

structure SignedRecord where
  record : PeerRecord
  signature : Bytes
deriving DecidableEq

/-- The imported primitives. -/
structure RecordCrypto where
  /-- `NodeId::from_pubkey` -/
  fromPubkey : Bytes → NodeId
  /-- `VerifyingKey::from_bytes` accepts the key. -/
  keyAccepted : Bytes → Bool
  /-- `VerifyingKey::verify` -/
  signatureValid : (key message signature : Bytes) → Bool

variable (C : RecordCrypto)

def SignedRecord.nodeId (r : SignedRecord) : NodeId := C.fromPubkey r.record.publisherPubkey

def SignedRecord.verify (r : SignedRecord) : Except RecordError Unit := do
  r.record.validate
  require (C.keyAccepted r.record.publisherPubkey = true) .malformedPubkey
  require (C.signatureValid r.record.publisherPubkey r.record.canonicalBytes r.signature = true)
    .badSignature

/-! ## The node -/

/-- `MAX_STORED_RECORDS` -/
def maxStoredRecords : Nat := 4096

/-- `MAX_RECORD_FUTURE_SKEW_SECS` -/
def maxRecordFutureSkewSecs : UInt64 := 300

structure DhtNode where
  ownId : NodeId
  routing : RoutingTable
  records : OrderedDict NodeId SignedRecord
  ownRecord : Option SignedRecord

/-- `RoutingTable::new`, for the default `K` of 20; the seeds are in the table. -/
def DhtNode.new (ownId : NodeId) (k : Nat) (seeds : List NodeId) (now : UInt64) : DhtNode where
  ownId := ownId
  routing := seeds.foldl (fun t id => (t.insert id now.toNat).2) (.withK ownId k)
  records := .empty
  ownRecord := none

inductive DhtError where
  | invalidRecord (reason : RecordError)
  /-- `InvalidRecord("self-record is expired or future-dated")` -/
  | staleSelfRecord
  | selfRecordIdentityMismatch
  /-- `ResourceLimit("record store is full")` -/
  | recordStoreFull
  /-- The lookup driver failed. -/
  | lookup (reason : Nat)
deriving DecidableEq, Repr

inductive Request where
  | ping
  | store (rec : SignedRecord)
  | findNode (target : NodeId)
  | findValue (target : NodeId)
deriving DecidableEq

inductive StoreOutcome where
  | accepted
  | badSignature
  | expired
  | rateLimited
deriving DecidableEq, Repr

inductive FindValueOutcome where
  | found (rec : SignedRecord)
  | closer (peers : List NodeId)
deriving DecidableEq

inductive Response where
  | pong
  | storeResult (outcome : StoreOutcome)
  | findNodeResult (closest : List NodeId)
  | findValueResult (outcome : FindValueOutcome)
deriving DecidableEq

/-- `publish_time_unix > now.saturating_add(MAX_RECORD_FUTURE_SKEW_SECS)` -/
def PeerRecord.futureDated (r : PeerRecord) (now : UInt64) : Bool :=
  saturatingAdd now maxRecordFutureSkewSecs < r.publishTimeUnix

namespace DhtNode

def closestIds (s : DhtNode) (target : NodeId) : List NodeId :=
  (s.routing.closestTo target).map BucketEntry.id

/-- `Request::Store` of `handle` -/
def store (s : DhtNode) (now : UInt64) (rec : SignedRecord) : StoreOutcome × DhtNode :=
  if rec.verify C = .ok () then
    if rec.record.isFresh now then
      if rec.record.futureDated now then (.expired, s)
      else
        let recs := s.records.retain fun stored => stored.record.isFresh now
        let id := rec.nodeId C
        if maxStoredRecords ≤ recs.size ∧ id ∉ recs.keys then
          (.rateLimited, { s with records := recs })
        else
          (.accepted, { s with
            records := recs.set id rec
            routing := (s.routing.insert id now.toNat).2 })
    else (.expired, s)
  else (.badSignature, s)

/-- `Request::FindValue` of `handle` -/
def findValue (s : DhtNode) (now : UInt64) (target : NodeId) : FindValueOutcome × DhtNode :=
  match (s.records.get? target).filter fun rec =>
      rec.record.isFresh now && !rec.record.futureDated now with
  | some rec => (.found rec, s)
  | none => (.closer (s.closestIds target), { s with records := s.records.erase target })

def handle (s : DhtNode) (now : UInt64) : Request → Response × DhtNode
  | .ping => (.pong, s)
  | .store rec => ((s.store C now rec).map .storeResult id)
  | .findNode target => (.findNodeResult (s.closestIds target), s)
  | .findValue target => ((s.findValue now target).map .findValueResult id)

def publishSelfRecord (s : DhtNode) (now : UInt64) (rec : SignedRecord) :
    Except DhtError Unit × DhtNode :=
  match rec.verify C with
  | .error reason => (.error (.invalidRecord reason), s)
  | .ok () =>
    if rec.nodeId C ≠ s.ownId then (.error .selfRecordIdentityMismatch, s)
    else if rec.record.isFresh now = false ∨ rec.record.futureDated now = true then
      (.error .staleSelfRecord, s)
    else
      (.ok (), { s with
        records := s.records.set (rec.nodeId C) rec
        ownRecord := some rec })

def cacheVerifiedRecord (s : DhtNode) (rec : SignedRecord) : Except DhtError Unit × DhtNode :=
  match rec.verify C with
  | .error reason => (.error (.invalidRecord reason), s)
  | .ok () =>
    let id := rec.nodeId C
    if maxStoredRecords ≤ s.records.size ∧ id ∉ s.records.keys then
      (.error .recordStoreFull, s)
    else (.ok (), { s with records := s.records.set id rec })

/-- `lookup_record`; `network` is what the iterative lookup returns, if it is run. -/
def lookupRecord (s : DhtNode) (now : UInt64) (target : NodeId)
    (network : Except DhtError (Option SignedRecord)) :
    Except DhtError (Option SignedRecord) × DhtNode :=
  match (s.records.get? target).filter fun rec =>
      rec.record.isFresh now && !rec.record.futureDated now && decide (rec.verify C = .ok ()) with
  | some rec => (.ok (some rec), s)
  | none => (network, { s with records := s.records.erase target })

/-- `republish_records`, with the records it may send: those whose publication is older
than `max_age_secs`. -/
def republishRecords (s : DhtNode) (now maxAgeSecs : UInt64) : List SignedRecord × DhtNode :=
  let thresholdUnix := now.toNat - maxAgeSecs.toNat
  let records := s.records.retain fun stored => stored.record.isFresh now
  (records.values.filter fun rec =>
      rec.record.publishTimeUnix.toNat ≤ thresholdUnix && !rec.record.futureDated now,
    { s with records := records })

end DhtNode

/-! ## Operations -/

inductive Op where
  | request (body : Request)
  | publishSelfRecord (rec : SignedRecord)
  | cacheVerifiedRecord (rec : SignedRecord)
  | lookupRecord (target : NodeId) (network : Except DhtError (Option SignedRecord))
  | republishRecords (maxAgeSecs : UInt64)

def Op.apply (s : DhtNode) (now : UInt64) : Op → DhtNode
  | .request body => (s.handle C now body).2
  | .publishSelfRecord rec => (s.publishSelfRecord C now rec).2
  | .cacheVerifiedRecord rec => (s.cacheVerifiedRecord C rec).2
  | .lookupRecord target network => (s.lookupRecord C now target network).2
  | .republishRecords maxAgeSecs => (s.republishRecords now maxAgeSecs).2

/-- There is room for a record of `id`. -/
def Room (records : OrderedDict NodeId SignedRecord) (id : NodeId) : Prop :=
  records.size < maxStoredRecords ∨ id ∈ records.keys

instance (records : OrderedDict NodeId SignedRecord) (id : NodeId) :
    Decidable (Room records id) := inferInstanceAs (Decidable (_ ∨ _))

/-- The record that passes the checks of an operation. -/
def Op.incoming (s : DhtNode) (now : UInt64) : Op → Option SignedRecord
  | .request (.store rec) =>
    if rec.verify C = .ok () ∧ rec.record.isFresh now = true ∧
        rec.record.futureDated now = false ∧
        Room (s.records.retain fun stored => stored.record.isFresh now) (rec.nodeId C) then
      some rec
    else none
  | .publishSelfRecord rec =>
    if rec.verify C = .ok () ∧ rec.nodeId C = s.ownId ∧ rec.record.isFresh now = true ∧
        rec.record.futureDated now = false then some rec
    else none
  | .cacheVerifiedRecord rec =>
    if rec.verify C = .ok () ∧ Room s.records (rec.nodeId C) then some rec else none
  | _ => none

/-! ## What an operation does to the records -/

variable {C} {s : DhtNode} {now : UInt64}

theorem room_iff {records : OrderedDict NodeId SignedRecord} {id : NodeId} :
    Room records id ↔ ¬ (maxStoredRecords ≤ records.size ∧ id ∉ records.keys) := by
  unfold Room
  constructor
  · rintro (small | present) ⟨full, absent⟩
    · omega
    · exact absent present
  · intro notFull
    by_cases present : id ∈ records.keys
    · exact .inr present
    · exact .inl (Nat.lt_of_not_le fun full => notFull ⟨full, present⟩)

/-- What an operation leaves: the records without some, and the incoming one in its place. -/
inductive Stored (C : RecordCrypto) (s : DhtNode) (op : Op) (incoming : Option SignedRecord) :
    OrderedDict NodeId SignedRecord → Prop
  | pruned {records : OrderedDict NodeId SignedRecord} (nothing : incoming = none)
      (pruned : records.Pruned s.records) : Stored C s op incoming records
  | taken {base : OrderedDict NodeId SignedRecord} {rec : SignedRecord}
      (takes : incoming = some rec) (verified : rec.verify C = .ok ())
      (pruned : base.Pruned s.records)
      (room : op ≠ .publishSelfRecord rec ∧ Room base (rec.nodeId C) ∨
        op = .publishSelfRecord rec ∧ base = s.records) :
      Stored C s op incoming (base.set (rec.nodeId C) rec)

theorem store_records (rec : SignedRecord) :
    Stored C s (.request (.store rec)) (Op.incoming C s now (.request (.store rec)))
      (s.store C now rec).2.records := by
  unfold Op.incoming DhtNode.store
  by_cases verified : rec.verify C = .ok ()
  · by_cases fresh : rec.record.isFresh now = true
    · by_cases future : rec.record.futureDated now = true
      · simp only [verified, fresh, future, if_true, reduceCtorEq, false_and, and_false, if_false]
        exact .pruned rfl (OrderedDict.pruned_refl _)
      · simp only [Bool.not_eq_true] at future
        by_cases room : Room (s.records.retain fun stored => stored.record.isFresh now)
            (rec.nodeId C)
        · simp only [verified, fresh, future, room, and_self, if_true, Bool.false_eq_true,
            if_false, if_neg (room_iff.mp room)]
          exact .taken rfl verified (OrderedDict.pruned_retain ..) (.inl ⟨by simp, room⟩)
        · simp only [verified, fresh, future, room, and_false, if_true, Bool.false_eq_true,
            if_false, if_pos (not_not.mp (mt room_iff.mpr room))]
          exact .pruned rfl (OrderedDict.pruned_retain ..)
    · simp only [verified, fresh, if_true, Bool.false_eq_true, false_and, and_false, if_false]
      exact .pruned rfl (OrderedDict.pruned_refl _)
  · simp only [verified, false_and, if_false]
    exact .pruned rfl (OrderedDict.pruned_refl _)

theorem findValue_records (target : NodeId) :
    (s.findValue now target).2.records.Pruned s.records := by
  unfold DhtNode.findValue
  split
  · exact OrderedDict.pruned_refl _
  · exact OrderedDict.pruned_erase ..

theorem lookupRecord_records (target : NodeId)
    (network : Except DhtError (Option SignedRecord)) :
    (s.lookupRecord C now target network).2.records.Pruned s.records := by
  unfold DhtNode.lookupRecord
  split
  · exact OrderedDict.pruned_refl _
  · exact OrderedDict.pruned_erase ..

theorem publishSelfRecord_records (rec : SignedRecord) :
    Stored C s (.publishSelfRecord rec) (Op.incoming C s now (.publishSelfRecord rec))
      (s.publishSelfRecord C now rec).2.records := by
  unfold Op.incoming DhtNode.publishSelfRecord
  cases verified : rec.verify C with
  | error reason =>
    simp only [verified, reduceCtorEq, false_and, if_false]
    exact .pruned rfl (OrderedDict.pruned_refl _)
  | ok done =>
    by_cases own : rec.nodeId C = s.ownId
    · by_cases stale : rec.record.isFresh now = false ∨ rec.record.futureDated now = true
      · have refused : ¬ (rec.record.isFresh now = true ∧ rec.record.futureDated now = false) := by
          rcases stale with stale | stale <;> simp [stale]
        simp only [verified, own, ne_eq, not_true_eq_false, if_false, if_pos stale, true_and,
          if_neg refused]
        exact .pruned rfl (OrderedDict.pruned_refl _)
      · have served : rec.record.isFresh now = true ∧ rec.record.futureDated now = false := by
          simpa using stale
        simp only [verified, own, ne_eq, not_true_eq_false, if_false, if_neg stale, true_and,
          if_pos served]
        rw [← own]
        exact .taken rfl verified (OrderedDict.pruned_refl _) (.inr ⟨rfl, rfl⟩)
    · simp only [own, ne_eq, not_false_eq_true, if_true, false_and, and_false, if_false]
      exact .pruned rfl (OrderedDict.pruned_refl _)

theorem cacheVerifiedRecord_records (rec : SignedRecord) :
    Stored C s (.cacheVerifiedRecord rec) (Op.incoming C s now (.cacheVerifiedRecord rec))
      (s.cacheVerifiedRecord C rec).2.records := by
  unfold Op.incoming DhtNode.cacheVerifiedRecord
  cases verified : rec.verify C with
  | error reason =>
    simp only [verified, reduceCtorEq, false_and, if_false]
    exact .pruned rfl (OrderedDict.pruned_refl _)
  | ok done =>
    by_cases room : Room s.records (rec.nodeId C)
    · simp only [verified, room, and_self, if_true, if_neg (room_iff.mp room)]
      exact .taken rfl verified (OrderedDict.pruned_refl _) (.inl ⟨by simp, room⟩)
    · simp only [room, and_false, if_false, if_pos (not_not.mp (mt room_iff.mpr room))]
      exact .pruned rfl (OrderedDict.pruned_refl _)

theorem republishRecords_records (maxAgeSecs : UInt64) :
    (s.republishRecords now maxAgeSecs).2.records.Pruned s.records := by
  unfold DhtNode.republishRecords
  exact OrderedDict.pruned_retain s.records fun stored => stored.record.isFresh now

/-- The records after an operation, by the checks of the operation. -/
theorem step_records (op : Op) :
    Stored C s op (op.incoming C s now) (op.apply C s now).records := by
  cases op with
  | request body =>
    cases body with
    | ping => exact .pruned rfl (OrderedDict.pruned_refl _)
    | store rec => exact store_records rec
    | findNode target => exact .pruned rfl (OrderedDict.pruned_refl _)
    | findValue target => exact .pruned rfl (findValue_records target)
  | publishSelfRecord rec => exact publishSelfRecord_records rec
  | cacheVerifiedRecord rec => exact cacheVerifiedRecord_records rec
  | lookupRecord target network => exact .pruned rfl (lookupRecord_records target network)
  | republishRecords maxAgeSecs => exact .pruned rfl (republishRecords_records maxAgeSecs)

end OneLink.Discovery
