/-
# Discovery.RecordHistory -- whether the records of a node go backwards

A run is watched with every record that was ever in the store.  `Forward` is what is
expected of the store at any time; `record_store_forward_iff` says that it holds all the
time exactly if no operation of the run is given an older record in place of one that is
still fresh, and the node's own record comes in only where there is room.  Nothing in
the source sees to either (`older_record_stored`).
-/
import OneLink.Discovery.RecordStore

namespace OneLink.Discovery

open Library

set_option autoImplicit false

/-- A node, every record it has ever stored, and the clock at its last operation. -/
structure Watched where
  node : DhtNode
  stored : List SignedRecord
  clock : UInt64

namespace Watched

def start (ownId : NodeId) (k : Nat) (seeds : List NodeId) (now : UInt64) : Watched where
  node := .new ownId k seeds now
  stored := []
  clock := now

/-- An operation at the given reading of the clock. -/
def step (C : RecordCrypto) (w : Watched) (event : UInt64 × Op) : Watched where
  node := event.2.apply C w.node event.1
  stored := w.stored ++ (event.2.apply C w.node event.1).records.values
  clock := event.1

end Watched

variable {C : RecordCrypto}

/-- The store has not gone backwards. -/
structure Forward (C : RecordCrypto) (w : Watched) : Prop where
  /-- A record that was stored and is still fresh has not been replaced by an older one. -/
  newest {old rec : SignedRecord} : old ∈ w.stored →
    w.node.records.get? (old.nodeId C) = some rec → old.record.isFresh w.clock = true →
      old.record.publishTimeUnix ≤ rec.record.publishTimeUnix
  verified {id : NodeId} {rec : SignedRecord} : w.node.records.get? id = some rec →
    rec.verify C = .ok () ∧ rec.nodeId C = id
  bounded : w.node.records.size ≤ maxStoredRecords

/-- The record an operation puts in is not older than one of the same publisher that is
still fresh, and a node publishes itself only where there is room. -/
def Guarded (C : RecordCrypto) (w : Watched) (event : UInt64 × Op) : Prop :=
  ∀ rec, event.2.incoming C w.node event.1 = some rec →
    (∀ old ∈ w.stored, old.nodeId C = rec.nodeId C → old.record.isFresh event.1 = true →
      old.record.publishTimeUnix ≤ rec.record.publishTimeUnix) ∧
      (event.2 = .publishSelfRecord rec → Room w.node.records (rec.nodeId C))

theorem forward_start (ownId : NodeId) (k : Nat) (seeds : List NodeId) (now : UInt64) :
    Forward C (.start ownId k seeds now) where
  newest member := by cases member
  verified present := by cases present
  bounded := Nat.zero_le _

theorem size_set_le {records : OrderedDict NodeId SignedRecord} {id : NodeId}
    (room : Room records id) (bounded : records.size ≤ maxStoredRecords) (rec : SignedRecord) :
    (records.set id rec).size ≤ maxStoredRecords := by
  by_cases present : id ∈ records.keys
  · rw [OrderedDict.size_set_of_mem _ present]
    exact bounded
  · rw [OrderedDict.size_set_of_not_mem _ present]
    rcases room with small | member
    · exact small
    · exact absurd member present

/-- **One operation.**  It keeps the store from going backwards if it is guarded. -/
theorem Forward.step {w : Watched} {event : UInt64 × Op} (forward : Forward C w)
    (later : w.clock ≤ event.1) (guarded : Guarded C w event) : Forward C (w.step C event) := by
  obtain ⟨now, op⟩ := event
  have records := @step_records C w.node now op
  have verified : ∀ {id rec}, (op.apply C w.node now).records.get? id = some rec →
      rec.verify C = .ok () ∧ rec.nodeId C = id := by
    intro id rec present
    generalize (op.apply C w.node now).records = after at records present
    cases records with
    | pruned nothing pruned => exact forward.verified (pruned.get? present)
    | taken takes verifies pruned room =>
      rw [OrderedDict.get?_set] at present
      split at present
      · cases present
        exact ⟨verifies, by assumption⟩
      · exact forward.verified (pruned.get? present)
  constructor
  · intro old rec member present fresh
    rcases List.mem_append.mp member with before | there
    · have wasFresh := PeerRecord.isFresh_of_le later fresh
      change (op.apply C w.node now).records.get? _ = _ at present
      generalize (op.apply C w.node now).records = after at records present
      cases records with
      | pruned nothing pruned => exact forward.newest before (pruned.get? present) wasFresh
      | taken takes verifies pruned room =>
        rw [OrderedDict.get?_set] at present
        split at present
        · rename_i same
          cases present
          exact (guarded _ takes).1 old before same.symm fresh
        · exact forward.newest before (pruned.get? present) wasFresh
    · -- what is stored now is the only record of its publisher
      obtain ⟨id, stored⟩ := (OrderedDict.mem_values_iff _).mp there
      have own := (verified stored).2
      rw [← own] at stored
      cases stored.symm.trans present
      exact UInt64.le_refl _
  · exact verified
  · show (op.apply C w.node now).records.size ≤ maxStoredRecords
    generalize (op.apply C w.node now).records = after at records
    cases records with
    | pruned nothing pruned => exact pruned.size.trans forward.bounded
    | taken takes verifies pruned room =>
      refine size_set_le ?_ (pruned.size.trans forward.bounded) _
      rcases room with ⟨-, room⟩ | ⟨isSelf, rfl⟩
      · exact room
      · exact (guarded _ takes).2 isSelf

theorem incoming_stored {s : DhtNode} {now : UInt64} {op : Op} {rec : SignedRecord}
    (takes : op.incoming C s now = some rec) :
    (op.apply C s now).records.get? (rec.nodeId C) = some rec := by
  have records := @step_records C s now op
  rw [takes] at records
  generalize (op.apply C s now).records = after at records
  cases records with
  | pruned nothing pruned => cases nothing
  | taken takes verifies pruned room =>
    cases takes
    rw [OrderedDict.get?_set, if_pos rfl]

/-- An operation that is not guarded takes the store backwards, or over its bound. -/
theorem unguarded_breaks {w : Watched} {event : UInt64 × Op} (unguarded : ¬ Guarded C w event) :
    ¬ Forward C (w.step C event) := by
  obtain ⟨now, op⟩ := event
  intro forward
  refine unguarded fun rec takes => ⟨?_, ?_⟩
  · intro old member same fresh
    refine forward.newest (List.mem_append_left _ member) ?_ fresh
    rw [same]
    exact incoming_stored takes
  · intro isSelf
    refine room_iff.mpr fun ⟨full, absent⟩ => ?_
    have bounded : (op.apply C w.node now).records.size ≤ maxStoredRecords := forward.bounded
    have records := @step_records C w.node now op
    rw [takes] at records
    generalize (op.apply C w.node now).records = after at records bounded
    cases records with
    | pruned nothing pruned => cases nothing
    | taken takes verifies pruned room =>
      cases takes
      rcases room with ⟨notSelf, -⟩ | ⟨-, rfl⟩
      · exact notSelf isSelf
      · rw [OrderedDict.size_set_of_not_mem _ absent] at bounded
        omega

/-- **The record store.**  In a run with a clock that does not go back, the store never
goes backwards, holds verified records under their own ids and stays within its bound,
exactly if every operation is guarded. -/
theorem record_store_forward_iff (C : RecordCrypto) (ownId : NodeId) (k : Nat)
    (seeds : List NodeId) (now : UInt64) (events : List (UInt64 × Op))
    (clock : EachStep (Watched.step C) (fun w event => w.clock ≤ event.1)
      (.start ownId k seeds now) events) :
    (∀ early late, events = early ++ late →
      Forward C (run (Watched.step C) (.start ownId k seeds now) early)) ↔
    EachStep (Watched.step C) (Guarded C) (.start ownId k seeds now) events := by
  constructor
  · intro holds
    refine eachStep_iff_split.2 fun early event late split => ?_
    by_contra unguarded
    have after := holds (early ++ [event]) late
      (by rw [split, List.append_assoc, List.singleton_append])
    rw [run_append, run_cons, run_nil] at after
    exact unguarded_breaks unguarded after
  · rintro guarded early late rfl
    have both := eachStep_and.mpr
      ⟨(eachStep_append.1 clock).1, (eachStep_append.1 guarded).1⟩
    exact run_invariant (fun w event forward step => forward.step step.1 step.2)
      (forward_start ownId k seeds now) both

/-! ## An older record -/

/-- Keys name their nodes, and every signature passes. -/
def openCrypto : RecordCrypto where
  fromPubkey key := if sized : key.length = 32 then ⟨key, sized⟩ else zeroId
  keyAccepted _ := true
  signatureValid _ _ _ := true

/-- A record of one publisher, for a day. -/
def recordOf (publishTimeUnix : UInt64) : SignedRecord where
  record := ⟨List.replicate 32 7, [], publishTimeUnix, 86400⟩
  signature := []

def ownNode : NodeId := zeroId

theorem first_record_forward :
    Forward openCrypto (run (Watched.step openCrypto) (.start ownNode 20 [] 2000)
      [(2000, .request (.store (recordOf 2000)))]) :=
  (record_store_forward_iff openCrypto ownNode 20 [] 2000
    [(2000, .request (.store (recordOf 2000)))] (by decide)).mpr
    ⟨fun rec _ => ⟨fun old member => (List.not_mem_nil member).elim, fun isSelf => by cases isSelf⟩,
      trivial⟩ [_] [] rfl

/-- The record of a publisher is stored again in its state of before. -/
def replay : List (UInt64 × Op) :=
  [(1000, .request (.store (recordOf 1000))), (2000, .request (.store (recordOf 2000))),
    (2000, .request (.store (recordOf 1000)))]

theorem older_record_stored :
    ¬ ∀ early late, replay = early ++ late →
      Forward openCrypto (run (Watched.step openCrypto) (.start ownNode 20 [] 0) early) := by
  intro holds
  have forward := holds replay [] rfl
  have backwards : recordOf 2000 ∈
      (run (Watched.step openCrypto) (.start ownNode 20 [] 0) replay).stored ∧
      (run (Watched.step openCrypto) (.start ownNode 20 [] 0) replay).node.records.get?
        ((recordOf 2000).nodeId openCrypto) = some (recordOf 1000) ∧
      (recordOf 2000).record.isFresh
        (run (Watched.step openCrypto) (.start ownNode 20 [] 0) replay).clock = true := by
    decide +kernel
  have := forward.newest backwards.1 backwards.2.1 backwards.2.2
  exact absurd this (by decide)

end OneLink.Discovery
