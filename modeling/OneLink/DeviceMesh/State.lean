/-
# DeviceMesh.State — the replicated state of a device mesh

Named subtrees, each a lattice: a last-writer-wins register, an observed-remove set, a
counter per device, a map of registers.  Applying two deltas to a state commutes
(`applied_right_comm`): a register keeps the greatest stamp, the sets only grow, and the
counters add up.

`u64` timestamps are natural numbers; the counters saturate at `u128::MAX`.
-/
import OneLink.Library.ByteOrder
import OneLink.Library.Checked
import OneLink.Library.Framing
import OneLink.Library.SortedMap

namespace OneLink.DeviceMesh

open Library

set_option autoImplicit false

/-- `[u8; 16]` -/
abbrev DeviceId := {id : Bytes // id.length = 16}

scoped instance lawfulDeviceId : LawfulBEq DeviceId := inferInstance

abbrev OrSetTag := {tag : Bytes // tag.length = 16}

inductive MeshError where
  | badLength (expected got : Nat)
  | attestationVerifyFail
  | invalidPubkey
  | policyVerifyFail
  | policyEmptyRoster
  | policyRosterTooLarge (got max : Nat)
  | policyDuplicateRoster
  | policyBadThreshold (k n : Nat)
  | policyLabelTooLong (got max : Nat)
  | proposalIssuerVerifyFail
  | proposalDeadlineNotAfterIssue (issued deadline : UInt64)
  | issuerNotEligible (deviceId : DeviceId)
  | approverNotEligible (deviceId : DeviceId)
  | approvalVerifyFail
  | approvalForOtherProposal
  | approvalPastDeadline (approved deadline : UInt64)
  | duplicateApprover (deviceId : DeviceId)
  | certTooManyApprovals (got max : Nat)
  | certProposalPolicyMismatch
  | certProposalExpired (deadline now : UInt64)
  | certBelowThreshold (got needed : Nat)
  | attestationMissing (deviceId : DeviceId) (dayIndex : UInt64)
  | authOpVerifyFail
  | deltaKindMismatch
  | deltaValueTooLong (got max : Nat)
  | subtreeLabelTooLong (got max : Nat)
  | subtreeKindCollision
  | subtreeMissing
  | opSeqNotMonotonic (deviceId : DeviceId) (got lastSeen : Nat)
  /-- An error of the caller's key lookup. -/
  | lookup (message : String)
  deriving DecidableEq

inductive Delta where
  | lwwSet (value : Bytes) (ts : Nat)
  | orAdd (element : Bytes) (tag : OrSetTag)
  | orRemove (element : Bytes) (tag : OrSetTag)
  | counter (deviceId : DeviceId) (delta : Int64)
  | mapPut (key value : Bytes) (ts : Nat)
  | mapDelete (key : Bytes) (ts : Nat)
  deriving DecidableEq

/-! ## `LwwRegister` -/

@[ext]
structure LwwRegister where
  value : Option Bytes
  ts : Nat
  lastWriter : DeviceId
  deriving DecidableEq

namespace LwwRegister

def empty : LwwRegister := ⟨none, 0, filled 16 0⟩

/-- A missing value, which is a deletion, is the greatest. -/
def isDominatedBy (r : LwwRegister) (ts : Nat) (writer : DeviceId) (value : Option Bytes) : Bool :=
  if ts > r.ts then true
  else if ts < r.ts then false
  else if writer > r.lastWriter then true
  else if writer < r.lastWriter then false
  else
    match value, r.value with
    | none, some _ => true
    | none, none | some _, none => false
    | some new, some old => new > old

/-- Overwrite with `(value, ts, writer)` if that dominates. -/
def write (r : LwwRegister) (value : Option Bytes) (ts : Nat) (writer : DeviceId) : LwwRegister :=
  if r.isDominatedBy ts writer value then ⟨value, ts, writer⟩ else r

def set (r : LwwRegister) (value : Bytes) (ts : Nat) (writer : DeviceId) : LwwRegister :=
  r.write (some value) ts writer

end LwwRegister

/-! ## `OrSet`, `PnCounter`, `LwwMap` -/

/-- A `BTreeSet` of tags for each element. -/
abbrev Tagged := SortedMap Bytes (SortedMap OrSetTag Unit)

def Tagged.insert (m : Tagged) (element : Bytes) (tag : OrSetTag) : Tagged :=
  m.alter element fun old => (old.getD .empty).alter tag fun _ => ()

structure OrSet where
  adds : Tagged
  removes : Tagged

namespace OrSet

def empty : OrSet := ⟨.empty, .empty⟩

def add (s : OrSet) (element : Bytes) (tag : OrSetTag) : OrSet :=
  { s with adds := s.adds.insert element tag }

def remove (s : OrSet) (element : Bytes) (tag : OrSetTag) : OrSet :=
  { s with removes := s.removes.insert element tag }

end OrSet

structure PnCounter where
  pos : SortedMap DeviceId Nat
  neg : SortedMap DeviceId Nat

/-- `u128::saturating_add` -/
def saturatingAdd (a b : Nat) : Nat := min (a + b) (2 ^ 128 - 1)

namespace PnCounter

def empty : PnCounter := ⟨.empty, .empty⟩

/-- `x as u128` -/
def asU128 (x : Int64) : Nat := (x.toInt % 2 ^ 128).toNat

def accumulate (m : SortedMap DeviceId Nat) (deviceId : DeviceId) (amount : Nat) :
    SortedMap DeviceId Nat :=
  m.alter deviceId fun old => saturatingAdd (old.getD 0) amount

/-- The negation of the least `i64` wraps. -/
def adjust (c : PnCounter) (deviceId : DeviceId) (delta : Int64) : PnCounter :=
  if delta = 0 then c
  else if delta > 0 then { c with pos := accumulate c.pos deviceId (asU128 delta) }
  else { c with neg := accumulate c.neg deviceId (asU128 (-delta)) }

end PnCounter

structure LwwMap where
  entries : SortedMap Bytes LwwRegister

namespace LwwMap

def empty : LwwMap := ⟨.empty⟩

def write (m : LwwMap) (key : Bytes) (value : Option Bytes) (ts : Nat) (writer : DeviceId) : LwwMap :=
  ⟨m.entries.alter key fun old => (old.getD .empty).write value ts writer⟩

def put (m : LwwMap) (key value : Bytes) (ts : Nat) (writer : DeviceId) : LwwMap :=
  m.write key (some value) ts writer

def delete (m : LwwMap) (key : Bytes) (ts : Nat) (writer : DeviceId) : LwwMap :=
  m.write key none ts writer

end LwwMap

/-! ## `Subtree` and `MeshState` -/

inductive SubtreePolicyKind where
  | lwwRegister
  | orSet
  | pnCounter
  | lwwMap
  deriving DecidableEq, Repr

inductive Subtree where
  | lwwRegister (r : LwwRegister)
  | orSet (s : OrSet)
  | pnCounter (c : PnCounter)
  | lwwMap (m : LwwMap)

namespace Subtree

def emptyOfKind : SubtreePolicyKind → Subtree
  | .lwwRegister => lwwRegister .empty
  | .orSet => orSet .empty
  | .pnCounter => pnCounter .empty
  | .lwwMap => lwwMap .empty

def kind : Subtree → SubtreePolicyKind
  | lwwRegister _ => .lwwRegister
  | orSet _ => .orSet
  | pnCounter _ => .pnCounter
  | lwwMap _ => .lwwMap

def apply (emitter : DeviceId) : Subtree → Delta → Except MeshError Subtree
  | lwwRegister r, .lwwSet value ts => .ok (lwwRegister (r.set value ts emitter))
  | orSet s, .orAdd element tag => .ok (orSet (s.add element tag))
  | orSet s, .orRemove element tag => .ok (orSet (s.remove element tag))
  | pnCounter c, .counter deviceId delta => .ok (pnCounter (c.adjust deviceId delta))
  | lwwMap m, .mapPut key value ts => .ok (lwwMap (m.put key value ts emitter))
  | lwwMap m, .mapDelete key ts => .ok (lwwMap (m.delete key ts emitter))
  | _, _ => .error .deltaKindMismatch

end Subtree

def maxSubtreeLabelLen : Nat := 64

abbrev MeshState := SortedMap Bytes Subtree

namespace MeshState

def ensureSubtree (state : MeshState) (label : Bytes) (kind : SubtreePolicyKind) :
    Except MeshError MeshState := do
  require (label.length ≤ maxSubtreeLabelLen)
    (.subtreeLabelTooLong label.length maxSubtreeLabelLen)
  match state.get? label with
  | none => return state.alter label fun _ => Subtree.emptyOfKind kind
  | some existing => if existing.kind = kind then return state else throw .subtreeKindCollision

def applyDelta (state : MeshState) (label : Bytes) (delta : Delta) (emitter : DeviceId) :
    Except MeshError MeshState :=
  match state.get? label with
  | none => .error .subtreeMissing
  | some subtree =>
    match subtree.apply emitter delta with
    | .error e => .error e
    | .ok subtree => .ok (state.alter label fun _ => subtree)

end MeshState

/-! ## Roots -/

/-- A length as `u32`, saturating. -/
def lenBytes (n : Nat) : Bytes := beBytes 4 (min n (2 ^ 32 - 1))

/-- A length and as many bytes. -/
def lenPrefixed (b : Bytes) : Bytes := lenBytes b.length ++ b.take (min b.length (2 ^ 32 - 1))

def LwwRegister.canonical (r : LwwRegister) : Bytes :=
  beBytes 8 r.ts ++ r.lastWriter.1 ++
    match r.value with
    | none => [0]
    | some v => 1 :: lenPrefixed v

def Tagged.canonical (m : Tagged) : Bytes :=
  lenBytes m.items.length ++ m.items.flatMap fun (element, tags) =>
    lenPrefixed element ++ lenBytes tags.items.length ++ tags.items.flatMap fun (tag, _) => tag.1

def PnCounter.canonicalSide (m : SortedMap DeviceId Nat) : Bytes :=
  lenBytes m.items.length ++ m.items.flatMap fun (id, amount) => id.1 ++ beBytes 16 amount

def LwwMap.canonical (m : LwwMap) : Bytes :=
  lenBytes m.entries.items.length ++ m.entries.items.flatMap fun (key, r) =>
    lenPrefixed key ++ r.canonical

def Subtree.canonical : Subtree → Bytes
  | lwwRegister r => ascii "OL-mesh-subtree-lww-register-v1" ++ r.canonical
  | orSet s => ascii "OL-mesh-subtree-or-set-v1" ++ s.adds.canonical ++ s.removes.canonical
  | pnCounter c =>
    ascii "OL-mesh-subtree-pn-counter-v1" ++ PnCounter.canonicalSide c.pos ++
      PnCounter.canonicalSide c.neg
  | lwwMap m => ascii "OL-mesh-subtree-lww-map-v1" ++ m.canonical

/-- `MeshState::root`, with BLAKE3 as `hash`. -/
def MeshState.root (hash : Bytes → Bytes) (state : MeshState) : Bytes :=
  hash (ascii "OL-mesh-state-root-v1" ++ lenBytes state.items.length ++
    state.items.flatMap fun (label, subtree) => lenPrefixed label ++ hash subtree.canonical)

/-! ## Deltas commute -/

namespace LwwRegister

/-- A deletion ranks above every value. -/
def rank : Option Bytes → WithTop Bytes
  | none => ⊤
  | some v => v

theorem rank_injective : Function.Injective rank := by
  intro a b same
  cases a <;> cases b <;> simp_all [rank]

/-- What a write maximises. -/
def stamp (r : LwwRegister) : Nat ×ₗ DeviceId ×ₗ WithTop Bytes :=
  toLex (r.ts, toLex (r.lastWriter, rank r.value))

theorem stamp_injective {r r' : LwwRegister} (same : r.stamp = r'.stamp) : r = r' := by
  have parts := Prod.mk.inj (toLex.injective same)
  have inner := Prod.mk.inj (toLex.injective parts.2)
  exact LwwRegister.ext (rank_injective inner.2) parts.1 inner.1

theorem isDominatedBy_iff (r : LwwRegister) (value : Option Bytes) (ts : Nat) (writer : DeviceId) :
    r.isDominatedBy ts writer value = true ↔ r.stamp < stamp ⟨value, ts, writer⟩ := by
  rw [stamp, stamp, Prod.Lex.toLex_lt_toLex, Prod.Lex.toLex_lt_toLex]
  unfold isDominatedBy
  rcases lt_trichotomy r.ts ts with later | same | earlier
  · simp [later]
  · rcases lt_trichotomy r.lastWriter writer with greater | equal | less
    · simp [same, greater]
    · cases value with
      | none => cases old : r.value <;> simp [same, equal, rank]
      | some new => cases old : r.value <;> simp [same, equal, rank]
    · simp [same, less, less.not_gt, less.ne']
  · simp [earlier, earlier.not_gt, earlier.ne']

theorem stamp_write (r : LwwRegister) (value : Option Bytes) (ts : Nat) (writer : DeviceId) :
    (r.write value ts writer).stamp = max r.stamp (stamp ⟨value, ts, writer⟩) := by
  rw [write]
  split
  · next dominated => exact (max_eq_right ((isDominatedBy_iff ..).mp dominated).le).symm
  · next stays => exact (max_eq_left (not_lt.mp ((isDominatedBy_iff ..).not.mp stays))).symm

theorem write_right_comm (r : LwwRegister) (value value' : Option Bytes) (ts ts' : Nat)
    (writer writer' : DeviceId) :
    (r.write value ts writer).write value' ts' writer' =
      (r.write value' ts' writer').write value ts writer := by
  apply stamp_injective
  simp only [stamp_write, max_right_comm]

end LwwRegister

theorem Tagged.insert_right_comm (m : Tagged) (element element' : Bytes) (tag tag' : OrSetTag) :
    Tagged.insert (Tagged.insert m element tag) element' tag' =
      Tagged.insert (Tagged.insert m element' tag') element tag :=
  SortedMap.alter_right_comm
    (fun _ _ => SortedMap.alter_right_comm (fun _ _ => rfl) _) m

theorem saturatingAdd_right_comm (n a b : Nat) :
    saturatingAdd (saturatingAdd n a) b = saturatingAdd (saturatingAdd n b) a := by
  unfold saturatingAdd
  omega

namespace PnCounter

theorem accumulate_right_comm (m : SortedMap DeviceId Nat) (id id' : DeviceId) (a b : Nat) :
    accumulate (accumulate m id a) id' b = accumulate (accumulate m id' b) id a :=
  SortedMap.alter_right_comm (fun _ _ => saturatingAdd_right_comm _ _ _) m

theorem adjust_right_comm (c : PnCounter) (id id' : DeviceId) (a b : Int64) :
    (c.adjust id a).adjust id' b = (c.adjust id' b).adjust id a := by
  unfold adjust
  split_ifs <;> simp only [accumulate_right_comm _ id id']

end PnCounter

theorem LwwMap.write_right_comm (m : LwwMap) (key key' : Bytes) (value value' : Option Bytes)
    (ts ts' : Nat) (writer writer' : DeviceId) :
    (m.write key value ts writer).write key' value' ts' writer' =
      (m.write key' value' ts' writer').write key value ts writer :=
  congrArg LwwMap.mk (SortedMap.alter_right_comm
    (fun _ _ => LwwRegister.write_right_comm _ _ _ _ _ _ _) m.entries)

/-- A subtree after a delta, which it may refuse. -/
def Subtree.applied (emitter : DeviceId) (subtree : Subtree) (delta : Delta) : Subtree :=
  match subtree.apply emitter delta with
  | .ok subtree => subtree
  | .error _ => subtree

theorem Subtree.applied_right_comm (subtree : Subtree) (e e' : DeviceId) (d d' : Delta) :
    (subtree.applied e d).applied e' d' = (subtree.applied e' d').applied e d := by
  cases subtree with
  | lwwRegister r =>
    cases d <;> cases d' <;> first
      | rfl
      | exact congrArg Subtree.lwwRegister (LwwRegister.write_right_comm ..)
  | orSet s =>
    cases d <;> cases d' <;> first
      | rfl
      | exact congrArg (fun adds => Subtree.orSet ⟨adds, _⟩) (Tagged.insert_right_comm ..)
      | exact congrArg (fun removes => Subtree.orSet ⟨_, removes⟩) (Tagged.insert_right_comm ..)
  | pnCounter c =>
    cases d <;> cases d' <;> first
      | rfl
      | exact congrArg Subtree.pnCounter (PnCounter.adjust_right_comm ..)
  | lwwMap m =>
    cases d <;> cases d' <;> first
      | rfl
      | exact congrArg Subtree.lwwMap (LwwMap.write_right_comm ..)

namespace MeshState

/-- A state after a delta, which it may refuse. -/
def applied (state : MeshState) (label : Bytes) (delta : Delta) (emitter : DeviceId) : MeshState :=
  match applyDelta state label delta emitter with
  | .ok state => state
  | .error _ => state

theorem get?_applied (state : MeshState) (label : Bytes) (delta : Delta) (emitter : DeviceId)
    (k : Bytes) :
    (applied state label delta emitter).get? k =
      if label = k then (state.get? k).map (·.applied emitter delta) else state.get? k := by
  unfold applied applyDelta
  cases found : state.get? label with
  | none =>
    by_cases here : label = k
    · simp [← here, found]
    · simp [here]
  | some subtree =>
    simp only [Subtree.applied]
    cases result : subtree.apply emitter delta with
    | error e =>
      by_cases here : label = k
      · simp [← here, found, result]
      · simp [here]
    | ok after =>
      by_cases here : label = k
      · simp [← here, found, result]
      · simp [here, SortedMap.get?_alter]

theorem applied_right_comm (state : MeshState) (l l' : Bytes) (d d' : Delta) (e e' : DeviceId) :
    applied (applied state l d e) l' d' e' = applied (applied state l' d' e') l d e := by
  apply SortedMap.ext_get?
  intro k
  rw [get?_applied, get?_applied, get?_applied, get?_applied]
  by_cases here : l = k
  · by_cases there : l' = k
    · simp only [here, there, if_true, Option.map_map]
      congr 1
      funext subtree
      exact subtree.applied_right_comm e e' d d'
    · simp [here, there]
  · by_cases there : l' = k
    · simp [here, there]
    · simp [here, there]

end MeshState

end OneLink.DeviceMesh
