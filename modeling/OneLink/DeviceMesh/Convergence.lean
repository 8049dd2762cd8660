/-
# DeviceMesh.Convergence — the order of delivery does not matter

A run of operations, each a delta for a named subtree from an emitter.  Whether an operation
applies depends on the kinds of the subtrees alone, which no operation changes; so a run of
applicable operations never fails, and it equals the run of the total steps `applied`, which
commute (`DeviceMesh.State`).  Writes and tags are absorbed by a state that has them already,
counter deltas are not (`Delta.Absorbed`).
-/
import OneLink.DeviceMesh.State

namespace OneLink.DeviceMesh

open Library

set_option autoImplicit false

structure MeshOp where
  label : Bytes
  delta : Delta
  emitter : DeviceId
  deriving DecidableEq

/-! ## What applies -/

namespace Delta

/-- The kind of subtree a delta is for. -/
def kind : Delta → SubtreePolicyKind
  | lwwSet .. => .lwwRegister
  | orAdd .. | orRemove .. => .orSet
  | counter .. => .pnCounter
  | mapPut .. | mapDelete .. => .lwwMap

/-- Every delta but a counter's may be delivered again. -/
def Absorbed : Delta → Prop
  | counter .. => False
  | _ => True

end Delta

namespace Subtree

theorem apply_eq_ok {subtree : Subtree} {delta : Delta} (same : subtree.kind = delta.kind)
    (emitter : DeviceId) : subtree.apply emitter delta = .ok (subtree.applied emitter delta) := by
  cases subtree <;> cases delta <;> first | rfl | cases same

theorem apply_eq_error {subtree : Subtree} {delta : Delta} (other : subtree.kind ≠ delta.kind)
    (emitter : DeviceId) : subtree.apply emitter delta = .error .deltaKindMismatch := by
  cases subtree <;> cases delta <;> first | rfl | exact absurd rfl other

@[simp] theorem kind_applied (subtree : Subtree) (emitter : DeviceId) (delta : Delta) :
    (subtree.applied emitter delta).kind = subtree.kind := by
  cases subtree <;> cases delta <;> rfl

end Subtree

/-- `apply_delta` accepts the operation. -/
def MeshOp.Applicable (state : MeshState) (op : MeshOp) : Prop :=
  ∃ after, state.applyDelta op.label op.delta op.emitter = .ok after

theorem MeshOp.applicable_iff {state : MeshState} {op : MeshOp} :
    op.Applicable state ↔ (state.get? op.label).map Subtree.kind = some op.delta.kind := by
  unfold Applicable MeshState.applyDelta
  cases found : state.get? op.label with
  | none => simp
  | some subtree =>
    by_cases same : subtree.kind = op.delta.kind
    · simp [same, Subtree.apply_eq_ok same]
    · simp [same, Subtree.apply_eq_error same]

namespace MeshState

/-- The state after an operation, which it may refuse. -/
def step (state : MeshState) (op : MeshOp) : MeshState :=
  applied state op.label op.delta op.emitter

/-- One `apply_delta` after the other, until one is refused. -/
def applyAll (state : MeshState) (ops : List MeshOp) : Except MeshError MeshState :=
  ops.foldlM (fun state op => state.applyDelta op.label op.delta op.emitter) state

theorem kind_step (state : MeshState) (op : MeshOp) (label : Bytes) :
    ((step state op).get? label).map Subtree.kind = (state.get? label).map Subtree.kind := by
  rw [step, get?_applied]
  split
  · cases state.get? label <;> simp
  · rfl

theorem applicable_step {state : MeshState} {op other : MeshOp} :
    other.Applicable (step state op) ↔ other.Applicable state := by
  rw [MeshOp.applicable_iff, MeshOp.applicable_iff, kind_step]

theorem applyDelta_eq_step {state : MeshState} {op : MeshOp} (applicable : op.Applicable state) :
    state.applyDelta op.label op.delta op.emitter = .ok (step state op) := by
  obtain ⟨after, result⟩ := applicable
  rw [step, applied, result]

/-- Applicable operations are all accepted, whatever their order. -/
theorem applyAll_eq_foldl {ops : List MeshOp} {state : MeshState}
    (applicable : ∀ op ∈ ops, op.Applicable state) :
    applyAll state ops = .ok (ops.foldl step state) := by
  induction ops generalizing state with
  | nil => rfl
  | cons op rest ih =>
    have first := applyDelta_eq_step (applicable op List.mem_cons_self)
    have remaining : ∀ other ∈ rest, other.Applicable (step state op) := by
      intro other member
      exact applicable_step.mpr (applicable other (List.mem_cons_of_mem _ member))
    show (state.applyDelta op.label op.delta op.emitter >>= fun after => applyAll after rest) = _
    rw [first]
    exact ih remaining

theorem step_right_comm (state : MeshState) (op op' : MeshOp) :
    step (step state op) op' = step (step state op') op :=
  applied_right_comm state op.label op'.label op.delta op'.delta op.emitter op'.emitter

theorem foldl_step_perm {ops ops' : List MeshOp} (order : ops.Perm ops') (state : MeshState) :
    ops.foldl step state = ops'.foldl step state :=
  order.foldl_eq' (fun op _ op' _ state => step_right_comm state op op') state

end MeshState

/-! ## Deliveries that are repeated -/

theorem LwwRegister.write_write (r : LwwRegister) (value : Option Bytes) (ts : Nat)
    (writer : DeviceId) :
    (r.write value ts writer).write value ts writer = r.write value ts writer := by
  apply stamp_injective
  simp only [stamp_write, max_assoc, max_self]

theorem Tagged.insert_insert (m : Tagged) (element : Bytes) (tag : OrSetTag) :
    Tagged.insert (Tagged.insert m element tag) element tag = Tagged.insert m element tag := by
  unfold Tagged.insert
  rw [SortedMap.alter_alter]
  apply SortedMap.alter_congr
  show SortedMap.alter (SortedMap.alter _ tag _) tag _ = _
  rw [SortedMap.alter_alter]

theorem LwwMap.write_write (m : LwwMap) (key : Bytes) (value : Option Bytes) (ts : Nat)
    (writer : DeviceId) :
    (m.write key value ts writer).write key value ts writer = m.write key value ts writer := by
  unfold LwwMap.write
  rw [SortedMap.alter_alter]
  congr 1
  apply SortedMap.alter_congr
  exact LwwRegister.write_write _ value ts writer

theorem Subtree.applied_applied (subtree : Subtree) (emitter : DeviceId) {delta : Delta}
    (absorbed : delta.Absorbed) :
    (subtree.applied emitter delta).applied emitter delta = subtree.applied emitter delta := by
  cases subtree with
  | lwwRegister r =>
    cases delta <;> first
      | rfl
      | exact congrArg Subtree.lwwRegister (LwwRegister.write_write ..)
  | orSet s =>
    cases delta <;> first
      | rfl
      | exact congrArg (fun adds => Subtree.orSet ⟨adds, _⟩) (Tagged.insert_insert ..)
      | exact congrArg (fun removes => Subtree.orSet ⟨_, removes⟩) (Tagged.insert_insert ..)
  | pnCounter c => cases delta <;> first | rfl | exact absorbed.elim
  | lwwMap m =>
    cases delta <;> first
      | rfl
      | exact congrArg Subtree.lwwMap (LwwMap.write_write ..)

namespace MeshState

theorem step_step (state : MeshState) {op : MeshOp} (absorbed : op.delta.Absorbed) :
    step (step state op) op = step state op := by
  apply SortedMap.ext_get?
  intro label
  unfold step
  rw [get?_applied, get?_applied]
  split
  · cases state.get? label with
    | none => rfl
    | some subtree => exact congrArg some (subtree.applied_applied op.emitter absorbed)
  · rfl

/-- A state that an operation went into absorbs it, whatever came after. -/
theorem foldl_step_absorbs {ops : List MeshOp} {op : MeshOp} (absorbed : op.delta.Absorbed)
    (member : op ∈ ops) (state : MeshState) :
    step (ops.foldl step state) op = ops.foldl step state := by
  -- bring `op` to the end of the run
  have order : ops.Perm (ops.erase op ++ [op]) :=
    (List.perm_cons_erase member).trans (List.perm_append_singleton op _).symm
  rw [foldl_step_perm order state, List.foldl_append]
  exact step_step _ absorbed

theorem foldl_step_repeats {ops repeats : List MeshOp}
    (again : ∀ op ∈ repeats, op ∈ ops ∧ op.delta.Absorbed) (state : MeshState) :
    (ops ++ repeats).foldl step state = ops.foldl step state := by
  rw [List.foldl_append]
  induction repeats with
  | nil => rfl
  | cons op rest ih =>
    obtain ⟨member, absorbed⟩ := again op List.mem_cons_self
    rw [List.foldl_cons, foldl_step_absorbs absorbed member]
    exact ih fun other later => again other (List.mem_cons_of_mem _ later)

/-- **The mesh state does not depend on the order of delivery.**  Any two orders of operations
that apply give the same state and root, also when every operation but the counters' is
delivered again, any number of times. -/
theorem applyAll_perm_repeats {state : MeshState} {ops ops' repeats : List MeshOp}
    (applicable : ∀ op ∈ ops, op.Applicable state)
    (again : ∀ op ∈ repeats, op ∈ ops ∧ op.delta.Absorbed)
    (order : ops'.Perm (ops ++ repeats)) :
    ∃ final final', applyAll state ops = .ok final ∧ applyAll state ops' = .ok final' ∧
      final' = final ∧ ∀ hash, final'.root hash = final.root hash := by
  have applicable' : ∀ op ∈ ops', op.Applicable state := by
    intro op member
    rcases List.mem_append.mp (order.mem_iff.mp member) with once | repeated
    · exact applicable op once
    · exact applicable op (again op repeated).1
  have same : ops'.foldl step state = ops.foldl step state := by
    rw [foldl_step_perm order state, foldl_step_repeats again state]
  exact ⟨_, _, applyAll_eq_foldl applicable, applyAll_eq_foldl applicable', same,
    fun hash => by rw [same]⟩

namespace Sample

def device : DeviceId := filled 16 1

/-- One register, named `a`. -/
def state : MeshState := SortedMap.empty.alter (ascii "a") fun _ => .lwwRegister .empty

def write (value : UInt8) : MeshOp := ⟨ascii "a", .lwwSet [value] 1, device⟩

theorem applicable (value : UInt8) : (write value).Applicable state :=
  MeshOp.applicable_iff.mpr rfl

end Sample

/-- Two writes at one time, in both orders, one of them delivered again. -/
theorem applyAll_perm_repeats_two :
    ∃ final final', applyAll Sample.state [Sample.write 1, Sample.write 2] = .ok final ∧
      applyAll Sample.state [Sample.write 2, Sample.write 1, Sample.write 2] = .ok final' ∧
      final' = final ∧ ∀ hash, final'.root hash = final.root hash := by
  apply @applyAll_perm_repeats Sample.state [Sample.write 1, Sample.write 2]
    [Sample.write 2, Sample.write 1, Sample.write 2] [Sample.write 2]
  · intro op member
    simp only [List.mem_cons, List.not_mem_nil, or_false] at member
    rcases member with rfl | rfl
    · exact Sample.applicable 1
    · exact Sample.applicable 2
  · intro op member
    obtain rfl := List.mem_singleton.mp member
    exact ⟨by simp, trivial⟩
  · exact List.Perm.swap ..

end MeshState

end OneLink.DeviceMesh
