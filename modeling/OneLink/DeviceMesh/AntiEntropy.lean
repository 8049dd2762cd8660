/-
# DeviceMesh.AntiEntropy — when empty replies mean equal replicas

A replica that holds an operation without an earlier one of the same device reports the
later one's number, and no peer offers the gap again.  A delivery that leaves no gap
(`NoGap`) comes when the receiver holds everything its device emitted before; in a run of
such deliveries two replicas with nothing to offer each other hold the same operations and
have the same root.

Whatever a step does to a replica is that it takes one operation it has not seen
(`Mesh.step_cases`), so the invariant is shown for that once.
-/
import OneLink.DeviceMesh.Sync
import OneLink.Library.Run

namespace OneLink.DeviceMesh

open Library

set_option autoImplicit false

variable {VerifyingKey : Type} {verifySig : VerifyingKey → (message sig : Bytes) → Bool}

/-! ## Taking an operation -/

def MeshState.took (state : MeshState) (op : AuthenticatedOp) : MeshState :=
  MeshState.applied state op.subtree op.delta op.deviceId

/-- A replica after an operation that is new to it. -/
def Replica.took (r : Replica) (op : AuthenticatedOp) : Replica where
  sync :=
    { seen := r.sync.seen.alter op.key fun _ => ()
      lastSeenSeq := r.sync.lastSeenSeq.alter op.deviceId fun old => max (old.getD 0) op.seq
      opLog := r.sync.opLog ++ [op] }
  state := MeshState.took r.state op

theorem applyDelta_took {state after : MeshState} {op : AuthenticatedOp}
    (ok : MeshState.applyDelta state op.subtree op.delta op.deviceId = .ok after) :
    after = MeshState.took state op := by
  rw [MeshState.took, MeshState.applied, ok]

theorem emit_eq_ok {r r' : Replica} {op : AuthenticatedOp} (ok : r.emit op = .ok r') :
    r.sync.lastSeen op.deviceId < op.seq ∧ r' = r.took op := by
  simp only [Replica.emit, SyncState.recordLocalEmit, bind_eq_ok, require_eq_ok, exists_const,
    pure_eq_ok_iff] at ok
  obtain ⟨state, applied, sync, ⟨later, rfl⟩, rfl⟩ := ok
  refine ⟨later, ?_⟩
  have last : r.sync.lastSeenSeq.alter op.deviceId (fun _ => op.seq) =
      r.sync.lastSeenSeq.alter op.deviceId fun old => max (old.getD 0) op.seq :=
    SortedMap.alter_congr (max_eq_right (Nat.le_of_lt later)).symm
  rw [Replica.took, applyDelta_took applied, last]

theorem ingest_eq_ok {r : Replica} {op : AuthenticatedOp} {isNew : Bool} {sync : SyncState}
    {state : MeshState} {vkLookup : DeviceId → Nat → Except MeshError VerifyingKey}
    (ok : r.sync.ingest verifySig op r.state vkLookup = .ok (isNew, sync, state)) :
    (⟨sync, state⟩ : Replica) = r ∨
      (r.sync.seen.get? op.key = none ∧ (⟨sync, state⟩ : Replica) = r.took op) := by
  unfold SyncState.ingest at ok
  split at ok
  · cases ok
    exact .inl rfl
  · next unseen =>
    simp only [bind_eq_ok, pure_eq_ok_iff] at ok
    obtain ⟨vk, -, -, -, after, applied, rest⟩ := ok
    rw [Prod.mk.injEq, Prod.mk.injEq] at rest
    obtain ⟨-, rfl, rfl⟩ := rest
    refine .inr ⟨Option.not_isSome_iff_eq_none.mp unseen, ?_⟩
    have last : (fun old : Option Nat => if op.seq > old.getD 0 then op.seq else old.getD 0) =
        fun old => max (old.getD 0) op.seq := by
      funext old
      split <;> omega
    rw [Replica.took, applyDelta_took applied, last]

/-- A step does nothing, or one replica takes an operation it has not seen. -/
theorem Mesh.step_cases (m : Mesh) (a : Action VerifyingKey) :
    m.step verifySig a = m ∨
    (∃ op, a = .emit op ∧ (m.replicas op.deviceId).sync.lastSeen op.deviceId < op.seq ∧
      m.step verifySig a =
        { m.set op.deviceId ((m.replicas op.deviceId).took op) with sent := m.sent ++ [op] }) ∨
    (∃ receiver op vkLookup, a = .deliver receiver op vkLookup ∧ op ∈ m.sent ∧
      (m.replicas receiver).sync.seen.get? op.key = none ∧
      m.step verifySig a = m.set receiver ((m.replicas receiver).took op)) := by
  have unchanged (id : DeviceId) : m.set id (m.replicas id) = m := by
    cases m with
    | mk replicas sent =>
      simp only [Mesh.set, Mesh.mk.injEq, and_true]
      funext other
      split
      · next same => rw [same]
      · rfl
  cases a with
  | emit op =>
    simp only [Mesh.step]
    split
    · next replica ok =>
      obtain ⟨later, rfl⟩ := emit_eq_ok ok
      exact .inr (.inl ⟨op, rfl, later, rfl⟩)
    · exact .inl rfl
  | deliver receiver op vkLookup =>
    simp only [Mesh.step]
    split
    · next known =>
      split
      · next isNew sync state ok =>
        rcases ingest_eq_ok ok with same | ⟨unseen, took⟩
        · rw [same, unchanged]
          exact .inl rfl
        · rw [took]
          exact .inr (.inr ⟨receiver, op, vkLookup, rfl, known, unseen, rfl⟩)
      · exact .inl rfl
    · exact .inl rfl

/-! ## The invariant -/

/-- A replica's log against the operations emitted so far. -/
structure Replica.Sound (start : MeshState) (sent : List AuthenticatedOp) (r : Replica) : Prop where
  emitted : ∀ op ∈ r.sync.opLog, op ∈ sent
  nodup : r.sync.opLog.Nodup
  seen : ∀ key, (r.sync.seen.get? key).isSome ↔ ∃ op ∈ r.sync.opLog, op.key = key
  bound : ∀ op ∈ r.sync.opLog, op.seq ≤ r.sync.lastSeen op.deviceId
  reached : ∀ id, 0 < r.sync.lastSeen id →
    ∃ op ∈ r.sync.opLog, op.deviceId = id ∧ op.seq = r.sync.lastSeen id
  /-- Everything the device of a held operation emitted before it is held too. -/
  noGap : ∀ op ∈ r.sync.opLog, ∀ earlier ∈ sent, earlier.deviceId = op.deviceId →
    earlier.seq < op.seq → earlier ∈ r.sync.opLog
  state : r.state = r.sync.opLog.foldl MeshState.took start

structure Mesh.Inv (start : MeshState) (m : Mesh) : Prop where
  replicas : ∀ id, (m.replicas id).Sound start m.sent
  distinct : ∀ op ∈ m.sent, ∀ op' ∈ m.sent, op.key = op'.key → op = op'
  own : ∀ op ∈ m.sent, op ∈ (m.replicas op.deviceId).sync.opLog
  positive : ∀ op ∈ m.sent, 0 < op.seq

/-- A delivery finds the receiver with everything its device emitted before. -/
def NoGap (m : Mesh) : Action VerifyingKey → Prop
  | .emit _ => True
  | .deliver receiver op _ =>
    ∀ earlier ∈ m.sent, earlier.deviceId = op.deviceId → earlier.seq < op.seq →
      earlier ∈ (m.replicas receiver).sync.opLog

theorem lastSeen_took (r : Replica) (op : AuthenticatedOp) (id : DeviceId) :
    (r.took op).sync.lastSeen id =
      if op.deviceId = id then max (r.sync.lastSeen id) op.seq else r.sync.lastSeen id := by
  simp only [SyncState.lastSeen, Replica.took, SortedMap.get?_alter]
  split
  · next same => rw [same]; rfl
  · rfl

theorem inv_start (subtrees : MeshState) : (Mesh.start subtrees).Inv subtrees where
  replicas _ :=
    { emitted := nofun
      nodup := .nil
      seen := fun _ => ⟨nofun, nofun⟩
      bound := nofun
      reached := fun _ reached => absurd reached (Nat.lt_irrefl 0)
      noGap := nofun
      state := rfl }
  distinct := nofun
  own := nofun
  positive := nofun

/-- Taking a new operation with no gap before it. -/
theorem Replica.Sound.took {start : MeshState} {sent : List AuthenticatedOp} {r : Replica}
    {op : AuthenticatedOp} (sound : r.Sound start sent) (known : op ∈ sent) (isNew : op ∉ r.sync.opLog)
    (noGap : ∀ earlier ∈ sent, earlier.deviceId = op.deviceId → earlier.seq < op.seq →
      earlier ∈ r.sync.opLog) : (r.took op).Sound start sent where
  emitted := by
    intro other held
    rcases List.mem_append.mp held with old | new
    · exact sound.emitted other old
    · exact List.mem_singleton.mp new ▸ known
  nodup := List.nodup_append.mpr ⟨sound.nodup, List.pairwise_singleton _ op, fun a old b new => by
    rw [List.mem_singleton.mp new]
    exact fun same => isNew (same ▸ old)⟩
  seen := by
    intro key
    rw [show (r.took op).sync.seen = r.sync.seen.alter op.key fun _ => () from rfl,
      SortedMap.get?_alter]
    constructor
    · intro marked
      split at marked
      · next same => exact ⟨op, List.mem_append_right _ (List.mem_singleton.mpr rfl), same⟩
      · obtain ⟨other, held, same⟩ := (sound.seen key).mp marked
        exact ⟨other, List.mem_append_left _ held, same⟩
    · rintro ⟨other, held, rfl⟩
      split
      · rfl
      · next differs =>
        rcases List.mem_append.mp held with old | new
        · exact (sound.seen _).mpr ⟨other, old, rfl⟩
        · exact absurd (by rw [List.mem_singleton.mp new]) differs
  bound := by
    intro other held
    rw [lastSeen_took]
    rcases List.mem_append.mp held with old | new
    · have before := sound.bound other old
      split <;> omega
    · rw [List.mem_singleton.mp new, if_pos rfl]
      exact Nat.le_max_right _ _
  reached := by
    intro id some
    rw [lastSeen_took] at some ⊢
    split at some
    · next same =>
      rw [if_pos same]
      by_cases greatest : r.sync.lastSeen id ≤ op.seq
      · exact ⟨op, List.mem_append_right _ (List.mem_singleton.mpr rfl), same,
          (Nat.max_eq_right greatest).symm⟩
      · obtain ⟨other, held, device, seq⟩ := sound.reached id (by omega)
        exact ⟨other, List.mem_append_left _ held, device, by omega⟩
    · next other =>
      rw [if_neg other]
      obtain ⟨op', held, rest⟩ := sound.reached id some
      exact ⟨op', List.mem_append_left _ held, rest⟩
  noGap := by
    intro other held earlier emitted device before
    rcases List.mem_append.mp held with old | new
    · exact List.mem_append_left _ (sound.noGap other old earlier emitted device before)
    · rw [List.mem_singleton.mp new] at device before
      exact List.mem_append_left _ (noGap earlier emitted device before)
  state := by
    rw [show (r.took op).sync.opLog = r.sync.opLog ++ [op] from rfl, List.foldl_append, ← sound.state]
    rfl

/-- A new operation of some device, later than all of it so far. -/
theorem Replica.Sound.sent {start : MeshState} {sent : List AuthenticatedOp} {r : Replica}
    {op : AuthenticatedOp} (sound : r.Sound start sent)
    (latest : ∀ other ∈ sent, other.deviceId = op.deviceId → other.seq < op.seq) :
    r.Sound start (sent ++ [op]) :=
  { sound with
    emitted := fun other held => List.mem_append_left _ (sound.emitted other held)
    noGap := by
      intro other held earlier emitted device before
      rcases List.mem_append.mp emitted with old | new
      · exact sound.noGap other held earlier old device before
      · rw [List.mem_singleton.mp new] at device before
        have after := latest other (sound.emitted other held) device.symm
        omega }

theorem Mesh.Inv.step {start : MeshState} {m : Mesh} (inv : m.Inv start) (a : Action VerifyingKey)
    (guard : NoGap m a) : (m.step verifySig a).Inv start := by
  obtain same | ⟨op, rfl, later, same⟩ | ⟨receiver, op, vkLookup, rfl, known, unseen, same⟩ :=
    m.step_cases a
  · rw [same]
    exact inv
  · rw [same]
    have own := inv.replicas op.deviceId
    have latest : ∀ other ∈ m.sent, other.deviceId = op.deviceId → other.seq < op.seq := by
      intro other emitted device
      have bound := (inv.replicas other.deviceId).bound other (inv.own other emitted)
      rw [device] at bound
      omega
    have new : op ∈ m.sent ++ [op] := List.mem_append_right _ (List.mem_singleton.mpr rfl)
    have isNew : op ∉ (m.replicas op.deviceId).sync.opLog := by
      intro held
      have bound := own.bound op held
      omega
    constructor
    · intro id
      show Replica.Sound start (m.sent ++ [op]) (if id = op.deviceId then _ else _)
      split
      · refine (own.sent latest).took new isNew ?_
        intro earlier emitted device before
        rcases List.mem_append.mp emitted with old | last
        · exact device ▸ inv.own earlier old
        · rw [List.mem_singleton.mp last] at before
          omega
      · exact (inv.replicas id).sent latest
    · have fresh : ∀ other ∈ m.sent, other.key ≠ op.key := by
        intro other emitted keys
        have parts := Prod.mk.inj (toLex.injective keys)
        have before := latest other emitted parts.1
        omega
      intro first emitted second emitted' keys
      rcases List.mem_append.mp emitted with old | last
      · rcases List.mem_append.mp emitted' with old' | last'
        · exact inv.distinct first old second old' keys
        · rw [List.mem_singleton.mp last'] at keys
          exact absurd keys (fresh first old)
      · rw [List.mem_singleton.mp last] at keys ⊢
        rcases List.mem_append.mp emitted' with old' | last'
        · exact absurd keys.symm (fresh second old')
        · exact (List.mem_singleton.mp last').symm
    · intro other emitted
      show other ∈ (if other.deviceId = op.deviceId then _ else _ : Replica).sync.opLog
      rcases List.mem_append.mp emitted with old | last
      · split
        · next device => exact List.mem_append_left _ (device ▸ inv.own other old)
        · exact inv.own other old
      · rw [List.mem_singleton.mp last, if_pos rfl]
        exact List.mem_append_right _ (List.mem_singleton.mpr rfl)
    · intro other emitted
      rcases List.mem_append.mp emitted with old | last
      · exact inv.positive other old
      · rw [List.mem_singleton.mp last]
        omega
  · rw [same]
    have sound := inv.replicas receiver
    have isNew : op ∉ (m.replicas receiver).sync.opLog := by
      intro held
      have marked := (sound.seen op.key).mpr ⟨op, held, rfl⟩
      rw [unseen] at marked
      cases marked
    constructor
    · intro id
      show Replica.Sound start m.sent (if id = receiver then _ else _)
      split
      · exact sound.took known isNew guard
      · exact inv.replicas id
    · exact inv.distinct
    · intro other emitted
      show other ∈ (if other.deviceId = receiver then _ else _ : Replica).sync.opLog
      split
      · next here => exact List.mem_append_left _ (here ▸ inv.own other emitted)
      · exact inv.own other emitted
    · exact inv.positive

/-! ## Convergence -/

theorem diffForPeer_eq_nil {s : SyncState} {peer : SyncState}
    (none : s.diffForPeer peer.summary = []) :
    ∀ op ∈ s.opLog, op.seq ≤ peer.lastSeen op.deviceId := by
  intro op held
  by_contra more
  have missing : op ∈ s.opLog.filter fun op => op.seq > (peer.summary.get? op.deviceId).getD 0 :=
    List.mem_filter.mpr ⟨held, by simpa [SyncState.summary, SyncState.lastSeen] using more⟩
  rw [SyncState.diffForPeer, List.take_eq_nil_iff] at none
  rcases none with zero | empty
  · cases zero
  · rw [empty] at missing
    cases missing

theorem held_of_diff_nil {start : MeshState} {m : Mesh} (inv : m.Inv start) {a b : DeviceId}
    (none : (m.replicas a).sync.diffForPeer (m.replicas b).sync.summary = []) :
    ∀ op ∈ (m.replicas a).sync.opLog, op ∈ (m.replicas b).sync.opLog := by
  intro op held
  have emitted := (inv.replicas a).emitted op held
  have reached := diffForPeer_eq_nil none op held
  have positive := inv.positive op emitted
  obtain ⟨last, there, device, seq⟩ := (inv.replicas b).reached op.deviceId (by omega)
  by_cases latest : op.seq = last.seq
  · have same : op.key = last.key := by
      rw [AuthenticatedOp.key, AuthenticatedOp.key, latest, device]
    rw [inv.distinct op emitted last ((inv.replicas b).emitted last there) same]
    exact there
  · exact (inv.replicas b).noGap last there op emitted device.symm (by omega)

theorem state_eq_of_same_log {start : MeshState} {sent : List AuthenticatedOp} {r r' : Replica}
    (sound : r.Sound start sent) (sound' : r'.Sound start sent)
    (same : ∀ op, op ∈ r.sync.opLog ↔ op ∈ r'.sync.opLog) : r.state = r'.state := by
  have perm : r.sync.opLog.Perm r'.sync.opLog :=
    (List.perm_ext_iff_of_nodup sound.nodup sound'.nodup).mpr same
  rw [sound.state, sound'.state]
  exact perm.foldl_eq' (fun _ _ _ _ _ => MeshState.applied_right_comm ..) start

/-- Two replicas with nothing to offer each other agree. -/
def Converged (hash : Bytes → Bytes) (m : Mesh) : Prop :=
  ∀ a b : DeviceId,
    (m.replicas a).sync.diffForPeer (m.replicas b).sync.summary = [] →
    (m.replicas b).sync.diffForPeer (m.replicas a).sync.summary = [] →
    (∀ id seq, (∃ op ∈ (m.replicas a).sync.opLog, op.deviceId = id ∧ op.seq = seq) ↔
      ∃ op ∈ (m.replicas b).sync.opLog, op.deviceId = id ∧ op.seq = seq) ∧
    MeshState.root hash (m.replicas a).state = MeshState.root hash (m.replicas b).state

/-- **Anti-entropy converges where no delivery leaves a gap.** -/
theorem anti_entropy_converges (verifySig : VerifyingKey → (message sig : Bytes) → Bool)
    (hash : Bytes → Bytes) (subtrees : MeshState) (actions : List (Action VerifyingKey))
    (guarded : EachStep (Mesh.step verifySig) NoGap (.start subtrees) actions) :
    Converged hash (run (Mesh.step verifySig) (.start subtrees) actions) := by
  have inv : (run (Mesh.step verifySig) (.start subtrees) actions).Inv subtrees :=
    run_invariant (fun m a inv guard => inv.step a guard) (inv_start subtrees) guarded
  intro a b none none'
  have same (op : AuthenticatedOp) := Iff.intro (held_of_diff_nil inv none op) (held_of_diff_nil inv none' op)
  refine ⟨fun id seq => ?_, ?_⟩
  · simp only [same]
  · rw [state_eq_of_same_log (inv.replicas a) (inv.replicas b) same]

section Gap

/-- One counter. -/
def oneCounter : MeshState := SortedMap.empty.alter (ascii "c") fun _ => .pnCounter .empty

def phone : DeviceId := filled 16 1
def laptop : DeviceId := filled 16 2

/-- The phone's `seq`-th operation: count one. -/
def countOne (seq : Nat) : AuthenticatedOp :=
  ⟨ascii "c", .counter phone 1, phone, 0, seq, 0, List.replicate hybridSigLen 0⟩

def anySig : Unit → (message sig : Bytes) → Bool := fun _ _ _ => true

/-- Both operations of the phone reach the laptop, in order. -/
def inOrder : List (Action Unit) :=
  [.emit (countOne 1), .emit (countOne 2), .deliver laptop (countOne 1) fun _ _ => .ok (),
    .deliver laptop (countOne 2) fun _ _ => .ok ()]

/-- Only the second one does. -/
def firstLost : List (Action Unit) :=
  [.emit (countOne 1), .emit (countOne 2), .deliver laptop (countOne 2) fun _ _ => .ok ()]

theorem anti_entropy_converges_inOrder :
    Converged id (run (Mesh.step anySig) (.start oneCounter) inOrder) :=
  anti_entropy_converges anySig id oneCounter inOrder (by
    simp only [inOrder, EachStep, NoGap]
    decide +kernel)

/-- The laptop holds the second operation without the first, and neither side has anything
to offer. -/
theorem anti_entropy_gap_invisible :
    ¬ Converged id (run (Mesh.step anySig) (.start oneCounter) firstLost) := by
  intro converged
  obtain ⟨held, -⟩ := converged phone laptop (by decide +kernel) (by decide +kernel)
  have missing : ∃ op ∈ ((run (Mesh.step anySig) (.start oneCounter) firstLost).replicas
      laptop).sync.opLog, op.deviceId = phone ∧ op.seq = 1 :=
    (held phone 1).mp (by decide +kernel)
  revert missing
  decide +kernel

end Gap

end OneLink.DeviceMesh
