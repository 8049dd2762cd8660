/-
# State.SelfMeshDevice -- the self-mesh device table and the changes a device may make

`decide_device_safety_transition` with its texts.  A state name that
`normalize_safety_state` does not know raises before a decision is made, so the
states are an enumeration here, and a proof name without a meaning to the
guardian is left out of the proofs given.

Three operations write a device row: `upsert_self_mesh_device`,
`revoke_self_mesh_device` and `set_self_mesh_device_safety`.  Revocation lives in
three columns that they merge by different rules.  A row is `Coherent` when its
`revoked` flag is backed by the safety state `revoked`; from a coherent row no
operation undoes a revocation (`Kept`), and `Sound` says which upserts keep rows
coherent.

The audit chain `device_guardian_events` that a safety change also writes is
read by none of the three and left out.
-/
import Mathlib.Data.List.Basic
import OneLink.Library.Checked
import OneLink.Library.OrderedDict
import OneLink.Library.PyText
import OneLink.Library.Run

namespace OneLink.State

set_option autoImplicit false

inductive SafetyState where
  | trusted
  | suspicious
  | maybeLost
  | frozen
  | revoked
  | recovered
  | quarantined
  deriving DecidableEq, Repr

inductive GuardianProof where
  | recentUnlock
  | recoverySecret
  | quorum
  | hardwareKey
  | alreadyFrozen
  | suspiciousBehavior
  deriving DecidableEq, Repr

namespace SafetyState

def text : SafetyState → String
  | trusted => "trusted"
  | suspicious => "suspicious"
  | maybeLost => "maybe_lost"
  | frozen => "frozen"
  | revoked => "revoked"
  | recovered => "recovered"
  | quarantined => "quarantined"

/-- `REVERSIBLE_TRANSITIONS` -/
def reversibleTransitions : SafetyState → List SafetyState
  | trusted => [suspicious, maybeLost, frozen, quarantined, revoked]
  | suspicious => [trusted, maybeLost, frozen, quarantined, revoked]
  | maybeLost => [trusted, frozen, recovered, quarantined, revoked]
  | frozen => [recovered, revoked, trusted]
  | recovered => [trusted, suspicious, maybeLost, frozen, revoked]
  | quarantined => [trusted, frozen, revoked, recovered]
  | revoked => []

end SafetyState

namespace GuardianProof

def text : GuardianProof → String
  | recentUnlock => "recent_unlock"
  | recoverySecret => "recovery_secret"
  | quorum => "quorum"
  | hardwareKey => "hardware_key"
  | alreadyFrozen => "already_frozen"
  | suspiciousBehavior => "suspicious_behavior"

/-- `STRONG_PROOFS` -/
def strongProofs : List GuardianProof := [recoverySecret, quorum, hardwareKey]

end GuardianProof

structure GuardianDecision where
  allowed : Bool
  targetState : SafetyState
  severity : String
  event : String
  detail : String
  requiredProofs : List String := []
  effects : List String := []
  reversible : Bool := true
  cooldownMs : Nat := 0
  deriving DecidableEq, Repr

open SafetyState GuardianProof

/-- The branches of `decide_device_safety_transition` after the transition table. -/
def decideAllowedTransition (current requested : SafetyState) (proofs : List GuardianProof)
    (actorIsLocal activeSuspicion : Bool) : GuardianDecision :=
  match requested with
  | suspicious | maybeLost =>
    { allowed := true, targetState := requested, severity := "warn",
      event := "guardian_" ++ requested.text,
      detail := "soft protection enabled; sensitive actions now require extra trust",
      effects := ["remote_sensitive_actions_limited", "audit_visible", "reversible"] }
  | frozen =>
    if !actorIsLocal ∧ recentUnlock ∉ proofs then
      { allowed := false, targetState := current, severity := "bad",
        event := "guardian_transition_denied",
        detail := "remote freeze requires recent local unlock proof",
        requiredProofs := [recentUnlock.text], effects := ["no_state_change"] }
    else
      { allowed := true, targetState := requested, severity := "bad", event := "guardian_frozen",
        detail := "device frozen; it cannot route, sync, pull files, or run remote commands",
        effects := ["exclude_from_routing", "block_remote_instruct", "block_future_epoch_keys",
          "audit_visible", "reversible"] }
  | revoked =>
    if (∃ proof ∈ proofs, proof ∈ strongProofs) ∨
        ((current = frozen ∨ current = quarantined) ∧ alreadyFrozen ∈ proofs) ∨
        (activeSuspicion ∧ suspiciousBehavior ∈ proofs) then
      { allowed := true, targetState := requested, severity := "bad",
        event := "guardian_revoked",
        detail := "device permanently removed from trust; re-enrollment is required to return",
        effects := ["exclude_from_routing", "block_remote_instruct", "block_future_epoch_keys",
          "require_reenrollment", "audit_visible"],
        reversible := false }
    else
      { allowed := false, targetState := current, severity := "bad",
        event := "guardian_revoke_pending",
        detail := "hard revoke needs recovery, quorum, hardware-key, or already-frozen proof",
        requiredProofs := ["already_frozen", "hardware_key", "quorum", "recovery_secret"],
        effects := ["no_state_change", "offer_freeze_first"], reversible := false,
        cooldownMs := 2 * 60 * 60 * 1000 }
  | recovered =>
    { allowed := true, targetState := requested, severity := "good",
      event := "guardian_recovered",
      detail := "device marked recovered; re-proof before returning to full trust",
      effects := ["remote_sensitive_actions_limited", "audit_visible"] }
  | trusted =>
    if (current = frozen ∨ current = quarantined ∨ current = maybeLost) ∧
        ¬ ∃ proof ∈ proofs, proof ∈ [recentUnlock, recoverySecret, hardwareKey] then
      { allowed := false, targetState := current, severity := "warn",
        event := "guardian_recovery_pending",
        detail := "restoring trust requires recent unlock, recovery, or hardware-key proof",
        requiredProofs := [recentUnlock.text, recoverySecret.text, hardwareKey.text],
        effects := ["no_state_change"] }
    else
      { allowed := true, targetState := requested, severity := "good",
        event := "guardian_trusted", detail := "device returned to trusted state",
        effects := ["routing_allowed", "remote_instruct_allowed", "audit_visible"] }
  | quarantined =>
    { allowed := true, targetState := requested, severity := "bad",
      event := "guardian_quarantined",
      detail := "device quarantined after suspicious behavior",
      effects := ["exclude_from_routing", "block_remote_instruct", "audit_visible"] }

def decideDeviceSafetyTransition (current requested : SafetyState) (proofs : List GuardianProof)
    (actorIsLocal activeSuspicion : Bool) : GuardianDecision :=
  if current = revoked ∧ requested ≠ revoked then
    { allowed := false, targetState := current, severity := "bad",
      event := "guardian_transition_denied",
      detail := "revoked devices must be re-enrolled instead of silently restored",
      requiredProofs := ["re_enroll"], effects := ["no_state_change"], reversible := false }
  else if requested = current then
    { allowed := true, targetState := requested, severity := "info",
      event := "guardian_state_unchanged", detail := "device already " ++ requested.text,
      effects := ["audit_only"], reversible := requested ≠ revoked }
  else if requested ∉ current.reversibleTransitions then
    { allowed := false, targetState := current, severity := "bad",
      event := "guardian_transition_denied",
      detail := "transition " ++ current.text ++ "->" ++ requested.text ++ " is not allowed",
      effects := ["no_state_change"], reversible := current ≠ revoked }
  else decideAllowedTransition current requested proofs actorIsLocal activeSuspicion

/-- Whatever is asked of a revoked device, it stays revoked. -/
theorem decideDeviceSafetyTransition_revoked (requested : SafetyState)
    (proofs : List GuardianProof) (actorIsLocal activeSuspicion : Bool) :
    (decideDeviceSafetyTransition .revoked requested proofs actorIsLocal
      activeSuspicion).targetState = .revoked := by
  unfold decideDeviceSafetyTransition
  split
  · rfl
  · rename_i same
    have requestedRevoked : requested = .revoked := by simpa using same
    rw [if_pos requestedRevoked, requestedRevoked]

open Library

abbrev Pub := List UInt8

structure SelfMeshDevice where
  cert : Option (List UInt8)
  deviceKind : String
  label : String
  isLocal : Bool
  trusted : Bool
  revoked : Bool
  addedMs : Int
  updatedMs : Int
  metadataJson : String
  safetyState : SafetyState
  safetyUpdatedMs : Int
  guardianEpoch : Nat
  safetyReason : String
  deriving DecidableEq

/-- The primary key `(root_pub, device_pub)`. -/
abbrev DeviceKey := Pub × Pub

abbrev DeviceTable := OrderedDict DeviceKey SelfMeshDevice

structure UpsertDevice where
  rootPub : Pub
  devicePub : Pub
  deviceKind : String
  cert : Option (List UInt8)
  label : String
  isLocal : Bool
  trusted : Bool
  revoked : Bool
  safetyState : Option SafetyState
  /-- `json.dumps(metadata or {}, ...)` -/
  metadataJson : String
  addedMs : Option Int
  nowMs : Int
  deriving DecidableEq

structure SetSafety where
  rootPub : Pub
  devicePub : Pub
  requestedState : SafetyState
  actorDevicePub : Option Pub
  proofs : List GuardianProof
  reason : String
  actorIsLocal : Bool
  activeSuspicion : Bool
  nowMs : Int
  deriving DecidableEq

inductive DeviceError where
  | rootPubLength
  | devicePubLength
  | actorDevicePubLength
  | deviceKindRequired
  | deviceNotEnrolled
  deriving DecidableEq, Repr

namespace DeviceError

def message : DeviceError → String
  | rootPubLength => "root_pub must be 32 bytes"
  | devicePubLength => "device_pub must be 32 bytes"
  | actorDevicePubLength => "actor_device_pub must be 32 bytes"
  | deviceKindRequired => "device_kind is required"
  | deviceNotEnrolled => "device is not enrolled"

end DeviceError

/-- `text[:n]` -/
def clip (n : Nat) (text : String) : String := String.ofList (text.toList.take n)

def validateSelfMeshPubs (rootPub devicePub : Pub) : Except DeviceError Unit := do
  require (rootPub.length = 32) .rootPubLength
  require (devicePub.length = 32) .devicePubLength

namespace UpsertDevice

def key (u : UpsertDevice) : DeviceKey := (u.rootPub, u.devicePub)

/-- `normalize_safety_state(safety_state or ("revoked" if revoked else "trusted"))` -/
def safety (u : UpsertDevice) : SafetyState :=
  u.safetyState.getD (if u.revoked then .revoked else .trusted)

/-- The row that `INSERT` proposes, `excluded` in the conflict clause. -/
def excluded (u : UpsertDevice) : SelfMeshDevice where
  cert := u.cert
  deviceKind := clip 64 (strip u.deviceKind)
  label := clip 120 u.label
  isLocal := u.isLocal
  trusted := u.trusted
  revoked := u.revoked
  addedMs := u.addedMs.getD u.nowMs
  updatedMs := u.nowMs
  metadataJson := u.metadataJson
  safetyState := u.safety
  safetyUpdatedMs := u.nowMs
  guardianEpoch := if u.safety = .revoked then 1 else 0
  safetyReason := if u.safety = .revoked then "enrolled revoked" else ""

end UpsertDevice

/-- The safety states that the conflict clause withholds trust in. -/
def untrustedStates : List SafetyState := [.maybeLost, .frozen, .revoked, .quarantined]

/-- `ON CONFLICT(root_pub, device_pub) DO UPDATE SET ...` -/
def mergeDevice (old excluded : SelfMeshDevice) : SelfMeshDevice where
  cert := excluded.cert <|> old.cert
  deviceKind := excluded.deviceKind
  label := excluded.label
  isLocal := excluded.isLocal
  trusted :=
    if old.safetyState ∈ untrustedStates ∨ excluded.safetyState ∈ untrustedStates then false
    else excluded.trusted
  revoked :=
    if old.safetyState = .revoked ∨ excluded.safetyState = .revoked then true
    else excluded.revoked
  addedMs := old.addedMs
  updatedMs := excluded.updatedMs
  metadataJson := excluded.metadataJson
  safetyState := if old.safetyState = .trusted then excluded.safetyState else old.safetyState
  safetyUpdatedMs :=
    if old.safetyUpdatedMs = 0 then excluded.safetyUpdatedMs else old.safetyUpdatedMs
  guardianEpoch := old.guardianEpoch
  safetyReason := old.safetyReason

def upsertSelfMeshDevice (t : DeviceTable) (u : UpsertDevice) : Except DeviceError DeviceTable := do
  validateSelfMeshPubs u.rootPub u.devicePub
  require (strip u.deviceKind ≠ "") .deviceKindRequired
  match t.get? u.key with
  | none => return t.set u.key u.excluded
  | some old => return t.set u.key (mergeDevice old u.excluded)

/-- The row after `revoke_self_mesh_device`. -/
def revokedDevice (old : SelfMeshDevice) (nowMs : Int) : SelfMeshDevice :=
  { old with
    revoked := true, trusted := false, safetyState := .revoked,
    guardianEpoch := old.guardianEpoch + 1, safetyUpdatedMs := nowMs,
    safetyReason := "legacy revoke", updatedMs := nowMs }

def revokeSelfMeshDevice (t : DeviceTable) (rootPub devicePub : Pub) (nowMs : Int) :
    Except DeviceError DeviceTable := do
  validateSelfMeshPubs rootPub devicePub
  match t.get? (rootPub, devicePub) with
  | none => return t
  | some old => return t.set (rootPub, devicePub) (revokedDevice old nowMs)

/-- The row after an allowed change to another state. -/
def changeSafety (old : SelfMeshDevice) (target : SafetyState) (reason : String) (nowMs : Int) :
    SelfMeshDevice :=
  { old with
    safetyState := target, safetyUpdatedMs := nowMs, safetyReason := clip 500 reason,
    updatedMs := nowMs, revoked := target = .revoked,
    trusted := target ∈ [SafetyState.trusted, .recovered, .suspicious] ∧ target ≠ .revoked,
    guardianEpoch := old.guardianEpoch +
      if target ∈ [SafetyState.frozen, .revoked, .quarantined] then 1 else 0 }

def setSelfMeshDeviceSafety (t : DeviceTable) (c : SetSafety) : Except DeviceError DeviceTable := do
  validateSelfMeshPubs c.rootPub c.devicePub
  require (∀ pub ∈ c.actorDevicePub, pub.length = 32) .actorDevicePubLength
  match t.get? (c.rootPub, c.devicePub) with
  | none => throw .deviceNotEnrolled
  | some old =>
    let decision := decideDeviceSafetyTransition old.safetyState c.requestedState c.proofs
      c.actorIsLocal c.activeSuspicion
    if decision.allowed ∧ decision.targetState ≠ old.safetyState then
      let reason := if c.reason = "" then decision.detail else c.reason
      return t.set (c.rootPub, c.devicePub) (changeSafety old decision.targetState reason c.nowMs)
    else return t

inductive DeviceOp where
  | upsert (u : UpsertDevice)
  | revoke (rootPub devicePub : Pub) (nowMs : Int)
  | setSafety (c : SetSafety)

/-- The table after a call; a call that raises has written nothing. -/
def stepDevice (t : DeviceTable) (op : DeviceOp) : DeviceTable :=
  let result := match op with
    | .upsert u => upsertSelfMeshDevice t u
    | .revoke rootPub devicePub nowMs => revokeSelfMeshDevice t rootPub devicePub nowMs
    | .setSafety c => setSelfMeshDeviceSafety t c
  result.toOption.getD t

/-! ## What one call does to a row -/

/-- How a call may leave a row that is there. -/
inductive RowStep (op : DeviceOp) (k : DeviceKey) (old : SelfMeshDevice) : SelfMeshDevice → Prop
  | same : RowStep op k old old
  | merged (u : UpsertDevice) (called : op = .upsert u) (here : u.key = k) :
      RowStep op k old (mergeDevice old u.excluded)
  | revoked (nowMs : Int) : RowStep op k old (revokedDevice old nowMs)
  | changed (target : SafetyState) (reason : String) (nowMs : Int)
      (notRevoked : old.safetyState ≠ .revoked) :
      RowStep op k old (changeSafety old target reason nowMs)

theorem upsertSelfMeshDevice_eq_ok {t t' : DeviceTable} {u : UpsertDevice}
    (done : upsertSelfMeshDevice t u = .ok t') :
    (t.get? u.key = none ∧ t' = t.set u.key u.excluded) ∨
      ∃ old, t.get? u.key = some old ∧ t' = t.set u.key (mergeDevice old u.excluded) := by
  unfold upsertSelfMeshDevice at done
  simp only [bind_eq_ok, require_eq_ok, exists_const] at done
  obtain ⟨_, _, _, done⟩ := done
  split at done
  · rename_i absent
    exact .inl ⟨absent, (pure_eq_ok_iff.mp done).symm⟩
  · rename_i old present
    exact .inr ⟨old, present, (pure_eq_ok_iff.mp done).symm⟩

theorem revokeSelfMeshDevice_eq_ok {t t' : DeviceTable} {rootPub devicePub : Pub} {nowMs : Int}
    (done : revokeSelfMeshDevice t rootPub devicePub nowMs = .ok t') :
    t' = t ∨ ∃ old, t.get? (rootPub, devicePub) = some old ∧
      t' = t.set (rootPub, devicePub) (revokedDevice old nowMs) := by
  unfold revokeSelfMeshDevice at done
  simp only [bind_eq_ok] at done
  obtain ⟨_, _, done⟩ := done
  split at done
  · exact .inl (pure_eq_ok_iff.mp done).symm
  · rename_i old present
    exact .inr ⟨old, present, (pure_eq_ok_iff.mp done).symm⟩

theorem setSelfMeshDeviceSafety_eq_ok {t t' : DeviceTable} {c : SetSafety}
    (done : setSelfMeshDeviceSafety t c = .ok t') :
    t' = t ∨ ∃ old, t.get? (c.rootPub, c.devicePub) = some old ∧
      old.safetyState ≠ .revoked ∧
      ∃ target reason, t' = t.set (c.rootPub, c.devicePub)
        (changeSafety old target reason c.nowMs) := by
  unfold setSelfMeshDeviceSafety at done
  simp only [bind_eq_ok, require_eq_ok, exists_const] at done
  obtain ⟨_, _, _, done⟩ := done
  split at done
  · cases done
  · rename_i old present
    split at done
    · rename_i moves
      refine .inr ⟨old, present, ?_, _, _, (pure_eq_ok_iff.mp done).symm⟩
      intro revoked
      apply moves.2
      rw [revoked]
      exact decideDeviceSafetyTransition_revoked _ _ _ _
    · exact .inl (pure_eq_ok_iff.mp done).symm

/-- Everything one call can do to the row of `k`. -/
theorem get?_stepDevice (t : DeviceTable) (op : DeviceOp) (k : DeviceKey) :
    (t.get? k = none ∧ (stepDevice t op).get? k = none) ∨
    (∃ u, op = .upsert u ∧ u.key = k ∧ t.get? k = none ∧
      (stepDevice t op).get? k = some u.excluded) ∨
    ∃ old new, t.get? k = some old ∧ (stepDevice t op).get? k = some new ∧
      RowStep op k old new := by
  have untouched : (stepDevice t op).get? k = t.get? k →
      (t.get? k = none ∧ (stepDevice t op).get? k = none) ∨
      (∃ u, op = .upsert u ∧ u.key = k ∧ t.get? k = none ∧
        (stepDevice t op).get? k = some u.excluded) ∨
      ∃ old new, t.get? k = some old ∧ (stepDevice t op).get? k = some new ∧
        RowStep op k old new := by
    intro same
    cases row : t.get? k with
    | none => exact .inl ⟨rfl, same.trans row⟩
    | some old => exact .inr (.inr ⟨old, old, rfl, same.trans row, .same⟩)
  cases op with
  | upsert u =>
    cases done : upsertSelfMeshDevice t u with
    | error err => exact untouched (by simp [stepDevice, done, Except.toOption])
    | ok t' =>
      have after : stepDevice t (.upsert u) = t' := by
        simp [stepDevice, done, Except.toOption]
      by_cases here : u.key = k
      · subst here
        obtain ⟨absent, rfl⟩ | ⟨old, present, rfl⟩ := upsertSelfMeshDevice_eq_ok done
        · exact .inr (.inl ⟨u, rfl, rfl, absent, by rw [after, OrderedDict.get?_set_self]⟩)
        · exact .inr (.inr ⟨old, _, present, by rw [after, OrderedDict.get?_set_self],
            .merged u rfl rfl⟩)
      · refine untouched ?_
        rw [after]
        obtain ⟨_, rfl⟩ | ⟨old, _, rfl⟩ := upsertSelfMeshDevice_eq_ok done
        · exact OrderedDict.get?_set_of_ne _ here _
        · exact OrderedDict.get?_set_of_ne _ here _
  | revoke rootPub devicePub nowMs =>
    cases done : revokeSelfMeshDevice t rootPub devicePub nowMs with
    | error err => exact untouched (by simp [stepDevice, done, Except.toOption])
    | ok t' =>
      have after : stepDevice t (.revoke rootPub devicePub nowMs) = t' := by
        simp [stepDevice, done, Except.toOption]
      obtain rfl | ⟨old, present, rfl⟩ := revokeSelfMeshDevice_eq_ok done
      · exact untouched (by rw [after])
      · by_cases here : (rootPub, devicePub) = k
        · subst here
          exact .inr (.inr ⟨old, _, present, by rw [after, OrderedDict.get?_set_self],
            .revoked nowMs⟩)
        · exact untouched (by rw [after, OrderedDict.get?_set_of_ne _ here])
  | setSafety c =>
    cases done : setSelfMeshDeviceSafety t c with
    | error err => exact untouched (by simp [stepDevice, done, Except.toOption])
    | ok t' =>
      have after : stepDevice t (.setSafety c) = t' := by
        simp [stepDevice, done, Except.toOption]
      obtain rfl | ⟨old, present, notRevoked, target, reason, rfl⟩ :=
        setSelfMeshDeviceSafety_eq_ok done
      · exact untouched (by rw [after])
      · by_cases here : (c.rootPub, c.devicePub) = k
        · subst here
          exact .inr (.inr ⟨old, _, present, by rw [after, OrderedDict.get?_set_self],
            .changed target reason c.nowMs notRevoked⟩)
        · exact untouched (by rw [after, OrderedDict.get?_set_of_ne _ here])

/-! ## Revocation over sequences of calls -/

namespace SelfMeshDevice

/-- The `revoked` flag is backed by the safety state. -/
def Coherent (d : SelfMeshDevice) : Prop := d.revoked = true → d.safetyState = .revoked

/-- A revocation of `old` holds in `new`, and trust is not given back. -/
def Kept (old new : SelfMeshDevice) : Prop :=
  new.revoked = true ∧ (new.trusted = true → old.trusted = true)

end SelfMeshDevice

open SelfMeshDevice

/-- The upserts that keep the row they meet coherent: one that marks a device
revoked does so with the safety state `revoked`, on a device that is new, trusted
or already revoked. -/
def SoundUpsert (u : UpsertDevice) : Option SelfMeshDevice → Prop
  | none => u.revoked = true → u.safety = .revoked
  | some old =>
    old.safetyState = .revoked ∨
    (old.safetyState = .trusted ∧ (u.revoked = true → u.safety = .revoked)) ∨
    (u.revoked = false ∧ u.safety ≠ .revoked)

instance (u : UpsertDevice) : (row : Option SelfMeshDevice) → Decidable (SoundUpsert u row)
  | none => inferInstanceAs (Decidable (_ → _))
  | some _ => inferInstanceAs (Decidable (_ ∨ _))

def Sound (t : DeviceTable) : DeviceOp → Prop
  | .upsert u => SoundUpsert u (t.get? u.key)
  | _ => True

instance (t : DeviceTable) : (op : DeviceOp) → Decidable (Sound t op)
  | .upsert u => inferInstanceAs (Decidable (SoundUpsert u (t.get? u.key)))
  | .revoke .. => inferInstanceAs (Decidable True)
  | .setSafety _ => inferInstanceAs (Decidable True)

theorem kept_mergeDevice {old : SelfMeshDevice} (u : UpsertDevice)
    (revoked : old.safetyState = .revoked) : Kept old (mergeDevice old u.excluded) := by
  simp [Kept, mergeDevice, revoked, untrustedStates]

/-- From a coherent row no call undoes a revocation. -/
theorem kept_of_rowStep {op : DeviceOp} {k : DeviceKey} {old new : SelfMeshDevice}
    (step : RowStep op k old new) (coherent : old.Coherent) (revoked : old.revoked = true) :
    Kept old new := by
  cases step with
  | same => exact ⟨revoked, id⟩
  | merged u _ _ => exact kept_mergeDevice u (coherent revoked)
  | revoked nowMs => simp [Kept, revokedDevice]
  | changed target reason nowMs notRevoked => exact absurd (coherent revoked) notRevoked

theorem coherent_mergeDevice {old : SelfMeshDevice} {u : UpsertDevice}
    (sound : SoundUpsert u (some old)) : (mergeDevice old u.excluded).Coherent := by
  intro marked
  obtain stateRevoked | ⟨stateTrusted, backed⟩ | ⟨unmarked, notRevoked⟩ := sound
  · simp [mergeDevice, stateRevoked]
  · simp only [mergeDevice, stateTrusted, UpsertDevice.excluded] at marked ⊢
    rw [if_pos trivial]
    split at marked
    · rename_i either
      exact either.resolve_left (by simp)
    · exact backed marked
  · simp only [mergeDevice, UpsertDevice.excluded, unmarked] at marked ⊢
    split at marked
    · rename_i either
      have stateRevoked := either.resolve_right notRevoked
      rw [stateRevoked]
      rfl
    · cases marked

theorem coherent_stepDevice {t : DeviceTable} {op : DeviceOp}
    (coherent : ∀ k d, t.get? k = some d → d.Coherent) (sound : Sound t op) :
    ∀ k d, (stepDevice t op).get? k = some d → d.Coherent := by
  intro k d row
  obtain ⟨_, absent⟩ | ⟨u, rfl, rfl, absent, inserted⟩ | ⟨old, new, present, after, step⟩ :=
    get?_stepDevice t op k
  · rw [absent] at row
    cases row
  · rw [inserted, Option.some.injEq] at row
    subst row
    rw [Sound, absent] at sound
    exact sound
  · rw [after, Option.some.injEq] at row
    subst row
    cases step with
    | same => exact coherent k _ present
    | merged u called here =>
      subst called here
      rw [Sound, present] at sound
      exact coherent_mergeDevice sound
    | revoked nowMs => exact fun _ => rfl
    | changed target reason nowMs _ => simp [Coherent, changeSafety]

theorem coherent_run {t : DeviceTable} {ops : List DeviceOp}
    (coherent : ∀ k d, t.get? k = some d → d.Coherent) (sound : EachStep stepDevice Sound t ops) :
    ∀ k d, (run stepDevice t ops).get? k = some d → d.Coherent := by
  have preserved : ∀ t op, (∀ k d, OrderedDict.get? t k = some d → d.Coherent) → Sound t op →
      ∀ k d, (stepDevice t op).get? k = some d → d.Coherent :=
    fun _ _ kept sound => coherent_stepDevice kept sound
  exact run_invariant preserved coherent sound

/-- In a run of sound calls a revoked row stays revoked and is not trusted again. -/
theorem revocation_permanent_from {t : DeviceTable} {ops : List DeviceOp} {k : DeviceKey}
    {d : SelfMeshDevice} (coherent : ∀ k d, t.get? k = some d → d.Coherent)
    (sound : EachStep stepDevice Sound t ops) (row : t.get? k = some d)
    (revoked : d.revoked = true) :
    ∃ d', (run stepDevice t ops).get? k = some d' ∧ Kept d d' := by
  induction ops generalizing t d with
  | nil => exact ⟨d, row, revoked, id⟩
  | cons op rest ih =>
    obtain ⟨absent, _⟩ | ⟨_, _, _, absent, _⟩ | ⟨old, new, present, after, step⟩ :=
      get?_stepDevice t op k
    · rw [absent] at row
      cases row
    · rw [absent] at row
      cases row
    · rw [present, Option.some.injEq] at row
      subst row
      have kept := kept_of_rowStep step (coherent k _ present) revoked
      obtain ⟨last, lastRow, lastKept⟩ :=
        ih (coherent_stepDevice coherent sound.1) sound.2 after kept.1
      exact ⟨last, lastRow, lastKept.1, fun trusted => kept.2 (lastKept.2 trusted)⟩

/-- **Revocation is permanent in every run of sound calls**: once the row of `k`
is revoked it stays revoked, and no later call makes it trusted. -/
theorem revocation_is_permanent (early late : List DeviceOp)
    (sound : EachStep stepDevice Sound OrderedDict.empty (early ++ late)) (k : DeviceKey)
    (d : SelfMeshDevice) (row : (run stepDevice OrderedDict.empty early).get? k = some d)
    (revoked : d.revoked = true) :
    ∃ d', (run stepDevice OrderedDict.empty (early ++ late)).get? k = some d' ∧
      d'.revoked = true ∧ (d'.trusted = true → d.trusted = true) := by
  rw [eachStep_append] at sound
  rw [run_append]
  exact revocation_permanent_from (coherent_run (by simp) sound.1) sound.2 row revoked

/-- Enrolment of one device, and the same call with `revoked=True`. -/
def sampleUpsert (revoked : Bool) : UpsertDevice where
  rootPub := List.replicate 32 1
  devicePub := List.replicate 32 2
  deviceKind := "phone"
  cert := none
  label := ""
  isLocal := false
  trusted := true
  revoked := revoked
  safetyState := none
  metadataJson := "\x7b\x7d"
  addedMs := none
  nowMs := 10

def sampleSuspicion : SetSafety where
  rootPub := List.replicate 32 1
  devicePub := List.replicate 32 2
  requestedState := .suspicious
  actorDevicePub := none
  proofs := []
  reason := ""
  actorIsLocal := true
  activeSuspicion := false
  nowMs := 11

/-- Enrolled, revoked by the revoke call, then enrolled again as trusted. -/
theorem revocation_is_permanent_sample :
    ∃ d', (run stepDevice OrderedDict.empty
      ([.upsert (sampleUpsert false), .revoke (sampleUpsert false).rootPub
        (sampleUpsert false).devicePub 12] ++ [.upsert (sampleUpsert false)])).get?
        (sampleUpsert false).key = some d' ∧ d'.revoked = true ∧
      (d'.trusted = true → (revokedDevice (sampleUpsert false).excluded 12).trusted = true) :=
  revocation_is_permanent _ _ (by decide +kernel) _
    (revokedDevice (sampleUpsert false).excluded 12) (by decide +kernel) rfl

/-- A device that is suspicious when an upsert revokes it keeps the safety state
`suspicious`; the next upsert with `revoked=False` makes it unrevoked and trusted. -/
theorem revocation_undone_by_upsert :
    ∃ d d', (run stepDevice OrderedDict.empty
        [.upsert (sampleUpsert false), .setSafety sampleSuspicion,
          .upsert (sampleUpsert true)]).get? (sampleUpsert false).key = some d ∧
      (run stepDevice OrderedDict.empty
        [.upsert (sampleUpsert false), .setSafety sampleSuspicion, .upsert (sampleUpsert true),
          .upsert (sampleUpsert false)]).get? (sampleUpsert false).key = some d' ∧
      d.revoked = true ∧ d.trusted = false ∧ d'.revoked = false ∧ d'.trusted = true := by
  refine ⟨_, _, rfl, rfl, ?_⟩
  decide +kernel

end OneLink.State
