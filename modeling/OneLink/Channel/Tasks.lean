/-
# Channel.Tasks — what one endpoint keeps through its tasks

`Endpoint.Sound` is what one endpoint knows of itself.  A task step is quiet (the
counters stay, and what is written and taken), writes one frame, or reads one; one
lemma per step says which, and that the endpoint stays sound.
-/
import OneLink.Channel.Wire

namespace OneLink.Channel

open Library
open OneLink.DoubleRatchet (Party)

set_option autoImplicit false

namespace Endpoint

variable (cfg : Config)

/-! ## One endpoint -/

/-- The CAPS frame is written; it is noted when its send returns. -/
def capsWritten (e : Endpoint) : Bool :=
  e.capsSent || match e.sending with
    | some (.legacyDrain message) => cfg.isCaps message.bytes
    | _ => false

/-- The commit is written; it is noted when its send returns. -/
def commitWritten (e : Endpoint) : Bool :=
  e.commitSent || match e.sending with
    | some (.commitDrain _) => true
    | _ => false

/-- The ratchet is active and the commit is still to come. -/
def OwesCommit (e : Endpoint) : Prop :=
  e.drState.isSome ∧ e.role = .alice ∧ cfg.cutoverCap ∧ e.commitSent = false

/-- What a send knows at the stage it waits in. -/
def StageSound (e : Endpoint) : Stage → Prop
  | .awaitCaps _ => True
  | .awaitReady _ | .ratchetWrite _ | .ratchetDrain _ => e.drState.isSome
  | .legacyWrite _ | .legacyDrain _ => e.capsSent = false
  | .commitWrite payload _ => e.OwesCommit cfg ∧ e.cutoverCommitPayload cfg = some payload
  | .commitDrain _ => e.OwesCommit cfg

structure Sound (e : Endpoint) : Prop where
  peerDr : e.peerDrCapable = e.capsReceived
  peerCutover : e.peerDrCutoverCapable = (e.capsReceived && cfg.cutoverCap)
  taken : e.capsReceived → e.capsTaken
  negotiated : e.capsNegotiated → e.capsReceived ∨ e.closed
  txFinal : e.capsSent → e.legacyTxFinalSeq = some e.txSeq
  active : e.drState.isSome → e.capsSent ∧ e.capsReceived ∧ e.legacyRxFinalSeq = some e.rxSeq
  commitSent : e.commitSent → e.drState.isSome ∧ e.role = .alice ∧ cfg.cutoverCap
  commitReceived : e.commitReceived → e.drState.isSome
  stage : ∀ stage, e.sending = some stage → e.StageSound cfg stage
  legacyRecv : e.receiving = .suspended .legacy → e.capsTaken = false
  ratchetRecv : e.receiving = .suspended .ratchet → e.drState.isSome

/-- A step that leaves the counters and what is written and taken as they were. -/
structure Quiet (e e' : Endpoint) : Prop where
  role : e'.role = e.role
  txSeq : e'.txSeq = e.txSeq
  rxSeq : e'.rxSeq = e.rxSeq
  capsTaken : e'.capsTaken = e.capsTaken
  commitReceived : e'.commitReceived = e.commitReceived
  capsWritten : e'.capsWritten cfg = e.capsWritten cfg
  commitWritten : e'.commitWritten = e.commitWritten
  active : e.drState.isSome → e'.drState.isSome ∧
    e'.cutoverCommitPayload cfg = e.cutoverCommitPayload cfg

variable {cfg} {e : Endpoint}

/-- What a stage knows depends on these fields only. -/
theorem Sound.stages {e' : Endpoint} (sound : e.Sound cfg) (sending : e'.sending = e.sending)
    (drState : e'.drState = e.drState) (role : e'.role = e.role)
    (capsSent : e'.capsSent = e.capsSent) (commitSent : e'.commitSent = e.commitSent)
    (txFinal : e'.legacyTxFinalSeq = e.legacyTxFinalSeq)
    (rxFinal : e'.legacyRxFinalSeq = e.legacyRxFinalSeq) :
    ∀ stage, e'.sending = some stage → e'.StageSound cfg stage := by
  intro stage entered
  have known := sound.stage stage (sending ▸ entered)
  have payload : e'.cutoverCommitPayload cfg = e.cutoverCommitPayload cfg := by
    simp only [cutoverCommitPayload, txFinal, rxFinal]
  cases stage with
  | awaitCaps => exact trivial
  | _ => simpa only [StageSound, OwesCommit, payload, drState, role, capsSent, commitSent] using known

/-! ## Stages a send enters -/

/-- A stage the endpoint may be put in with nothing on the wire for it yet. -/
def Enters (cfg : Config) (e : Endpoint) (stage : Option Stage) : Prop :=
  ∀ s, stage = some s → e.StageSound cfg s ∧
    (∀ message, s ≠ .legacyDrain message) ∧ ∀ next, s ≠ .commitDrain next

theorem enters_none : Enters cfg e none := by
  intro s impossible
  cases impossible

theorem enters_some {s : Stage} (sound : e.StageSound cfg s)
    (notLegacy : ∀ message, s ≠ .legacyDrain message) (notCommit : ∀ next, s ≠ .commitDrain next) :
    Enters cfg e (some s) := by
  rintro s' same
  cases same
  exact ⟨sound, notLegacy, notCommit⟩

theorem commitThen_enters (sound : e.Sound cfg) (active : e.drState.isSome)
    (next : Option Message) : Enters cfg e (e.commitThen cfg next) := by
  rw [commitThen]
  split
  · next due =>
      obtain ⟨capable, alice, unsent⟩ := due
      rw [sound.peerCutover, Bool.and_eq_true] at capable
      split
      · cases made : e.cutoverCommitPayload cfg with
        | none => exact enters_none
        | some payload =>
          have owes : e.OwesCommit cfg := ⟨active, alice, capable.2, by simpa using unsent⟩
          exact enters_some ⟨owes, made⟩ (by simp) (by simp)
      · exact enters_none
  · cases next with
    | none => exact enters_none
    | some message => exact enters_some active (by simp) (by simp)

theorem sendInMode_enters (sound : e.Sound cfg)
    (legacyOnly : e.drState.isSome = false → e.capsSent = false) (message : Message) :
    Enters cfg e (e.sendInMode cfg message) := by
  rw [sendInMode]
  split
  · next active => exact commitThen_enters sound active _
  · next inactive => exact enters_some (legacyOnly (by simpa using inactive)) (by simp) (by simp)

/-- Behind the wait for the peer's CAPS a legacy frame goes out only before our own
CAPS is noted. -/
theorem resolveOutboundMode_enters (sound : e.Sound cfg)
    (waited : e.capsSent → e.capsReceived ∨ e.closed) (message : Message) :
    Enters cfg e (e.resolveOutboundMode cfg message) := by
  rw [resolveOutboundMode]
  split
  · exact enters_none
  · next notClosed =>
      split
      · next negotiated =>
          split
          · exact enters_none
          · next present =>
              have active : e.drState.isSome :=
                Option.isSome_iff_ne_none.mpr (by simpa using present)
              split
              · exact enters_some active (by simp) (by simp)
              · split
                · exact sendInMode_enters sound (by simp [active]) message
                · exact enters_none
      · next early =>
          refine sendInMode_enters sound (fun _ => ?_) message
          cases sent : e.capsSent with
          | false => rfl
          | true =>
            have received := (waited sent).resolve_right notClosed
            exact absurd ⟨sent, received, by rw [sound.peerDr, received]⟩ early

theorem beginSend_enters (sound : e.Sound cfg) (message : Message) :
    Enters cfg e (e.beginSend cfg message) := by
  rw [beginSend]
  split
  · exact enters_some trivial (by simp) (by simp)
  · next waits =>
      refine resolveOutboundMode_enters sound (fun sent => .inl ?_) message
      simpa [sent] using waits

theorem beginCommit_enters (sound : e.Sound cfg) : Enters cfg e (e.beginCommit cfg) := by
  rw [beginCommit]
  split
  · exact enters_none
  · rw [commitThen]
    split
    · next due =>
        split
        · next ready =>
            have active : e.drState.isSome := by
              rw [canSendRatchet] at ready
              cases state : e.drState with
              | none => simp [state] at ready
              | some ratchet => rfl
            have whole := commitThen_enters sound active none
            rwa [commitThen, if_pos due, if_pos ready] at whole
        · exact enters_none
    · exact enters_none

/-- An endpoint that enters such a stage without having written. -/
theorem Sound.enter (sound : e.Sound cfg) {stage : Option Stage} (enters : Enters cfg e stage) :
    Sound cfg { e with sending := stage } :=
  { sound with stage := fun s entered => (enters s entered).1 }

theorem capsWritten_enter {stage : Option Stage} (enters : Enters cfg e stage) :
    capsWritten cfg { e with sending := stage } = e.capsSent := by
  simp only [capsWritten]
  split
  · next message => exact absurd rfl ((enters _ rfl).2.1 message)
  · rw [Bool.or_false]

theorem commitWritten_enter {stage : Option Stage} (enters : Enters cfg e stage) :
    commitWritten { e with sending := stage } = e.commitSent := by
  simp only [commitWritten]
  split
  · next next => exact absurd rfl ((enters _ rfl).2.2 next)
  · rw [Bool.or_false]

/-- From one stage without frames to another. -/
theorem Quiet.enter {stage : Option Stage} (enters : Enters cfg e stage)
    (leaves : Enters cfg e e.sending) : Quiet cfg e { e with sending := stage } where
  role := rfl
  txSeq := rfl
  rxSeq := rfl
  capsTaken := rfl
  commitReceived := rfl
  capsWritten := by rw [capsWritten_enter enters, ← capsWritten_enter leaves]
  commitWritten := by rw [commitWritten_enter enters, ← commitWritten_enter leaves]
  active active := ⟨active, rfl⟩

/-! ## Quiet steps -/

/-- A step that leaves the send stage, CAPS and the counters alone. -/
theorem Quiet.of_eq {e' : Endpoint} (role : e'.role = e.role) (txSeq : e'.txSeq = e.txSeq)
    (rxSeq : e'.rxSeq = e.rxSeq) (capsTaken : e'.capsTaken = e.capsTaken)
    (commitReceived : e'.commitReceived = e.commitReceived) (capsSent : e'.capsSent = e.capsSent)
    (commitSent : e'.commitSent = e.commitSent) (sending : e'.sending = e.sending)
    (active : e.drState.isSome → e'.drState.isSome ∧
      e'.cutoverCommitPayload cfg = e.cutoverCommitPayload cfg) : Quiet cfg e e' where
  role := role
  txSeq := txSeq
  rxSeq := rxSeq
  capsTaken := capsTaken
  commitReceived := commitReceived
  capsWritten := by rw [Endpoint.capsWritten, Endpoint.capsWritten, capsSent, sending]
  commitWritten := by rw [Endpoint.commitWritten, Endpoint.commitWritten, commitSent, sending]
  active := active

theorem Quiet.refl (e : Endpoint) : Quiet cfg e e :=
  .of_eq rfl rfl rfl rfl rfl rfl rfl rfl fun active => ⟨active, rfl⟩

theorem capsSent_of_active (sound : e.Sound cfg) (active : e.drState.isSome) :
    e.capsSent = true :=
  (sound.active active).1

theorem inactive_of_unsent (sound : e.Sound cfg) (unsent : e.capsSent = false) :
    e.drState.isSome = false := by
  cases state : e.drState.isSome with
  | false => rfl
  | true => exact absurd (capsSent_of_active sound state) (by simp [unsent])

theorem noteCapsReceived_quiet (sound : e.Sound cfg) (taken : e.capsTaken = true) :
    (e.noteCapsReceived cfg).Sound cfg ∧ Quiet cfg e (e.noteCapsReceived cfg) := by
  rw [noteCapsReceived]
  split
  · exact ⟨sound, .refl e⟩
  · next first =>
      have inactive : ¬ e.drState.isSome := fun active => first (sound.active active).2.1
      refine ⟨{ sound with
        peerDr := rfl
        peerCutover := by simp
        taken := fun _ => taken
        negotiated := fun _ => .inl rfl
        active := fun active => absurd active inactive
        stage := sound.stages rfl rfl rfl rfl rfl rfl rfl }, ?_⟩
      · exact .of_eq rfl rfl rfl rfl rfl rfl rfl rfl fun active => absurd active inactive

theorem activated_quiet (sound : e.Sound cfg) (sent : e.capsSent = true)
    (received : e.capsReceived = true) (inactive : ¬ e.drState.isSome) :
    e.activated.Sound cfg ∧ Quiet cfg e e.activated := by
  refine ⟨{ sound with
    active := fun _ => ⟨sent, received, rfl⟩
    commitSent := fun commit => absurd (sound.commitSent commit).1 inactive
    commitReceived := fun _ => rfl
    stage := fun stage entered => ?_
    ratchetRecv := fun _ => rfl }, ?_⟩
  · have known := sound.stage stage entered
    cases stage with
    | awaitCaps => exact trivial
    | awaitReady => exact rfl
    | ratchetWrite => exact rfl
    | ratchetDrain => exact rfl
    | legacyWrite => exact known
    | legacyDrain => exact known
    | commitWrite => exact absurd known.1.1 inactive
    | commitDrain => exact absurd known.1 inactive
  · exact .of_eq rfl rfl rfl rfl rfl rfl rfl rfl fun active => absurd active inactive

/-- The boundary check of the activation never fails: no legacy frame follows CAPS. -/
theorem maybeActivateRatchet_quiet (sound : e.Sound cfg) :
    e.maybeActivateRatchet.Sound cfg ∧ Quiet cfg e e.maybeActivateRatchet := by
  rw [maybeActivateRatchet]
  split
  · exact ⟨sound, .refl e⟩
  · next due =>
      simp only [not_or, not_not] at due
      rw [if_neg (not_not.mpr (sound.txFinal due.2.1.1))]
      exact activated_quiet sound due.2.1.1 due.2.1.2 due.1

theorem close_quiet (sound : e.Sound cfg) : e.close.Sound cfg ∧ Quiet cfg e e.close := by
  refine ⟨{ sound with
    negotiated := fun _ => .inr rfl
    stage := sound.stages rfl rfl rfl rfl rfl rfl rfl }, ?_⟩
  · exact .of_eq rfl rfl rfl rfl rfl rfl rfl rfl fun active => ⟨active, rfl⟩

/-- `recv` is not entered on its legacy path once it has returned the peer's CAPS. -/
def RecvInTime (e : Endpoint) : Prop := e.recvPath = .suspended .legacy → e.capsTaken = false

instance (e : Endpoint) : Decidable e.RecvInTime := inferInstanceAs (Decidable (_ → _))

theorem beginRecv_quiet (sound : e.Sound cfg) (inTime : e.RecvInTime) :
    Sound cfg { e with receiving := e.recvPath } ∧
      Quiet cfg e { e with receiving := e.recvPath } := by
  refine ⟨{ sound with
    stage := sound.stages rfl rfl rfl rfl rfl rfl rfl
    legacyRecv := inTime
    ratchetRecv := fun suspended => ?_ }, ?_⟩
  · simp only [recvPath] at suspended
    split at suspended
    · next active => exact active
    · split at suspended <;> cases suspended
  · exact .of_eq rfl rfl rfl rfl rfl rfl rfl rfl fun active => ⟨active, rfl⟩

theorem noteCapsSent_of_sent (sent : e.capsSent = true) : e.noteCapsSent = e := by
  rw [noteCapsSent, if_pos sent]

/-- A legacy send returns: its CAPS is noted, any other message changes nothing. -/
theorem returnFromLegacy_quiet (sound : e.Sound cfg) {message : Message}
    (drains : e.sending = some (.legacyDrain message)) :
    (e.returnFromSend cfg message).Sound cfg ∧ Quiet cfg e (e.returnFromSend cfg message) := by
  have unsent : e.capsSent = false := sound.stage _ drains
  have inactive : ¬ e.drState.isSome := by simp [inactive_of_unsent sound unsent]
  have written : e.capsWritten cfg = cfg.isCaps message.bytes := by
    simp only [capsWritten, unsent, drains, Bool.false_or]
  have owing : e.commitWritten = e.commitSent := by
    simp only [commitWritten, drains, Bool.or_false]
  cases caps : cfg.isCaps message.bytes with
  | true =>
    have noted : e.returnFromSend cfg message =
        { e with sending := none, legacyTxFinalSeq := some e.txSeq, capsSent := true } := by
      simp [returnFromSend, noteCapsSent, caps, unsent]
    rw [noted]
    refine ⟨{ sound with
      txFinal := fun _ => rfl
      active := fun active => absurd active inactive
      stage := fun stage none => by cases none }, ?_⟩
    refine ⟨rfl, rfl, rfl, rfl, rfl, ?_, ?_, fun active => absurd active inactive⟩
    · rw [written, caps]
      rfl
    · rw [owing]
      exact Bool.or_false _
  | false =>
    have released : e.returnFromSend cfg message = { e with sending := none } := by
      simp [returnFromSend, caps]
    rw [released]
    refine ⟨sound.enter enters_none, ?_⟩
    refine ⟨rfl, rfl, rfl, rfl, rfl, ?_, ?_, fun active => absurd active inactive⟩
    · rw [written, caps]
      simp [capsWritten, unsent]
    · rw [owing]
      exact Bool.or_false _

theorem returnFromRatchet_quiet (sound : e.Sound cfg) {message : Message}
    (drains : e.sending = some (.ratchetDrain message)) :
    (e.returnFromSend cfg message).Sound cfg ∧ Quiet cfg e (e.returnFromSend cfg message) := by
  have active : e.drState.isSome := sound.stage _ drains
  have released : e.returnFromSend cfg message = { e with sending := none } := by
    rw [returnFromSend]
    split
    · have sent : e.capsSent = true := capsSent_of_active sound active
      exact noteCapsSent_of_sent sent
    · rfl
  rw [released]
  have leaves : Enters cfg e e.sending := by
    rw [drains]
    exact enters_some active (by simp) (by simp)
  exact ⟨sound.enter enters_none, .enter enters_none leaves⟩

/-! ## What a send writes -/

structure WritesLegacy (cfg : Config) (e e' : Endpoint) (plaintext : Bytes) : Prop where
  unwritten : e.capsWritten cfg = false
  inactive : e.drState.isSome = false
  role : e'.role = e.role
  txSeq : e'.txSeq = e.txSeq + 1
  rxSeq : e'.rxSeq = e.rxSeq
  capsTaken : e'.capsTaken = e.capsTaken
  commitReceived : e'.commitReceived = e.commitReceived
  capsWritten : e'.capsWritten cfg = cfg.isCaps plaintext
  commitWritten : e'.commitWritten = e.commitWritten

structure WritesRatchet (cfg : Config) (e e' : Endpoint) (plaintext : Bytes) : Prop where
  active : e.drState.isSome
  active' : e'.drState.isSome
  role : e'.role = e.role
  txSeq : e'.txSeq = e.txSeq
  rxSeq : e'.rxSeq = e.rxSeq
  capsTaken : e'.capsTaken = e.capsTaken
  commitReceived : e'.commitReceived = e.commitReceived
  capsWritten : e'.capsWritten cfg = e.capsWritten cfg
  payload : e'.cutoverCommitPayload cfg = e.cutoverCommitPayload cfg
  kind : (commitPrefix.isPrefixOf plaintext = false ∧ e'.commitWritten = e.commitWritten) ∨
    (e.OwesCommit cfg ∧ e.cutoverCommitPayload cfg = some plaintext ∧
      e.commitWritten = false ∧ e'.commitWritten = true)

/-- What a resumed send does: nothing on the wire, or one frame. -/
inductive Resumes (cfg : Config) (e e' : Endpoint) : List Frame → Prop where
  | quiet (quiet : Quiet cfg e e') : Resumes cfg e e' []
  | legacy {plaintext : Bytes} (writes : WritesLegacy cfg e e' plaintext) :
      Resumes cfg e e' [.legacy e.txSeq plaintext]
  | ratchet {plaintext : Bytes} (writes : WritesRatchet cfg e e' plaintext) :
      Resumes cfg e e' [.ratchet plaintext]

theorem legacyWrite_writes (sound : e.Sound cfg) {message : Message}
    (stage : e.sending = some (.legacyWrite message)) {e' : Endpoint}
    (result : e' = { e with txSeq := e.txSeq + 1, sending := some (.legacyDrain message) }) :
    e'.Sound cfg ∧ WritesLegacy cfg e e' message.bytes := by
  subst result
  have unsent : e.capsSent = false := sound.stage _ stage
  have inactive := inactive_of_unsent sound unsent
  refine ⟨{ sound with
    txFinal := fun sent => absurd sent (by simp [unsent])
    stage := fun s entered => ?_ }, ?_⟩
  · cases entered
    exact unsent
  · refine ⟨?_, inactive, rfl, rfl, rfl, rfl, rfl, ?_, ?_⟩
    · simp [capsWritten, unsent, stage]
    · simp [capsWritten, unsent]
    · simp [commitWritten, stage]

theorem commitWrite_writes (sound : e.Sound cfg) {payload : Bytes} {next : Option Message}
    (stage : e.sending = some (.commitWrite payload next)) :
    Sound cfg { e with sending := some (.commitDrain next) } ∧
      WritesRatchet cfg e { e with sending := some (.commitDrain next) } payload := by
  obtain ⟨owes, made⟩ : e.OwesCommit cfg ∧ e.cutoverCommitPayload cfg = some payload :=
    sound.stage _ stage
  refine ⟨{ sound with stage := fun s entered => ?_ }, ?_⟩
  · cases entered
    exact owes
  · refine ⟨owes.1, owes.1, rfl, rfl, rfl, rfl, rfl, ?_, rfl, .inr ⟨owes, made, ?_, ?_⟩⟩
    · simp [capsWritten, stage]
    · simp [commitWritten, stage, owes.2.2.2]
    · simp [commitWritten]

theorem ratchetWrite_writes (sound : e.Sound cfg) {message : Message}
    (stage : e.sending = some (.ratchetWrite message)) :
    Sound cfg { e with sending := some (.ratchetDrain message) } ∧
      WritesRatchet cfg e { e with sending := some (.ratchetDrain message) } message.bytes := by
  have active : e.drState.isSome := sound.stage _ stage
  refine ⟨{ sound with stage := fun s entered => ?_ }, ?_⟩
  · cases entered
    exact active
  · refine ⟨active, active, rfl, rfl, rfl, rfl, rfl, ?_, rfl, .inl ⟨message.notCommit, ?_⟩⟩
    · simp [capsWritten, stage]
    · simp [commitWritten, stage]

/-- The commit's send returns and the message it made way for is next. -/
theorem commitDrain_quiet (sound : e.Sound cfg) {next : Option Message}
    (stage : e.sending = some (.commitDrain next)) {e' : Endpoint}
    (result : e' = { e with commitSent := true, sending := next.map .ratchetWrite }) :
    e'.Sound cfg ∧ Quiet cfg e e' := by
  subst result
  obtain ⟨active, alice, capable, unsent⟩ : e.OwesCommit cfg := sound.stage _ stage
  refine ⟨{ sound with
    commitSent := fun _ => ⟨active, alice, capable⟩
    stage := fun s entered => ?_ }, ?_⟩
  · cases next with
    | none => cases entered
    | some message =>
      cases entered
      exact active
  · refine ⟨rfl, rfl, rfl, rfl, rfl, ?_, ?_, fun active => ⟨active, rfl⟩⟩
    · cases next <;> simp [capsWritten, stage]
    · simp [commitWritten, stage]

theorem resumeSend_cases (sound : e.Sound cfg) :
    (e.resumeSend cfg).1.Sound cfg ∧
      Resumes cfg e (e.resumeSend cfg).1 (e.resumeSend cfg).2 := by
  have waiting (stage : Option Stage) (enters : Enters cfg e stage)
      (leaves : Enters cfg e e.sending) :
      Sound cfg { e with sending := stage } ∧ Resumes cfg e { e with sending := stage } [] :=
    ⟨sound.enter enters, .quiet (.enter enters leaves)⟩
  rw [resumeSend]
  split
  · exact ⟨sound, .quiet (.refl e)⟩
  · next message stage =>
      split
      · next negotiated =>
          refine waiting _ ?_ (by rw [stage]; exact enters_some trivial (by simp) (by simp))
          exact resolveOutboundMode_enters sound (fun _ => sound.negotiated negotiated) message
      · exact ⟨sound, .quiet (.refl e)⟩
  · next message stage =>
      have active : e.drState.isSome := sound.stage _ stage
      split
      · refine waiting _ ?_ (by rw [stage]; exact enters_some active (by simp) (by simp))
        split
        · exact sendInMode_enters sound (by simp [active]) message
        · exact enters_none
      · exact ⟨sound, .quiet (.refl e)⟩
  · next message stage =>
      obtain ⟨sound', writes⟩ := legacyWrite_writes sound stage rfl
      exact ⟨sound', .legacy writes⟩
  · next message stage =>
      obtain ⟨sound', quiet⟩ := returnFromLegacy_quiet sound stage
      exact ⟨sound', .quiet quiet⟩
  · next payload next stage =>
      obtain ⟨sound', writes⟩ := commitWrite_writes sound stage
      exact ⟨sound', .ratchet writes⟩
  · next next stage =>
      obtain ⟨sound', quiet⟩ := commitDrain_quiet sound stage rfl
      exact ⟨sound', .quiet quiet⟩
  · next message stage =>
      obtain ⟨sound', writes⟩ := ratchetWrite_writes sound stage
      exact ⟨sound', .ratchet writes⟩
  · next message stage =>
      obtain ⟨sound', quiet⟩ := returnFromRatchet_quiet sound stage
      exact ⟨sound', .quiet quiet⟩

/-! ## What a receive does -/

theorem taken_of_active (sound : e.Sound cfg) (active : e.drState.isSome) : e.capsTaken = true :=
  sound.taken (sound.active active).2.1

theorem inactive_of_untaken (sound : e.Sound cfg) (untaken : e.capsTaken = false) :
    e.drState.isSome = false := by
  cases state : e.drState.isSome with
  | false => rfl
  | true => exact absurd (taken_of_active sound state) (by simp [untaken])

/-- The legacy path takes the next legacy frame. -/
theorem recvLegacy_sound (sound : e.Sound cfg) (untaken : e.capsTaken = false)
    (plaintext : Bytes) : (e.recvLegacy cfg (.legacy e.rxSeq plaintext)).Sound cfg := by
  rw [recvLegacy, if_pos rfl]
  have inactive : ¬ e.drState.isSome := by simp [inactive_of_untaken sound untaken]
  exact { sound with
    taken := fun received => absurd (sound.taken received) (by simp [untaken])
    active := fun active => absurd active inactive
    stage := fun stage entered => by
      have known := sound.stage stage entered
      cases stage with
      | commitWrite => exact absurd known.1.1 inactive
      | _ => exact known
    legacyRecv := fun impossible => by cases impossible
    ratchetRecv := fun impossible => by cases impossible }

/-- A ratchet frame authenticates and releases the queued sends. -/
theorem releaseSends_quiet (sound : e.Sound cfg) (active : e.drState.isSome) :
    (releaseSends { e with drState := some ⟨true⟩ }).Sound cfg ∧
      Quiet cfg e (releaseSends { e with drState := some ⟨true⟩ }) := by
  have opened : Sound cfg { e with drState := some ⟨true⟩ } :=
    { sound with
      active := fun _ => sound.active active
      commitSent := fun sent => ⟨rfl, (sound.commitSent sent).2⟩
      commitReceived := fun _ => rfl
      stage := fun stage entered => by
        have known := sound.stage stage entered
        cases stage with
        | awaitReady | ratchetWrite | ratchetDrain => exact rfl
        | commitWrite => exact ⟨⟨rfl, known.1.2⟩, known.2⟩
        | commitDrain => exact ⟨rfl, known.2⟩
        | _ => exact known
      ratchetRecv := fun _ => rfl }
  rw [releaseSends]
  split
  · refine ⟨{ opened with stage := opened.stages rfl rfl rfl rfl rfl rfl rfl }, ?_⟩
    · exact .of_eq rfl rfl rfl rfl rfl rfl rfl rfl fun _ => ⟨rfl, rfl⟩
  · exact ⟨opened, .of_eq rfl rfl rfl rfl rfl rfl rfl rfl fun _ => ⟨rfl, rfl⟩⟩

/-- What the ratchet path does with a ratchet frame whose commit, if it is one, is
accepted. -/
structure ReadsRatchet (cfg : Config) (e e' : Endpoint) (plaintext : Bytes) : Prop where
  sound : e'.Sound cfg
  quiet : Quiet cfg e { e' with commitReceived := e.commitReceived }
  commitReceived : e'.commitReceived = e.commitReceived ∨ commitPrefix.isPrefixOf plaintext = true

theorem recvRatchet_reads (sound : e.Sound cfg) (active : e.drState.isSome) (opens : Bool)
    {plaintext : Bytes}
    (accepted : commitPrefix.isPrefixOf plaintext = true →
      acceptCommit cfg { e with drState := some ⟨true⟩ } plaintext = .ok ()) :
    ReadsRatchet cfg e (e.recvRatchet cfg opens (.ratchet plaintext)).1 plaintext ∧
      (e.recvRatchet cfg opens (.ratchet plaintext)).2 = [] := by
  obtain ⟨released, quiet⟩ := releaseSends_quiet sound active
  have taken : e.capsTaken = true := taken_of_active sound active
  rw [recvRatchet]
  split
  · split
    · next isCommit =>
        simp only [accepted isCommit]
        refine ⟨⟨{ released with
          commitReceived := fun _ => (quiet.active active).1
          stage := released.stages rfl rfl rfl rfl rfl rfl rfl }, ?_, .inr isCommit⟩, trivial⟩
        · exact { quiet with commitReceived := rfl }
    · refine ⟨⟨{ released with
        taken := fun _ => by simp [taken]
        stage := released.stages rfl rfl rfl rfl rfl rfl rfl
        legacyRecv := fun impossible => by cases impossible
        ratchetRecv := fun impossible => by cases impossible }, ?_, .inl ?_⟩, rfl⟩
      · exact { quiet with capsTaken := by simp [taken], commitReceived := rfl }
      · exact quiet.commitReceived
  · refine ⟨⟨{ sound with
      stage := sound.stages rfl rfl rfl rfl rfl rfl rfl
      legacyRecv := fun impossible => by cases impossible
      ratchetRecv := fun impossible => by cases impossible }, ?_, .inl rfl⟩, rfl⟩
    · exact .of_eq rfl rfl rfl rfl rfl rfl rfl rfl fun active => ⟨active, rfl⟩

/-- Once the ratchet is active the legacy counters stand still. -/
def Frozen (e e' : Endpoint) : Prop :=
  e.drState.isSome → e'.txSeq = e.txSeq ∧ e'.rxSeq = e.rxSeq ∧ e'.drState.isSome

theorem Quiet.frozen {e' : Endpoint} (quiet : Quiet cfg e e') : Frozen e e' :=
  fun active => ⟨quiet.txSeq, quiet.rxSeq, (quiet.active active).1⟩

theorem Resumes.frozen {e' : Endpoint} {frames : List Frame} (resumes : Resumes cfg e e' frames) :
    Frozen e e' := by
  intro active
  cases resumes with
  | quiet quiet => exact quiet.frozen active
  | legacy writes => exact absurd active (by simp [writes.inactive])
  | ratchet writes => exact ⟨writes.txSeq, writes.rxSeq, writes.active'⟩

end Endpoint

end OneLink.Channel
