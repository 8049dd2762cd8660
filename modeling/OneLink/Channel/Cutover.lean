/-
# Channel.Cutover — from the legacy key to the ratchet

Two endpoints of one channel, a FIFO stream of frames in each direction, and the
tasks of `SecureChannel` cut at their `await`s: a send holds the send lock from its
first step to its last and is at one `Stage`; the receive loop is idle between two
calls of `recv` or suspended in `read_frame` on one of its two paths.

AEAD is ideal: a legacy frame opens under its own sequence number and nothing else
does; a ratchet frame opens on the ratchet path, or `decrypt` raises there (`opens`).
Opening the first ratchet frame gives the responder its sending chain.
-/
import OneLink.DoubleRatchet.Session

namespace OneLink.Channel

open Library
open OneLink.DoubleRatchet (Party)

set_option autoImplicit false

/-- `DR_CUTOVER_COMMIT_PREFIX` -/
def commitPrefix : Bytes := 0 :: ascii "OL1|DR-CUTOVER-COMMIT|v2|"

/-- What the daemon hands to `send`: JSON objects and binary frames, neither of which
starts like a cutover commit. -/
structure Message where
  bytes : Bytes
  notCommit : commitPrefix.isPrefixOf bytes = false
  deriving DecidableEq

/-- What both endpoints share: the transcript hash, whether both advertise
`DR_CUTOVER_CAP` beside `DR_CAP`, and which messages the daemon reads as CAPS. -/
structure Config where
  transcriptHash : Bytes
  transcript_length : transcriptHash.length = 32
  cutoverCap : Bool
  isCaps : Bytes → Bool

inductive Mode where
  | legacy
  | ratchet
  deriving DecidableEq

inductive Frame where
  | legacy (seq : Nat) (plaintext : Bytes)
  | ratchet (plaintext : Bytes)
  deriving DecidableEq

def Frame.mode : Frame → Mode
  | .legacy .. => .legacy
  | .ratchet _ => .ratchet

/-- A ratchet frame that `recv` takes for a cutover commit. -/
def Frame.isControl : Frame → Bool
  | .legacy .. => false
  | .ratchet plaintext => commitPrefix.isPrefixOf plaintext

/-- `_dr_cutover_phase` -/
inductive Phase where
  | legacy
  | ratchetReady
  | ratchetWaitPeer
  | failed
  | closed
  deriving DecidableEq

/-- Where the holder of the send lock waits.  `commitWrite` and `commitDrain` keep the
message that follows the commit, if the commit was sent on behalf of one. -/
inductive Stage where
  | awaitCaps (message : Message)
  | awaitReady (message : Message)
  | legacyWrite (message : Message)
  | legacyDrain (message : Message)
  | commitWrite (payload : Bytes) (next : Option Message)
  | commitDrain (next : Option Message)
  | ratchetWrite (message : Message)
  | ratchetDrain (message : Message)
  deriving DecidableEq

inductive Receiving where
  | idle
  | suspended (path : Mode)
  | stopped
  deriving DecidableEq

/-- The part of a `RatchetState` the cutover reads. -/
structure Ratchet where
  hasSendChain : Bool
  deriving DecidableEq

structure Endpoint where
  role : Party
  txSeq : Nat := 0
  rxSeq : Nat := 0
  capsSent : Bool := false
  capsReceived : Bool := false
  peerDrCapable : Bool := false
  peerDrCutoverCapable : Bool := false
  legacyTxFinalSeq : Option Nat := none
  legacyRxFinalSeq : Option Nat := none
  phase : Phase := .legacy
  closed : Bool := false
  capsNegotiated : Bool := false
  sendReady : Bool := false
  commitSent : Bool := false
  commitReceived : Bool := false
  drState : Option Ratchet := none
  sending : Option Stage := none
  receiving : Receiving := .idle
  /-- `recv` has returned the peer's CAPS. -/
  capsTaken : Bool := false
  deriving DecidableEq

/-! ## The commit -/

inductive CommitError where
  | malformed
  | transcriptMismatch
  | sequenceMismatch
  | unexpected
  | duplicate
  deriving DecidableEq

/-- `struct.pack(">QQ", tx, rx)`; raises on what does not fit in 64 bits. -/
def packBoundaries (tx rx : Nat) : Option Bytes :=
  if tx < 256 ^ 8 ∧ rx < 256 ^ 8 then some (beBytes 8 tx ++ beBytes 8 rx) else none

def unpackInteger (bytes : Bytes) : Nat := bytes.foldl (fun n b => n * 256 + b.toNat) 0

namespace Endpoint

variable (cfg : Config)

def cutoverCommitPayload (e : Endpoint) : Option Bytes := do
  let tx ← e.legacyTxFinalSeq
  let rx ← e.legacyRxFinalSeq
  let boundaries ← packBoundaries tx rx
  return commitPrefix ++ cfg.transcriptHash ++ boundaries

def validateCutoverCommit (e : Endpoint) (plaintext : Bytes) : Except CommitError Unit :=
  if plaintext.length ≠ commitPrefix.length + 32 + 16 then .error .malformed
  else
    let body := plaintext.drop commitPrefix.length
    if body.take 32 ≠ cfg.transcriptHash then .error .transcriptMismatch
    else
      let remoteTxFinal := unpackInteger ((body.drop 32).take 8)
      let remoteRxFinal := unpackInteger ((body.drop 32).drop 8)
      if some remoteTxFinal ≠ e.legacyRxFinalSeq ∨ some remoteRxFinal ≠ e.legacyTxFinalSeq then
        .error .sequenceMismatch
      else .ok ()

/-! ## CAPS and activation -/

/-- `note_caps_sent`; a repeat that would move the boundary raises. -/
def noteCapsSent (e : Endpoint) : Endpoint :=
  if e.capsSent then e
  else { e with legacyTxFinalSeq := some e.txSeq, capsSent := true }

/-- `note_caps_received` with the features of an honest peer. -/
def noteCapsReceived (e : Endpoint) : Endpoint :=
  if e.capsReceived then e
  else
    { e with
      peerDrCapable := true
      peerDrCutoverCapable := cfg.cutoverCap
      capsReceived := true
      capsNegotiated := true }

def failCutover (e : Endpoint) : Endpoint := { e with phase := .failed, sendReady := true }

def activated (e : Endpoint) : Endpoint :=
  { e with
    drState := some ⟨e.role = .alice⟩
    legacyRxFinalSeq := some e.rxSeq
    phase := if e.role = .alice then .ratchetReady else .ratchetWaitPeer
    sendReady := e.role = .alice }

/-- `maybe_activate_ratchet`; the handshake's bootstrap material is there until the
first activation. -/
def maybeActivateRatchet (e : Endpoint) : Endpoint :=
  if e.drState.isSome ∨ ¬ (e.capsSent ∧ e.capsReceived) ∨ ¬ e.peerDrCapable then e
  else if e.legacyTxFinalSeq ≠ some e.txSeq then e.failCutover
  else e.activated

/-! ## Sending -/

/-- `_can_send_ratchet` -/
def canSendRatchet (e : Endpoint) : Bool := e.drState.any Ratchet.hasSendChain

/-- `_send_cutover_commit_locked`, and then the message; `none` when it raises or has
nothing left to send. -/
def commitThen (e : Endpoint) (next : Option Message) : Option Stage :=
  if e.peerDrCutoverCapable ∧ e.role = .alice ∧ ¬ e.commitSent then
    if e.canSendRatchet then
      (e.cutoverCommitPayload cfg).map fun payload => .commitWrite payload next
    else none
  else next.map .ratchetWrite

/-- `send` behind `_wait_for_outbound_mode`. -/
def sendInMode (e : Endpoint) (message : Message) : Option Stage :=
  if e.drState.isSome then e.commitThen cfg (some message) else some (.legacyWrite message)

/-- `_wait_for_outbound_mode` behind its wait for the peer's CAPS. -/
def resolveOutboundMode (e : Endpoint) (message : Message) : Option Stage :=
  if e.closed then none
  else if e.capsSent ∧ e.capsReceived ∧ e.peerDrCapable then
    if e.drState.isNone then none
    else if e.phase = .ratchetWaitPeer then some (.awaitReady message)
    else if e.canSendRatchet then e.sendInMode cfg message
    else none
  else e.sendInMode cfg message

/-- `send`, up to its first wait. -/
def beginSend (e : Endpoint) (message : Message) : Option Stage :=
  if e.capsSent ∧ ¬ e.capsReceived then some (.awaitCaps message)
  else e.resolveOutboundMode cfg message

/-- `send_ratchet_cutover_commit`, up to its first wait. -/
def beginCommit (e : Endpoint) : Option Stage :=
  if e.closed then none else e.commitThen cfg none

/-- The send lock is released after the last frame; the daemon notes its CAPS in the
same step. -/
def returnFromSend (e : Endpoint) (message : Message) : Endpoint :=
  let released := { e with sending := none }
  if cfg.isCaps message.bytes then released.noteCapsSent else released

/-- The send lock's holder runs to its next wait, and what it writes. -/
def resumeSend (e : Endpoint) : Endpoint × List Frame :=
  match e.sending with
  | none => (e, [])
  | some (.awaitCaps message) =>
    if e.capsNegotiated then ({ e with sending := e.resolveOutboundMode cfg message }, [])
    else (e, [])
  | some (.awaitReady message) =>
    if e.sendReady then
      let goesOn := ¬ e.closed ∧ e.phase = .ratchetReady ∧ e.canSendRatchet
      ({ e with sending := if goesOn then e.sendInMode cfg message else none }, [])
    else (e, [])
  | some (.legacyWrite message) =>
    ({ e with txSeq := e.txSeq + 1, sending := some (.legacyDrain message) },
      [.legacy e.txSeq message.bytes])
  | some (.legacyDrain message) => (e.returnFromSend cfg message, [])
  | some (.commitWrite payload next) =>
    ({ e with sending := some (.commitDrain next) }, [.ratchet payload])
  | some (.commitDrain next) =>
    ({ e with commitSent := true, sending := next.map .ratchetWrite }, [])
  | some (.ratchetWrite message) =>
    ({ e with sending := some (.ratchetDrain message) }, [.ratchet message.bytes])
  | some (.ratchetDrain message) => (e.returnFromSend cfg message, [])

/-! ## Receiving -/

/-- `recv` up to its `read_frame`; it raises if the ratchet was negotiated and is not
there. -/
def recvPath (e : Endpoint) : Receiving :=
  if e.drState.isSome then .suspended .ratchet
  else if e.capsSent ∧ e.capsReceived ∧ e.peerDrCapable then .stopped
  else .suspended .legacy

/-- What the receive loop reports of a frame. -/
inductive Event where
  | decoded (who : Party) (sent used : Mode)
  | commitRejected (who : Party) (error : CommitError)
  deriving DecidableEq

/-- The checks of `recv` on a cutover commit. -/
def acceptCommit (e : Endpoint) (plaintext : Bytes) : Except CommitError Unit :=
  if ¬ e.peerDrCutoverCapable ∨ e.role ≠ .bob then .error .unexpected
  else if e.commitReceived then .error .duplicate
  else e.validateCutoverCommit cfg plaintext

/-- A refused commit raises; a failed validation also fails the cutover. -/
def refuseCommit (e : Endpoint) : CommitError → Endpoint
  | .unexpected | .duplicate => { e with receiving := .stopped }
  | .malformed | .transcriptMismatch | .sequenceMismatch =>
    { e.failCutover with receiving := .stopped }

/-- The legacy path of `recv` with a frame. -/
def recvLegacy (e : Endpoint) : Frame → Endpoint
  | .legacy seq plaintext =>
    if seq = e.rxSeq then
      { e with
        rxSeq := e.rxSeq + 1
        receiving := .idle
        capsTaken := e.capsTaken || cfg.isCaps plaintext }
    else { e with receiving := .stopped }
  | .ratchet _ => { e with receiving := .stopped }

/-- The first ratchet frame of the peer releases the responder's queued sends. -/
def releaseSends (e : Endpoint) : Endpoint :=
  if e.phase = .ratchetWaitPeer then { e with phase := .ratchetReady, sendReady := true } else e

/-- The ratchet path of `recv` with a frame; after a commit the loop reads on. -/
def recvRatchet (e : Endpoint) (opens : Bool) : Frame → Endpoint × List Event
  | .legacy .. => ({ e with receiving := .stopped }, [])
  | .ratchet plaintext =>
    if opens then
      let opened := { e with drState := some ⟨true⟩ }
      if commitPrefix.isPrefixOf plaintext then
        match opened.acceptCommit cfg plaintext with
        | .error error => (opened.refuseCommit error, [.commitRejected e.role error])
        | .ok () => ({ opened.releaseSends with commitReceived := true }, [])
      else
        ({ opened.releaseSends with
            receiving := .idle
            capsTaken := e.capsTaken || cfg.isCaps plaintext }, [])
    else ({ e with receiving := .stopped }, [])

/-- A frame reaches the suspended receive loop. -/
def readFrame (e : Endpoint) (opens : Bool) (frame : Frame) : Endpoint × List Event :=
  match e.receiving with
  | .suspended .legacy => (e.recvLegacy cfg frame, [.decoded e.role frame.mode .legacy])
  | .suspended .ratchet =>
    let (e', events) := e.recvRatchet cfg opens frame
    (e', .decoded e.role frame.mode .ratchet :: events)
  | _ => (e, [])

/-- `close` -/
def close (e : Endpoint) : Endpoint :=
  { e with closed := true, phase := .closed, capsNegotiated := true, sendReady := true }

end Endpoint

/-! ## The channel -/

/-- `wire p` holds the frames `p` wrote and its peer has not read. -/
structure Link where
  endpoint : Party → Endpoint
  wire : Party → List Frame
  log : List Endpoint.Event

inductive Action where
  | beginSend (who : Party) (message : Message)
  | beginCommit (who : Party)
  | resumeSend (who : Party)
  | noteCapsReceived (who : Party)
  | maybeActivateRatchet (who : Party)
  | beginRecv (who : Party)
  | readFrame (who : Party) (opens : Bool)
  | close (who : Party)

namespace Link

def start : Link where
  endpoint who := { role := who }
  wire _ := []
  log := []

def put (x : Link) (who : Party) (e : Endpoint) : Link :=
  { x with endpoint := Function.update x.endpoint who e }

variable (cfg : Config)

def step (x : Link) : Action → Link
  | .beginSend who message =>
    if (x.endpoint who).sending = none then
      x.put who { x.endpoint who with sending := (x.endpoint who).beginSend cfg message }
    else x
  | .beginCommit who =>
    if (x.endpoint who).sending = none then
      x.put who { x.endpoint who with sending := (x.endpoint who).beginCommit cfg }
    else x
  | .resumeSend who =>
    let (e, frames) := (x.endpoint who).resumeSend cfg
    { x.put who e with wire := Function.update x.wire who (x.wire who ++ frames) }
  | .noteCapsReceived who =>
    if (x.endpoint who).capsTaken then x.put who ((x.endpoint who).noteCapsReceived cfg) else x
  | .maybeActivateRatchet who => x.put who (x.endpoint who).maybeActivateRatchet
  | .beginRecv who =>
    if (x.endpoint who).receiving = .idle then
      x.put who { x.endpoint who with receiving := (x.endpoint who).recvPath }
    else x
  | .readFrame who opens =>
    match (x.endpoint who).receiving, x.wire who.peer with
    | .suspended _, frame :: rest =>
      let (e, events) := (x.endpoint who).readFrame cfg opens frame
      { endpoint := Function.update x.endpoint who e
        wire := Function.update x.wire who.peer rest
        log := x.log ++ events }
    | _, _ => x
  | .close who => x.put who (x.endpoint who).close

end Link

end OneLink.Channel
