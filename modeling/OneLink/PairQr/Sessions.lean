/-
# PairQr.Sessions -- many sessions at once

A session is a machine with the list of what it did.  `InviterSession.call_cases`
and `ScannerSession.call_cases` say what a call can do; from them come the two
session invariants, which tie what a session holds to what it did.  A world has
any number of sessions, whose calls come in any order with any bytes.
-/
import OneLink.PairQr.Completion
import OneLink.Library.Run
import Mathlib.Data.List.Basic
import Mathlib.Logic.Function.Basic

namespace OneLink.PairQr

set_option autoImplicit false

open Library

/-! ## Inviter sessions -/

inductive InviterEvent where
  /-- A response was accepted, and this chain key derived from it. -/
  | accepted (base : ChainKey)
  /-- A confirm was signed, with the Factor-2 key it was given. -/
  | confirmed (factor2 : Option (Octets 32))
  /-- `confirm` returned a key. -/
  | released (key : ChainKey)
  /-- `receive_factor2_ack` returned a key. -/
  | acked (key : ChainKey)
  | aborted
deriving DecidableEq

def InviterEvent.releases : InviterEvent → Bool
  | .released _ | .acked _ => true
  | _ => false

/-- No key is released after this event. -/
def InviterEvent.ends (e : InviterEvent) : Bool := e.releases || e == .aborted

structure InviterSession (C : Crypto) where
  machine : Inviter C
  events : List InviterEvent

inductive InviterCall where
  | receiveResponse (responseBytes : Bytes)
  | confirm
  | confirmWithFactor2 (factor2Key : Octets 32)
  | receiveFactor2Ack (ack : Bytes)
  | abort

/-- A call and what it adds to the session's events when it succeeds. -/
def InviterSession.call {C : Crypto} (a : InviterSession C) :
    InviterCall → Except PairError Unit × InviterSession C
  | .receiveResponse responseBytes =>
    match a.machine.receiveResponse responseBytes with
    | (.error e, m) => (.error e, ⟨m, a.events⟩)
    | (.ok _, m) => (.ok (), ⟨m, a.events ++ (m.pendingChainKey.map .accepted).toList⟩)
  | .confirm =>
    match a.machine.confirm with
    | (.error e, m) => (.error e, ⟨m, a.events⟩)
    | (.ok (_, key), m) => (.ok (), ⟨m, a.events ++ [.confirmed none, .released key]⟩)
  | .confirmWithFactor2 factor2Key =>
    match a.machine.confirmWithFactor2 factor2Key with
    | (.error e, m) => (.error e, ⟨m, a.events⟩)
    | (.ok _, m) => (.ok (), ⟨m, a.events ++ [.confirmed (some factor2Key)]⟩)
  | .receiveFactor2Ack ack =>
    match a.machine.receiveFactor2Ack ack with
    | (.error e, m) => (.error e, ⟨m, a.events⟩)
    | (.ok key, m) => (.ok (), ⟨m, a.events ++ [.acked key]⟩)
  | .abort => (.ok (), ⟨a.machine.abort, a.events ++ [.aborted]⟩)

/-- What a call does to an inviter session. -/
inductive InviterStep {C : Crypto} (a : InviterSession C) :
    InviterCall → InviterSession C → Prop where
  | failed (c : InviterCall) : InviterStep a c a
  | accept (bytes : Bytes) (response : PairResponse) (esk : C.StaticSecret)
      (awaiting : a.machine.state = .awaitingResponse)
      (secret : a.machine.ephemeralSecret = some esk)
      (decoded : PairResponse.decodeAndVerify C bytes a.machine.invite.bodyBytes = .ok response) :
      InviterStep a (.receiveResponse bytes)
        ⟨{ a.machine with
            response := some response
            transcript := some (transcriptHash C a.machine.invite response)
            sas := some (Sas.derive C (transcriptHash C a.machine.invite response))
            pendingChainKey := some (deriveChainKey C (transcriptHash C a.machine.invite response)
              (C.diffieHellman esk response.ephemeralX25519Pk))
            state := .awaitingUserConfirm },
          a.events ++ [.accepted (deriveChainKey C (transcriptHash C a.machine.invite response)
            (C.diffieHellman esk response.ephemeralX25519Pk))]⟩
  | confirm (t : TranscriptHash) (key : ChainKey)
      (awaiting : a.machine.state = .awaitingUserConfirm)
      (transcript : a.machine.transcript = some t) (pending : a.machine.pendingChainKey = some key) :
      InviterStep a .confirm
        ⟨{ a.machine with pendingChainKey := none, state := .done, ephemeralSecret := none },
          a.events ++ [.confirmed none, .released key]⟩
  | mix (factor2Key : Octets 32) (t : TranscriptHash) (base : ChainKey)
      (awaiting : a.machine.state = .awaitingUserConfirm)
      (transcript : a.machine.transcript = some t)
      (pending : a.machine.pendingChainKey = some base) :
      InviterStep a (.confirmWithFactor2 factor2Key)
        ⟨{ a.machine with
            pendingChainKey := some (mixFactor2Recip C base factor2Key)
            state := .awaitingFactor2Ack
            ephemeralSecret := none },
          a.events ++ [.confirmed (some factor2Key)]⟩
  | ack (bytes : Bytes) (t : TranscriptHash) (key : ChainKey)
      (awaiting : a.machine.state = .awaitingFactor2Ack)
      (transcript : a.machine.transcript = some t) (pending : a.machine.pendingChainKey = some key)
      (matched : bytes = (factor2ConfirmationTag C key t .scanner).val) :
      InviterStep a (.receiveFactor2Ack bytes)
        ⟨{ a.machine with pendingChainKey := none, state := .done }, a.events ++ [.acked key]⟩
  | abort : InviterStep a .abort ⟨a.machine.abort, a.events ++ [.aborted]⟩

/-- A call that fails leaves the session as it was; any other is one of the five steps. -/
theorem InviterSession.call_cases {C : Crypto} (a : InviterSession C) (c : InviterCall) :
    ((∃ e, a.call c = (.error e, a)) ∨ (a.call c).1 = .ok ()) ∧ InviterStep a c (a.call c).2 := by
  cases c with
  | receiveResponse bytes =>
    rcases a.machine.receiveResponse_cases bytes with
      ⟨e, failed⟩ | ⟨response, esk, awaiting, secret, decoded, done⟩
    · simp only [InviterSession.call, failed]
      exact ⟨.inl ⟨e, rfl⟩, .failed _⟩
    · simp only [InviterSession.call, done]
      exact ⟨.inr trivial, .accept bytes response esk awaiting secret decoded⟩
  | confirm =>
    rcases a.machine.confirm_cases with ⟨e, failed⟩ | ⟨t, key, awaiting, transcript, pending, done⟩
    · simp only [InviterSession.call, failed]
      exact ⟨.inl ⟨e, rfl⟩, .failed _⟩
    · simp only [InviterSession.call, done]
      exact ⟨.inr trivial, .confirm t key awaiting transcript pending⟩
  | confirmWithFactor2 factor2Key =>
    rcases a.machine.confirmWithFactor2_cases factor2Key with
      ⟨e, failed⟩ | ⟨t, base, awaiting, transcript, pending, done⟩
    · simp only [InviterSession.call, failed]
      exact ⟨.inl ⟨e, rfl⟩, .failed _⟩
    · simp only [InviterSession.call, done]
      exact ⟨.inr trivial, .mix factor2Key t base awaiting transcript pending⟩
  | receiveFactor2Ack ack =>
    rcases a.machine.receiveFactor2Ack_cases ack with
      ⟨e, failed⟩ | ⟨t, key, awaiting, transcript, pending, matched, done⟩
    · simp only [InviterSession.call, failed]
      exact ⟨.inl ⟨e, rfl⟩, .failed _⟩
    · simp only [InviterSession.call, done]
      exact ⟨.inr trivial, .ack ack t key awaiting transcript pending matched⟩
  | abort => exact ⟨.inr rfl, .abort⟩

/-! ## Scanner sessions -/

inductive ScannerEvent where
  /-- An invite was scanned, and this chain key derived from it. -/
  | scanned (base : ChainKey)
  /-- A key was returned, with the Factor-2 key the call was given. -/
  | released (factor2 : Option (Octets 32)) (key : ChainKey)
  | aborted
deriving DecidableEq

def ScannerEvent.releases : ScannerEvent → Bool
  | .released _ _ => true
  | _ => false

/-- No key is released after this event. -/
def ScannerEvent.ends (e : ScannerEvent) : Bool := e.releases || e == .aborted

structure ScannerSession (C : Crypto) where
  machine : Scanner C
  events : List ScannerEvent

inductive ScannerCall where
  | receiveConfirm (confirmBytes : Bytes)
  | receiveConfirmWithFactor2 (confirmBytes : Bytes) (factor2Key : Octets 32)
  | abort

/-- The signed part of the frame that a call was given. -/
def ScannerCall.signedConfirm : ScannerCall → Bytes
  | .receiveConfirm confirmBytes => confirmBytes
  | .receiveConfirmWithFactor2 confirmBytes _ => confirmBytes.take confirmEncodedBytes
  | .abort => []

def ScannerSession.call {C : Crypto} (b : ScannerSession C) :
    ScannerCall → Except PairError Unit × ScannerSession C
  | .receiveConfirm confirmBytes =>
    match b.machine.receiveConfirm confirmBytes with
    | (.error e, m) => (.error e, ⟨m, b.events⟩)
    | (.ok key, m) => (.ok (), ⟨m, b.events ++ [.released none key]⟩)
  | .receiveConfirmWithFactor2 confirmBytes factor2Key =>
    match b.machine.receiveConfirmWithFactor2 confirmBytes factor2Key with
    | (.error e, m) => (.error e, ⟨m, b.events⟩)
    | (.ok (_, key), m) => (.ok (), ⟨m, b.events ++ [.released (some factor2Key) key]⟩)
  | .abort => (.ok (), ⟨b.machine.abort, b.events ++ [.aborted]⟩)

/-- The key a release returns: the base key, mixed with the Factor-2 key if there is one. -/
def releasedKey (C : Crypto) (base : ChainKey) : Option (Octets 32) → ChainKey
  | none => base
  | some factor2Key => mixFactor2Recip C base factor2Key

/-- What a call does to a scanner session. -/
inductive ScannerStep {C : Crypto} (b : ScannerSession C) :
    ScannerCall → ScannerSession C → Prop where
  | failed (c : ScannerCall) : ScannerStep b c b
  | release (c : ScannerCall) (conf : PairConfirm) (base : ChainKey)
      (factor2 : Option (Octets 32)) (awaiting : b.machine.state = .awaitingConfirm)
      (pending : b.machine.pendingChainKey = some base)
      (decoded : PairConfirm.decodeAndVerify C c.signedConfirm b.machine.invite.idPubkey
        b.machine.transcript = .ok conf)
      (notAbort : c ≠ .abort) :
      ScannerStep b c
        ⟨{ b.machine with pendingChainKey := none, state := .done, ephemeralSecret := none },
          b.events ++ [.released factor2 (releasedKey C base factor2)]⟩
  | abort : ScannerStep b .abort ⟨b.machine.abort, b.events ++ [.aborted]⟩

/-- A call that fails leaves the session as it was; any other is a release or an abort. -/
theorem ScannerSession.call_cases {C : Crypto} (b : ScannerSession C) (c : ScannerCall) :
    ((∃ e, b.call c = (.error e, b)) ∨ (b.call c).1 = .ok ()) ∧ ScannerStep b c (b.call c).2 := by
  cases c with
  | receiveConfirm bytes =>
    rcases b.machine.receiveConfirm_cases bytes with
      ⟨e, failed⟩ | ⟨conf, key, awaiting, pending, decoded, done⟩
    · simp only [ScannerSession.call, failed]
      exact ⟨.inl ⟨e, rfl⟩, .failed _⟩
    · simp only [ScannerSession.call, done]
      exact ⟨.inr trivial,
        .release (.receiveConfirm bytes) conf key none awaiting pending decoded nofun⟩
  | receiveConfirmWithFactor2 bytes factor2Key =>
    rcases b.machine.receiveConfirmWithFactor2_cases bytes factor2Key with
      ⟨e, failed⟩ | ⟨conf, base, awaiting, pending, decoded, -, done⟩
    · simp only [ScannerSession.call, failed]
      exact ⟨.inl ⟨e, rfl⟩, .failed _⟩
    · simp only [ScannerSession.call, done]
      exact ⟨.inr trivial, .release (.receiveConfirmWithFactor2 bytes factor2Key) conf base
        (some factor2Key) awaiting pending decoded nofun⟩
  | abort => exact ⟨.inr rfl, .abort⟩

/-! ## Any number of sessions -/

/-- Identities and sessions with their randomness.  Every identity here is honest. -/
structure Setup (C : Crypto) (Id I S : Type) where
  signingKey : Id → C.SigningKey
  inviterId : I → Id
  inviterSecret : I → C.StaticSecret
  inviterNonce : I → Octets 32
  expiryUnix : I → UInt64
  scope : I → CapabilityScope
  scannerId : S → Id
  scannerSecret : S → C.StaticSecret
  scannerNonce : S → Octets 32

structure World (C : Crypto) (I S : Type) where
  inviters : I → InviterSession C
  scanners : S → Option (ScannerSession C)

/-- A call on one session, with whatever bytes the attacker hands it. -/
inductive Action (I S : Type) where
  | inviter (i : I) (c : InviterCall)
  | scan (s : S) (inviteBytes : Bytes) (nowUnix : UInt64)
  | scanner (s : S) (c : ScannerCall)

section Runs

variable {C : Crypto} {Id I S : Type} [DecidableEq I] [DecidableEq S]

/-- The verifying key of an identity. -/
def Setup.identity (σ : Setup C Id I S) (id : Id) : Octets 32 := C.verifyingKey (σ.signingKey id)

def Setup.newInviter (σ : Setup C Id I S) (i : I) : Inviter C :=
  Inviter.new (σ.signingKey (σ.inviterId i)) (σ.inviterSecret i) (σ.inviterNonce i)
    (σ.expiryUnix i) (σ.scope i)

def Setup.initial (σ : Setup C Id I S) : World C I S where
  inviters i := ⟨σ.newInviter i, []⟩
  scanners _ := none

/-- The session that `Scanner::scan` starts. -/
def Setup.scanned (σ : Setup C Id I S) (s : S) (inviteBytes : Bytes) (nowUnix : UInt64) :
    Option (ScannerSession C) :=
  match Scanner.scan (σ.signingKey (σ.scannerId s)) inviteBytes nowUnix (σ.scannerSecret s)
      (σ.scannerNonce s) with
  | .error _ => none
  | .ok (m, _) => some ⟨m, (m.pendingChainKey.map .scanned).toList⟩

def Setup.step (σ : Setup C Id I S) (w : World C I S) : Action I S → World C I S
  | .inviter i c => { w with inviters := Function.update w.inviters i ((w.inviters i).call c).2 }
  | .scan s inviteBytes nowUnix =>
    match w.scanners s with
    | some _ => w
    | none => { w with scanners := Function.update w.scanners s (σ.scanned s inviteBytes nowUnix) }
  | .scanner s c =>
    { w with
      scanners := Function.update w.scanners s ((w.scanners s).map fun b => (b.call c).2) }

end Runs

end OneLink.PairQr
