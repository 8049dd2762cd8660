/-
# PairQr.Machines -- the inviter and the scanner

A call takes the session and returns its result with the session after it, so
that what a failed call leaves behind is part of the model.  Each call's `_cases`
lemma says once what it can do; a failed call leaves the session as it was
(`Inviter.receiveResponse_cases` and its likes).
-/
import OneLink.PairQr.Keys

namespace OneLink.PairQr

set_option autoImplicit false

open Library

/-- The all-zero shared secret of a small-order public key. -/
def allZero (ss : Octets 32) : Bool := ss.val.all (· == 0)

/-! ## The inviter -/

inductive InviterState where
  | awaitingResponse
  | awaitingUserConfirm
  | awaitingFactor2Ack
  | done
  | aborted
deriving DecidableEq, Repr

structure Inviter (C : Crypto) where
  idSigning : C.SigningKey
  ephemeralSecret : Option C.StaticSecret
  invite : Invite
  state : InviterState
  response : Option PairResponse
  transcript : Option TranscriptHash
  sas : Option Sas
  pendingChainKey : Option ChainKey

namespace Inviter

variable {C : Crypto}

/-- `Inviter::new`, with the randomness it draws. -/
def new (idSigning : C.SigningKey) (ephemeralSecret : C.StaticSecret) (nonce : Octets 32)
    (expiryUnix : UInt64) (scope : CapabilityScope) : Inviter C where
  idSigning := idSigning
  ephemeralSecret := some ephemeralSecret
  invite := Invite.sign C idSigning (C.publicKey ephemeralSecret) nonce expiryUnix scope
  state := .awaitingResponse
  response := none
  transcript := none
  sas := none
  pendingChainKey := none

/-- `Inviter::invite_bytes`. -/
def inviteBytes (self : Inviter C) : Bytes := self.invite.encode

/-- `Inviter::receive_response`. -/
def receiveResponse (self : Inviter C) (responseBytes : Bytes) :
    Except PairError Sas × Inviter C :=
  if self.state ≠ .awaitingResponse then (.error .wrongState, self)
  else
    match PairResponse.decodeAndVerify C responseBytes self.invite.bodyBytes with
    | .error e => (.error e, self)
    | .ok response =>
      match self.ephemeralSecret with
      | none => (.error (.internal "ephemeral_secret missing"), self)
      | some esk =>
        let ss := C.diffieHellman esk response.ephemeralX25519Pk
        if allZero ss then (.error .smallOrderPubkey, self)
        else
          let t := transcriptHash C self.invite response
          let sas := Sas.derive C t
          (.ok sas,
            { self with
              response := some response
              transcript := some t
              sas := some sas
              pendingChainKey := some (deriveChainKey C t ss)
              state := .awaitingUserConfirm })

/-- `Inviter::confirm`. -/
def confirm (self : Inviter C) : Except PairError (Bytes × ChainKey) × Inviter C :=
  if self.state ≠ .awaitingUserConfirm then (.error .wrongState, self)
  else
    match self.transcript with
    | none => (.error (.internal "transcript missing"), self)
    | some t =>
      match self.pendingChainKey with
      | none => (.error (.internal "chain_key missing"), { self with pendingChainKey := none })
      | some chainKey =>
        (.ok ((PairConfirm.sign C self.idSigning t).encode, chainKey),
          { self with pendingChainKey := none, state := .done, ephemeralSecret := none })

/-- `Inviter::confirm_with_factor2`. -/
def confirmWithFactor2 (self : Inviter C) (factor2Key : Octets 32) :
    Except PairError Bytes × Inviter C :=
  if self.state ≠ .awaitingUserConfirm then (.error .wrongState, self)
  else
    match self.transcript with
    | none => (.error (.internal "transcript missing"), self)
    | some t =>
      match self.pendingChainKey with
      | none => (.error (.internal "chain_key missing"), { self with pendingChainKey := none })
      | some baseChainKey =>
        let finalChainKey := mixFactor2Recip C baseChainKey factor2Key
        let tag := factor2ConfirmationTag C finalChainKey t .inviter
        (.ok ((PairConfirm.sign C self.idSigning t).encode ++ tag.val),
          { self with
            pendingChainKey := some finalChainKey
            state := .awaitingFactor2Ack
            ephemeralSecret := none })

/-- `Inviter::receive_factor2_ack`. -/
def receiveFactor2Ack (self : Inviter C) (ack : Bytes) : Except PairError ChainKey × Inviter C :=
  if self.state ≠ .awaitingFactor2Ack then (.error .wrongState, self)
  else if ack.length ≠ 32 then (.error (.badFactor2ConfirmationLen 32 ack.length), self)
  else
    match self.transcript with
    | none => (.error (.internal "transcript missing"), self)
    | some t =>
      match self.pendingChainKey with
      | none => (.error (.internal "chain_key missing"), self)
      | some chainKey =>
        if (factor2ConfirmationTag C chainKey t .scanner).val ≠ ack then
          (.error .factor2KeyConfirmationFailed, self)
        else (.ok chainKey, { self with pendingChainKey := none, state := .done })

/-- `Inviter::abort`. -/
def abort (self : Inviter C) : Inviter C :=
  { self with state := .aborted, ephemeralSecret := none, pendingChainKey := none }

/-! ### What a call does -/

theorem receiveResponse_cases (self : Inviter C) (responseBytes : Bytes) :
    (∃ e, self.receiveResponse responseBytes = (.error e, self)) ∨
      ∃ response esk, self.state = .awaitingResponse ∧ self.ephemeralSecret = some esk ∧
        PairResponse.decodeAndVerify C responseBytes self.invite.bodyBytes = .ok response ∧
        self.receiveResponse responseBytes =
          (.ok (Sas.derive C (transcriptHash C self.invite response)),
            { self with
              response := some response
              transcript := some (transcriptHash C self.invite response)
              sas := some (Sas.derive C (transcriptHash C self.invite response))
              pendingChainKey := some (deriveChainKey C (transcriptHash C self.invite response)
                (C.diffieHellman esk response.ephemeralX25519Pk))
              state := .awaitingUserConfirm }) := by
  by_cases awaiting : self.state = .awaitingResponse
  · cases decoded : PairResponse.decodeAndVerify C responseBytes self.invite.bodyBytes with
    | error e => exact .inl ⟨e, by simp [receiveResponse, awaiting, decoded]⟩
    | ok response =>
      cases secret : self.ephemeralSecret with
      | none => exact .inl ⟨_, by simp [receiveResponse, awaiting, decoded, secret]; rfl⟩
      | some esk =>
        by_cases zero : allZero (C.diffieHellman esk response.ephemeralX25519Pk) = true
        · exact .inl ⟨_, by simp [receiveResponse, awaiting, decoded, secret, zero]; rfl⟩
        · exact .inr ⟨response, esk, awaiting, rfl, rfl, by
            simp [receiveResponse, awaiting, decoded, secret, zero]⟩
  · exact .inl ⟨_, by rw [receiveResponse, if_pos awaiting]⟩

theorem confirm_cases (self : Inviter C) :
    (∃ e, self.confirm = (.error e, self)) ∨
      ∃ t chainKey, self.state = .awaitingUserConfirm ∧ self.transcript = some t ∧
        self.pendingChainKey = some chainKey ∧
        self.confirm = (.ok ((PairConfirm.sign C self.idSigning t).encode, chainKey),
          { self with pendingChainKey := none, state := .done, ephemeralSecret := none }) := by
  unfold confirm
  split
  · exact .inl ⟨_, rfl⟩
  · next awaiting =>
    split
    · exact .inl ⟨_, rfl⟩
    · next t transcript =>
      split
      · next pending =>
        refine .inl ⟨.internal "chain_key missing", ?_⟩
        rw [← pending]
      · next chainKey pending =>
        exact .inr ⟨t, chainKey, Decidable.not_not.mp awaiting, transcript, pending, rfl⟩

theorem confirmWithFactor2_cases (self : Inviter C) (factor2Key : Octets 32) :
    (∃ e, self.confirmWithFactor2 factor2Key = (.error e, self)) ∨
      ∃ t base, self.state = .awaitingUserConfirm ∧ self.transcript = some t ∧
        self.pendingChainKey = some base ∧
        self.confirmWithFactor2 factor2Key =
          (.ok ((PairConfirm.sign C self.idSigning t).encode ++
              (factor2ConfirmationTag C (mixFactor2Recip C base factor2Key) t .inviter).val),
            { self with
              pendingChainKey := some (mixFactor2Recip C base factor2Key)
              state := .awaitingFactor2Ack
              ephemeralSecret := none }) := by
  unfold confirmWithFactor2
  split
  · exact .inl ⟨_, rfl⟩
  · next awaiting =>
    split
    · exact .inl ⟨_, rfl⟩
    · next t transcript =>
      split
      · next pending =>
        refine .inl ⟨.internal "chain_key missing", ?_⟩
        rw [← pending]
      · next base pending =>
        exact .inr ⟨t, base, Decidable.not_not.mp awaiting, transcript, pending, rfl⟩

theorem receiveFactor2Ack_cases (self : Inviter C) (ack : Bytes) :
    (∃ e, self.receiveFactor2Ack ack = (.error e, self)) ∨
      ∃ t chainKey, self.state = .awaitingFactor2Ack ∧ self.transcript = some t ∧
        self.pendingChainKey = some chainKey ∧
        ack = (factor2ConfirmationTag C chainKey t .scanner).val ∧
        self.receiveFactor2Ack ack =
          (.ok chainKey, { self with pendingChainKey := none, state := .done }) := by
  unfold receiveFactor2Ack
  split
  · exact .inl ⟨_, rfl⟩
  · next awaiting =>
    split
    · exact .inl ⟨_, rfl⟩
    · split
      · exact .inl ⟨_, rfl⟩
      · next t transcript =>
        split
        · exact .inl ⟨_, rfl⟩
        · next chainKey pending =>
          split
          · exact .inl ⟨_, rfl⟩
          · next matched =>
            exact .inr ⟨t, chainKey, Decidable.not_not.mp awaiting, transcript, pending,
              (Decidable.not_not.mp matched).symm, rfl⟩

end Inviter

/-! ## The scanner -/

inductive ScannerState where
  | awaitingConfirm
  | done
  | aborted
deriving DecidableEq, Repr

structure Scanner (C : Crypto) where
  idSigning : C.SigningKey
  ephemeralSecret : Option C.StaticSecret
  invite : Invite
  response : PairResponse
  transcript : TranscriptHash
  sas : Sas
  pendingChainKey : Option ChainKey
  state : ScannerState

namespace Scanner

variable {C : Crypto}

/-- The response a scanner sends to an invite. -/
def respond (idSigning : C.SigningKey) (ephemeralSecret : C.StaticSecret) (nonce : Octets 32)
    (invite : Invite) : PairResponse :=
  PairResponse.signForTranscript C idSigning (C.publicKey ephemeralSecret) nonce invite.bodyBytes

/-- The session `Scanner::scan` returns. -/
def started (idSigning : C.SigningKey) (ephemeralSecret : C.StaticSecret) (nonce : Octets 32)
    (invite : Invite) : Scanner C :=
  let response := respond idSigning ephemeralSecret nonce invite
  let t := transcriptHash C invite response
  { idSigning := idSigning
    ephemeralSecret := some ephemeralSecret
    invite := invite
    response := response
    transcript := t
    sas := Sas.derive C t
    pendingChainKey :=
      some (deriveChainKey C t (C.diffieHellman ephemeralSecret invite.ephemeralX25519Pk))
    state := .awaitingConfirm }

/-- `Scanner::scan`, with the randomness it draws. -/
def scan (idSigning : C.SigningKey) (inviteBytes : Bytes) (nowUnix : UInt64)
    (ephemeralSecret : C.StaticSecret) (nonce : Octets 32) :
    Except PairError (Scanner C × Bytes) := do
  let invite ← Invite.decodeAndVerify C inviteBytes
  invite.checkNotExpired nowUnix
  require (¬ allZero (C.diffieHellman ephemeralSecret invite.ephemeralX25519Pk)) .smallOrderPubkey
  let self := started idSigning ephemeralSecret nonce invite
  .ok (self, self.response.encode)

/-- `Scanner::receive_confirm`. -/
def receiveConfirm (self : Scanner C) (confirmBytes : Bytes) :
    Except PairError ChainKey × Scanner C :=
  if self.state ≠ .awaitingConfirm then (.error .wrongState, self)
  else
    match PairConfirm.decodeAndVerify C confirmBytes self.invite.idPubkey self.transcript with
    | .error e => (.error e, self)
    | .ok _ =>
      match self.pendingChainKey with
      | none => (.error (.internal "chain_key missing"), { self with pendingChainKey := none })
      | some chainKey =>
        (.ok chainKey,
          { self with pendingChainKey := none, state := .done, ephemeralSecret := none })

/-- `Scanner::receive_confirm_with_factor2`. -/
def receiveConfirmWithFactor2 (self : Scanner C) (confirmBytes : Bytes) (factor2Key : Octets 32) :
    Except PairError (Bytes × ChainKey) × Scanner C :=
  if confirmBytes.length ≠ confirmEncodedBytes + 32 then
    (.error (.badFactor2ConfirmationLen (confirmEncodedBytes + 32) confirmBytes.length), self)
  else if self.state ≠ .awaitingConfirm then (.error .wrongState, self)
  else
    match PairConfirm.decodeAndVerify C (confirmBytes.take confirmEncodedBytes)
        self.invite.idPubkey self.transcript with
    | .error e => (.error e, self)
    | .ok _ =>
      match self.pendingChainKey with
      | none => (.error (.internal "chain_key missing"), self)
      | some baseChainKey =>
        let finalChainKey := mixFactor2Recip C baseChainKey factor2Key
        let expectedTag := factor2ConfirmationTag C finalChainKey self.transcript .inviter
        if expectedTag.val ≠ confirmBytes.drop confirmEncodedBytes then
          (.error .factor2KeyConfirmationFailed, self)
        else
          (.ok ((factor2ConfirmationTag C finalChainKey self.transcript .scanner).val,
              finalChainKey),
            { self with pendingChainKey := none, state := .done, ephemeralSecret := none })

/-- `Scanner::abort`. -/
def abort (self : Scanner C) : Scanner C :=
  { self with state := .aborted, ephemeralSecret := none, pendingChainKey := none }

/-! ### What a call does -/

theorem scan_eq_ok {idSigning : C.SigningKey} {inviteBytes : Bytes} {nowUnix : UInt64}
    {ephemeralSecret : C.StaticSecret} {nonce : Octets 32} {self : Scanner C} {reply : Bytes}
    (ok : scan idSigning inviteBytes nowUnix ephemeralSecret nonce = .ok (self, reply)) :
    ∃ invite, Invite.decodeRaw inviteBytes = .ok invite ∧
      C.verify invite.idPubkey invite.bodyBytes invite.signature = true ∧
      self = started idSigning ephemeralSecret nonce invite ∧ reply = self.response.encode := by
  simp only [scan, Invite.checkNotExpired, bind_eq_ok, require_eq_ok, exists_const,
    Except.ok.injEq, Prod.mk.injEq] at ok
  obtain ⟨invite, decoded, -, -, rfl, rfl⟩ := ok
  obtain ⟨raw, genuine⟩ := Invite.decodeAndVerify_eq_ok decoded
  exact ⟨invite, raw, genuine, rfl, rfl⟩

theorem receiveConfirm_cases (self : Scanner C) (confirmBytes : Bytes) :
    (∃ e, self.receiveConfirm confirmBytes = (.error e, self)) ∨
      ∃ conf chainKey, self.state = .awaitingConfirm ∧ self.pendingChainKey = some chainKey ∧
        PairConfirm.decodeAndVerify C confirmBytes self.invite.idPubkey self.transcript =
          .ok conf ∧
        self.receiveConfirm confirmBytes = (.ok chainKey,
          { self with pendingChainKey := none, state := .done, ephemeralSecret := none }) := by
  unfold receiveConfirm
  split
  · exact .inl ⟨_, rfl⟩
  · next awaiting =>
    split
    · exact .inl ⟨_, rfl⟩
    · next conf decoded =>
      split
      · next pending =>
        refine .inl ⟨.internal "chain_key missing", ?_⟩
        rw [← pending]
      · next chainKey pending =>
        exact .inr ⟨conf, chainKey, Decidable.not_not.mp awaiting, pending, decoded, rfl⟩

theorem receiveConfirmWithFactor2_cases (self : Scanner C) (confirmBytes : Bytes)
    (factor2Key : Octets 32) :
    (∃ e, self.receiveConfirmWithFactor2 confirmBytes factor2Key = (.error e, self)) ∨
      ∃ conf base, self.state = .awaitingConfirm ∧ self.pendingChainKey = some base ∧
        PairConfirm.decodeAndVerify C (confirmBytes.take confirmEncodedBytes)
          self.invite.idPubkey self.transcript = .ok conf ∧
        (factor2ConfirmationTag C (mixFactor2Recip C base factor2Key) self.transcript
          .inviter).val = confirmBytes.drop confirmEncodedBytes ∧
        self.receiveConfirmWithFactor2 confirmBytes factor2Key =
          (.ok ((factor2ConfirmationTag C (mixFactor2Recip C base factor2Key) self.transcript
              .scanner).val, mixFactor2Recip C base factor2Key),
            { self with pendingChainKey := none, state := .done, ephemeralSecret := none }) := by
  unfold receiveConfirmWithFactor2
  split
  · exact .inl ⟨_, rfl⟩
  · split
    · exact .inl ⟨_, rfl⟩
    · next awaiting =>
      split
      · exact .inl ⟨_, rfl⟩
      · next conf decoded =>
        split
        · exact .inl ⟨_, rfl⟩
        · next base pending =>
          simp only []
          split
          · exact .inl ⟨_, rfl⟩
          · next matched =>
            exact .inr ⟨conf, base, Decidable.not_not.mp awaiting, pending, decoded,
              Decidable.not_not.mp matched, rfl⟩

end Scanner

end OneLink.PairQr
