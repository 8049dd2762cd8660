/-
# PairQr.Completion -- when an honest pairing completes

`honestRun` hands every frame to the other side.  With correct primitives every
check after `Scanner::scan` passes, so the pairing completes exactly when the
scanner accepts the invite.  The scope may have `maxFieldBytes` bytes, but the
frame that carries it only `inviteMaxBytes`: a scope of more than 340 bytes
makes an invite that no scanner decodes.
-/
import OneLink.PairQr.Machines

namespace OneLink.PairQr

set_option autoImplicit false

open Library

/-- What Ed25519 and X25519 promise to honest users. -/
structure Crypto.Correct (C : Crypto) : Prop where
  signs : ∀ (signer : C.SigningKey) (message : Bytes),
    C.verify (C.verifyingKey signer) message (C.sign signer message) = true
  commutes : ∀ a b : C.StaticSecret,
    C.diffieHellman a (C.publicKey b) = C.diffieHellman b (C.publicKey a)

/-! ## The run -/

/-- The two sides of a pairing, their randomness and their Factor-2 key if they have one. -/
structure Parties (C : Crypto) where
  inviterSigning : C.SigningKey
  inviterSecret : C.StaticSecret
  inviterNonce : Octets 32
  expiryUnix : UInt64
  scope : CapabilityScope
  scannerSigning : C.SigningKey
  scannerSecret : C.StaticSecret
  scannerNonce : Octets 32
  nowUnix : UInt64
  factor2 : Option (Octets 32)

structure Outcome (C : Crypto) where
  inviter : Inviter C
  scanner : Scanner C
  inviterKey : ChainKey
  scannerKey : ChainKey

/-- A call's result together with the session it leaves, if it succeeded. -/
def succeeded {α σ : Type} (call : Except PairError α × σ) : Except PairError (α × σ) := do
  let result ← call.1
  .ok (result, call.2)

/-- One pairing with every frame handed on. -/
def honestRun {C : Crypto} (p : Parties C) : Except PairError (Outcome C) := do
  let inviter := Inviter.new p.inviterSigning p.inviterSecret p.inviterNonce p.expiryUnix p.scope
  let (scanner, response) ←
    Scanner.scan p.scannerSigning inviter.inviteBytes p.nowUnix p.scannerSecret p.scannerNonce
  let (_, inviter) ← succeeded (inviter.receiveResponse response)
  match p.factor2 with
  | none => do
    let ((frame, inviterKey), inviter) ← succeeded inviter.confirm
    let (scannerKey, scanner) ← succeeded (scanner.receiveConfirm frame)
    .ok ⟨inviter, scanner, inviterKey, scannerKey⟩
  | some factor2Key => do
    let (frame, inviter) ← succeeded (inviter.confirmWithFactor2 factor2Key)
    let ((ack, scannerKey), scanner) ←
      succeeded (scanner.receiveConfirmWithFactor2 frame factor2Key)
    let (inviterKey, inviter) ← succeeded (inviter.receiveFactor2Ack ack)
    .ok ⟨inviter, scanner, inviterKey, scannerKey⟩

/-- Both sides reach the end with the same strings, scope and key. -/
def Completes {C : Crypto} (p : Parties C) : Prop :=
  ∃ out, honestRun p = .ok out ∧ out.inviter.sas = some out.scanner.sas ∧
    out.scanner.invite.scope = p.scope ∧ out.inviter.state = .done ∧ out.scanner.state = .done ∧
    out.inviterKey = out.scannerKey

/-- The invite the inviter shows. -/
def Parties.invite {C : Crypto} (p : Parties C) : Invite :=
  Invite.sign C p.inviterSigning (C.publicKey p.inviterSecret) p.inviterNonce p.expiryUnix p.scope

/-! ## Signed frames are accepted -/

section Accepted

variable {C : Crypto}

theorem Invite.decodeAndVerify_sign (correct : C.Correct) (signer : C.SigningKey)
    (ephemeral nonce : Octets 32) (expiry : UInt64) (scope : CapabilityScope)
    (fits : (Invite.sign C signer ephemeral nonce expiry scope).encode.length ≤ inviteMaxBytes) :
    Invite.decodeAndVerify C (Invite.sign C signer ephemeral nonce expiry scope).encode =
      .ok (Invite.sign C signer ephemeral nonce expiry scope) := by
  have genuine : C.verify (Invite.sign C signer ephemeral nonce expiry scope).idPubkey
      (Invite.sign C signer ephemeral nonce expiry scope).bodyBytes
      (Invite.sign C signer ephemeral nonce expiry scope).signature = true :=
    correct.signs signer _
  rw [Invite.decodeAndVerify, Invite.decodeRaw_encode fits, ok_bind, require_of genuine, ok_bind]

theorem PairResponse.decodeAndVerify_sign (correct : C.Correct) (signer : C.SigningKey)
    (ephemeral nonce : Octets 32) {bind : Bytes} (fits : bind.length ≤ inviteMaxBytes) :
    PairResponse.decodeAndVerify C
        (PairResponse.signForTranscript C signer ephemeral nonce bind).encode bind =
      .ok (PairResponse.signForTranscript C signer ephemeral nonce bind) := by
  have genuine : C.verify (PairResponse.signForTranscript C signer ephemeral nonce bind).idPubkey
      (responsePayload bind (PairResponse.signForTranscript C signer ephemeral nonce bind).nonce
        (PairResponse.signForTranscript C signer ephemeral nonce bind).ephemeralX25519Pk)
      (PairResponse.signForTranscript C signer ephemeral nonce bind).signature = true :=
    correct.signs signer _
  rw [PairResponse.decodeAndVerify, require_of fits, ok_bind, PairResponse.decodeRaw_encode,
    ok_bind, require_of genuine, ok_bind]

theorem PairConfirm.decodeAndVerify_sign (correct : C.Correct) (signer : C.SigningKey)
    (transcript : TranscriptHash) :
    PairConfirm.decodeAndVerify C (PairConfirm.sign C signer transcript).encode
        (C.verifyingKey signer) transcript =
      .ok (PairConfirm.sign C signer transcript) := by
  have pinned : (PairConfirm.sign C signer transcript).idPubkey = C.verifyingKey signer := rfl
  have agreed : (PairConfirm.sign C signer transcript).transcript = transcript := rfl
  have genuine : C.verify (PairConfirm.sign C signer transcript).idPubkey
      (confirmPayload (PairConfirm.sign C signer transcript).transcript)
      (PairConfirm.sign C signer transcript).signature = true :=
    correct.signs signer _
  rw [PairConfirm.decodeAndVerify, PairConfirm.decodeRaw_encode, ok_bind, require_of pinned,
    ok_bind, require_of agreed, ok_bind, require_of genuine, ok_bind]

end Accepted

/-! ## The run, call by call -/

section Run

variable {C : Crypto} {p : Parties C}

/-- The scanner after it scanned the inviter's invite. -/
def Parties.scanner (p : Parties C) : Scanner C :=
  Scanner.started p.scannerSigning p.scannerSecret p.scannerNonce p.invite

/-- The key both sides derive before any Factor-2 mixing. -/
def Parties.baseKey (p : Parties C) : ChainKey :=
  deriveChainKey C p.scanner.transcript
    (C.diffieHellman p.scannerSecret (C.publicKey p.inviterSecret))

/-- The inviter after it took the scanner's response. -/
def Parties.answered (p : Parties C) : Inviter C :=
  { Inviter.new p.inviterSigning p.inviterSecret p.inviterNonce p.expiryUnix p.scope with
    response := some p.scanner.response
    transcript := some p.scanner.transcript
    sas := some p.scanner.sas
    pendingChainKey := some p.baseKey
    state := .awaitingUserConfirm }

theorem scan_invite (correct : C.Correct)
    (nonzero : ¬ allZero (C.diffieHellman p.scannerSecret (C.publicKey p.inviterSecret)) = true)
    (before : p.nowUnix < p.expiryUnix) (fits : p.invite.encode.length ≤ inviteMaxBytes) :
    Scanner.scan p.scannerSigning p.invite.encode p.nowUnix p.scannerSecret p.scannerNonce =
      .ok (p.scanner, p.scanner.response.encode) := by
  have decoded : Invite.decodeAndVerify C p.invite.encode = .ok p.invite :=
    Invite.decodeAndVerify_sign correct _ _ _ _ _ fits
  have current : p.invite.checkNotExpired p.nowUnix = .ok () := require_of before _
  have usable : ¬ allZero (C.diffieHellman p.scannerSecret p.invite.ephemeralX25519Pk) = true :=
    nonzero
  rw [Scanner.scan, decoded, ok_bind, current, ok_bind, require_of usable, ok_bind]
  rfl

theorem receiveResponse_scanner (correct : C.Correct)
    (nonzero : ¬ allZero (C.diffieHellman p.scannerSecret (C.publicKey p.inviterSecret)) = true)
    (fits : p.invite.encode.length ≤ inviteMaxBytes) :
    (Inviter.new p.inviterSigning p.inviterSecret p.inviterNonce p.expiryUnix
        p.scope).receiveResponse p.scanner.response.encode =
      (.ok p.scanner.sas, p.answered) := by
  have shorter : p.invite.bodyBytes.length ≤ inviteMaxBytes := by
    rw [Invite.length_encode] at fits
    rw [Invite.length_bodyBytes]
    omega
  have decoded : PairResponse.decodeAndVerify C p.scanner.response.encode p.invite.bodyBytes =
      .ok p.scanner.response :=
    PairResponse.decodeAndVerify_sign correct _ _ _ shorter
  have shared : C.diffieHellman p.inviterSecret p.scanner.response.ephemeralX25519Pk =
      C.diffieHellman p.scannerSecret (C.publicKey p.inviterSecret) :=
    correct.commutes p.inviterSecret p.scannerSecret
  have agreed : transcriptHash C p.invite p.scanner.response = p.scanner.transcript := rfl
  rw [Inviter.receiveResponse, if_neg (by simp [Inviter.new])]
  erw [decoded]
  simp only [Inviter.new, shared, nonzero]
  rfl

theorem confirm_answered :
    p.answered.confirm =
      (.ok ((PairConfirm.sign C p.inviterSigning p.scanner.transcript).encode, p.baseKey),
        { p.answered with pendingChainKey := none, state := .done, ephemeralSecret := none }) :=
  rfl

theorem confirmWithFactor2_answered (factor2Key : Octets 32) :
    p.answered.confirmWithFactor2 factor2Key =
      (.ok ((PairConfirm.sign C p.inviterSigning p.scanner.transcript).encode ++
          (factor2ConfirmationTag C (mixFactor2Recip C p.baseKey factor2Key)
            p.scanner.transcript .inviter).val),
        { p.answered with
          pendingChainKey := some (mixFactor2Recip C p.baseKey factor2Key)
          state := .awaitingFactor2Ack
          ephemeralSecret := none }) :=
  rfl

theorem receiveConfirm_scanner (correct : C.Correct) :
    p.scanner.receiveConfirm (PairConfirm.sign C p.inviterSigning p.scanner.transcript).encode =
      (.ok p.baseKey,
        { p.scanner with pendingChainKey := none, state := .done, ephemeralSecret := none }) := by
  have decoded := PairConfirm.decodeAndVerify_sign correct p.inviterSigning p.scanner.transcript
  have waiting : p.scanner.state = .awaitingConfirm := rfl
  rw [Scanner.receiveConfirm, if_neg (not_not.mpr waiting)]
  erw [decoded]
  rfl

theorem receiveConfirmWithFactor2_scanner (correct : C.Correct) (factor2Key : Octets 32) :
    p.scanner.receiveConfirmWithFactor2
        ((PairConfirm.sign C p.inviterSigning p.scanner.transcript).encode ++
          (factor2ConfirmationTag C (mixFactor2Recip C p.baseKey factor2Key)
            p.scanner.transcript .inviter).val) factor2Key =
      (.ok ((factor2ConfirmationTag C (mixFactor2Recip C p.baseKey factor2Key)
          p.scanner.transcript .scanner).val, mixFactor2Recip C p.baseKey factor2Key),
        { p.scanner with pendingChainKey := none, state := .done, ephemeralSecret := none }) := by
  let conf := PairConfirm.sign C p.inviterSigning p.scanner.transcript
  let tag := factor2ConfirmationTag C (mixFactor2Recip C p.baseKey factor2Key)
    p.scanner.transcript .inviter
  have width : conf.encode.length = confirmEncodedBytes := conf.length_encode
  have whole : (conf.encode ++ tag.val).length = confirmEncodedBytes + 32 := by
    rw [List.length_append, width, tag.property]
  have decoded : PairConfirm.decodeAndVerify C ((conf.encode ++ tag.val).take confirmEncodedBytes)
      p.scanner.invite.idPubkey p.scanner.transcript = .ok conf := by
    rw [List.take_left' width]
    exact PairConfirm.decodeAndVerify_sign correct p.inviterSigning p.scanner.transcript
  have supplied : (conf.encode ++ tag.val).drop confirmEncodedBytes = tag.val :=
    List.drop_left' width
  have awaiting : p.scanner.state = .awaitingConfirm := rfl
  have pending : p.scanner.pendingChainKey = some p.baseKey := rfl
  show p.scanner.receiveConfirmWithFactor2 (conf.encode ++ tag.val) factor2Key = _
  rw [Scanner.receiveConfirmWithFactor2, if_neg (not_not_intro whole),
    if_neg (not_not_intro awaiting), decoded, pending, supplied]
  exact if_neg (not_not_intro rfl)

theorem receiveFactor2Ack_answered (factor2Key : Octets 32) :
    ({ p.answered with
        pendingChainKey := some (mixFactor2Recip C p.baseKey factor2Key)
        state := .awaitingFactor2Ack
        ephemeralSecret := none } : Inviter C).receiveFactor2Ack
      (factor2ConfirmationTag C (mixFactor2Recip C p.baseKey factor2Key)
        p.scanner.transcript .scanner).val =
    (.ok (mixFactor2Recip C p.baseKey factor2Key),
      { p.answered with pendingChainKey := none, state := .done, ephemeralSecret := none }) := by
  have width := (factor2ConfirmationTag C (mixFactor2Recip C p.baseKey factor2Key)
    p.scanner.transcript .scanner).property
  rw [Inviter.receiveFactor2Ack, if_neg (by simp), if_neg (not_not_intro width)]
  exact if_neg (not_not_intro rfl)

/-- The run of a pairing whose invite fits its frame. -/
theorem honestRun_of_fits (correct : C.Correct)
    (nonzero : ¬ allZero (C.diffieHellman p.scannerSecret (C.publicKey p.inviterSecret)) = true)
    (before : p.nowUnix < p.expiryUnix) (fits : p.invite.encode.length ≤ inviteMaxBytes) :
    Completes p := by
  have scanned := scan_invite correct nonzero before fits
  have received := receiveResponse_scanner correct nonzero fits
  have start : (Inviter.new p.inviterSigning p.inviterSecret p.inviterNonce p.expiryUnix
      p.scope : Inviter C).inviteBytes = p.invite.encode := rfl
  unfold Completes honestRun
  simp only [start, scanned, ok_bind, succeeded, received]
  cases p.factor2 with
  | none =>
    simp only [confirm_answered, receiveConfirm_scanner correct, ok_bind]
    exact ⟨_, rfl, rfl, rfl, rfl, rfl, rfl⟩
  | some factor2Key =>
    simp only [confirmWithFactor2_answered, receiveConfirmWithFactor2_scanner correct,
      receiveFactor2Ack_answered, ok_bind]
    exact ⟨_, rfl, rfl, rfl, rfl, rfl, rfl⟩

/-- An invite that does not fit its frame is refused by `Scanner::scan`. -/
theorem honestRun_of_oversize (oversized : ¬ p.invite.encode.length ≤ inviteMaxBytes) :
    honestRun p = .error (.oversize p.invite.encode.length inviteMaxBytes) := by
  have start : (Inviter.new p.inviterSigning p.inviterSecret p.inviterNonce p.expiryUnix
      p.scope : Inviter C).inviteBytes = p.invite.encode := rfl
  unfold honestRun
  simp only [start, Scanner.scan, Invite.decodeAndVerify, Invite.decodeRaw_of_oversize oversized,
    error_bind]

end Run

/-! ## When it completes -/

/-- **An honest pairing completes exactly when the scope has at most 340 bytes**:
the invite of a longer scope that `CapabilityScope::from_bytes` accepts exceeds
`INVITE_MAX_BYTES`, and the scanner refuses it. -/
theorem pairing_completes_iff {C : Crypto} (correct : C.Correct) (p : Parties C) (scope : Bytes)
    (_accepted : CapabilityScope.fromBytes scope = .ok p.scope)
    (nonzero : ¬ allZero (C.diffieHellman p.scannerSecret (C.publicKey p.inviterSecret)) = true)
    (before : p.nowUnix < p.expiryUnix) :
    Completes p ↔ p.scope.bytes.length ≤ 340 := by
  have size : p.invite.encode.length ≤ inviteMaxBytes ↔ p.scope.bytes.length ≤ 340 :=
    p.invite.encode_fits
  rw [← size]
  constructor
  · rintro ⟨out, ran, -⟩
    by_contra oversized
    rw [honestRun_of_oversize oversized] at ran
    cases ran
  · exact honestRun_of_fits correct nonzero before

/-! ### A toy choice of the primitives -/

def filled (n : Nat) (byte : UInt8) : Octets n := ⟨List.replicate n byte, List.length_replicate⟩

/-- Keys of one byte; a signature repeats its signer's key, a digest the length of what it hashes. -/
def toyCrypto : Crypto where
  SigningKey := UInt8
  StaticSecret := UInt8
  verifyingKey := filled 32
  sign signer _ := filled 64 signer
  verify identity _ sig := sig.val.head? = identity.val.head?
  publicKey := filled 32
  diffieHellman secret peer := filled 32 (secret ||| peer.val.headD 0 ||| 1)
  hash message := filled 32 (UInt8.ofNat message.length)
  keyedHash key message := filled 32 (key.val.headD 0 + UInt8.ofNat message.length)

theorem toyCrypto_correct : toyCrypto.Correct where
  signs _ _ := decide_eq_true rfl
  commutes (a b : UInt8) := congrArg (fun both => filled 32 (both ||| 1)) (UInt8.or_comm a b)

/-- Two parties that pair with the given scope. -/
def toyParties (scope : Bytes) (factor2 : Option (Octets 32)) : Parties toyCrypto where
  inviterSigning := (1 : UInt8)
  inviterSecret := (2 : UInt8)
  inviterNonce := filled 32 3
  expiryUnix := 10
  scope := ⟨scope⟩
  scannerSigning := (4 : UInt8)
  scannerSecret := (8 : UInt8)
  scannerNonce := filled 32 5
  nowUnix := 9
  factor2 := factor2

theorem pairing_completes_iff_contact :
    Completes (toyParties (utf8 "contact") (some (filled 32 7))) ↔ (utf8 "contact").length ≤ 340 :=
  pairing_completes_iff toyCrypto_correct (toyParties (utf8 "contact") (some (filled 32 7)))
    (utf8 "contact") (CapabilityScope.fromBytes_of (by decide)) (by decide) (by decide)

/-- A scope of 341 bytes is accepted, and its pairing ends at the scan. -/
theorem long_scope_never_scanned :
    CapabilityScope.fromBytes (List.replicate 341 0) =
        .ok (toyParties (List.replicate 341 0) none).scope ∧
      honestRun (toyParties (List.replicate 341 0) none) = .error (.oversize 513 512) ∧
      ¬ Completes (toyParties (List.replicate 341 0) none) := by
  have short : (List.replicate 341 (0 : UInt8)).length ≤ maxFieldBytes :=
    le_of_eq_of_le List.length_replicate (by decide)
  have size : (toyParties (List.replicate 341 0) none).invite.encode.length = 513 := by
    have scope : (toyParties (List.replicate 341 0) none).invite.scope.bytes =
      List.replicate 341 0 := rfl
    rw [Invite.length_encode, scope, Nat.min_eq_left short, List.length_replicate]
  have oversized : ¬ (toyParties (List.replicate 341 0) none).invite.encode.length ≤ inviteMaxBytes := by
    rw [size]
    decide
  have ran := honestRun_of_oversize oversized
  rw [size] at ran
  refine ⟨CapabilityScope.fromBytes_of short, ran, ?_⟩
  rintro ⟨out, done, -⟩
  rw [ran] at done
  cases done

end OneLink.PairQr
