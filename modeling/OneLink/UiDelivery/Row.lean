/-
# UiDelivery.Row -- a durable row of the UI delivery store

A row binds a client's delivery id to one send contract.  Its transfer identity
is sealed together with the phase and the owner that its columns show, its
response under the sealed identity it was recorded with; `decodeIdentity` and
`decodeResponse` are the only way back and check every column they meet.
-/
import OneLink.Library.ByteReader
import OneLink.Library.Checked

namespace OneLink.UiDelivery

open Library

set_option autoImplicit false

/-- The exceptions of the store; `integrity` is the internal marker of authenticated state that can
no longer be trusted. -/
inductive DeliveryError where
  | valueError (text : String)
  | contractConflict (text : String)
  | unavailable (text : String)
  | integrity (text : String)
deriving DecidableEq, Repr

/-! ## Identifiers -/

def isLowerHex (c : Char) : Bool := ('0' ≤ c && c ≤ '9') || ('a' ≤ c && c ≤ 'f')

/-- `[0-9a-f]{low,high}`. -/
def hexRun (low high : Nat) (chars : List Char) : Bool :=
  low ≤ chars.length && chars.length ≤ high && chars.all isLowerHex

/-- `_CLIENT_DELIVERY_RE` and `_DELIVERY_RE`. -/
def isDeliveryId (s : String) : Bool := hexRun 32 32 s.toList

/-- `_BLOB_RE`. -/
def isBlobHash (s : String) : Bool := hexRun 64 64 s.toList

/-- `_TRANSFER_RE`. -/
def isTransferId (s : String) : Bool :=
  s.toList.take 4 = "out:".toList && hexRun 64 64 ((s.toList.drop 4).take 64) &&
    (s.toList.drop 68).take 1 = [':'] && hexRun 12 64 (s.toList.drop 69)

/-! ## Contracts -/

structure Contract where
  peerFp : String
  blobHash : String
  size : Int
  displayName : String
  relPath : String
  chatInline : Bool
deriving DecidableEq

def Contract.validate (c : Contract) : Except DeliveryError Unit := do
  require (isBlobHash c.peerFp) (.valueError "peer fingerprint must be canonical lowercase hex")
  require (isBlobHash c.blobHash) (.valueError "content hash must be canonical lowercase hex")
  require (¬ c.size < 0) (.valueError "file size must be a non-negative integer")
  require (¬ (c.displayName = "" ∨ (utf8 c.displayName).length > 1024))
    (.valueError "display name is empty or too large")
  require (¬ (utf8 c.relPath).length > 8192) (.valueError "relative path is too large")

inductive Phase where
  | bound
  | queued
  | dispatching
  | result
deriving DecidableEq, Repr

/-- What `f"...{phase!r}..."` writes. -/
def Phase.repr : Phase → String
  | .bound => "'bound'"
  | .queued => "'queued'"
  | .dispatching => "'dispatching'"
  | .result => "'result'"

/-- The payload of the identity envelope. -/
structure Identity where
  contract : Contract
  deliveryId : Option String
  ownerEpoch : String
  phase : Phase
  transferId : String
deriving DecidableEq

/-! ## Rows -/

/-- A row of `ui_file_deliveries`.  The table's check keeps the three response columns null
together: status, nonce and ciphertext. -/
structure Row where
  recordId : Bytes
  principalDigest : Bytes
  clientDeliveryId : String
  contractDigest : Bytes
  identityNonce : Bytes
  identityCiphertext : Bytes
  phase : Phase
  ownerEpoch : String
  response : Option (Nat × Bytes × Bytes)
  createdMs : Int
  updatedMs : Int
deriving DecidableEq

/-- The keyed digests, the two AEADs and the JSON codec of response bodies, under the store's key. -/
structure Crypto (Body : Type) where
  principalDigest : String → Bytes
  contractDigest : Contract → Bytes
  sealIdentity : (nonce : Bytes) → Identity → (aad : Bytes) → Bytes
  openIdentity : (nonce ciphertext aad : Bytes) → Option Identity
  sealResponse : (nonce plaintext aad : Bytes) → Bytes
  openResponse : (nonce ciphertext aad : Bytes) → Option Bytes
  sha256 : Bytes → Bytes
  dumps : Body → Option Bytes
  loads : Bytes → Option Body

/-- `b"\0".join`. -/
def joinZero : List Bytes → Bytes
  | [] => []
  | [field] => field
  | field :: rest => field ++ 0 :: joinZero rest

variable {Body : Type} (C : Crypto Body)

def identityAad (recordId principalDigest : Bytes) (clientDeliveryId : String)
    (contractDigest : Bytes) : Bytes :=
  ascii "OL/ui-transfer-identity/v3" ++
    0 :: joinZero [recordId, principalDigest, utf8 clientDeliveryId, contractDigest]

/-- `_identity_aad`. -/
def Row.aad (row : Row) : Bytes :=
  identityAad row.recordId row.principalDigest row.clientDeliveryId row.contractDigest

/-- `_response_aad`. -/
def Row.responseAad (row : Row) (status : Nat) : Bytes :=
  ascii "OL/ui-response/v3" ++
    0 :: joinZero [row.recordId, row.principalDigest, utf8 row.clientDeliveryId, row.contractDigest,
      C.sha256 (row.identityNonce ++ row.identityCiphertext), ascii (toString status)]

/-- The checks of `_decode_identity_payload` on an opened envelope. -/
def checkIdentity (row : Row) (identity : Identity) : Except DeliveryError Unit := do
  require (isTransferId identity.transferId) (.integrity "corrupt durable transfer id")
  require (∀ id ∈ identity.deliveryId, isDeliveryId id) (.integrity "corrupt durable wire delivery id")
  require (identity.ownerEpoch = "" ∨ isDeliveryId identity.ownerEpoch)
    (.integrity "corrupt durable delivery owner")
  require (identity.phase = row.phase) (.integrity "durable delivery phase changed")
  require (identity.ownerEpoch = row.ownerEpoch) (.integrity "durable delivery owner changed")
  require (identity.contract.validate = .ok ()) (.integrity "durable transfer contract is corrupt")
  require (row.contractDigest = C.contractDigest identity.contract)
    (.integrity "durable transfer contract authentication failed")

/-- `_decode_identity_payload`. -/
def decodeIdentity (row : Row) : Except DeliveryError Identity :=
  match C.openIdentity row.identityNonce row.identityCiphertext row.aad with
  | none => .error (.integrity "durable transfer identity authentication failed")
  | some identity => do
    checkIdentity C row identity
    return identity

/-- `_encode_identity`: the envelope of an identity that may be authenticated. -/
def encodeIdentity (row : Row) (nonce : Bytes) (identity : Identity) : Except DeliveryError Bytes := do
  require (identity.ownerEpoch = "" ∨ isDeliveryId identity.ownerEpoch)
    (.valueError "delivery owner cannot be authenticated")
  return C.sealIdentity nonce identity row.aad

/-- `_decode_response`. -/
def decodeResponse (row : Row) : Except DeliveryError (Option (Nat × Body)) :=
  match row.response with
  | none => .ok none
  | some (status, nonce, ciphertext) =>
    match (C.openResponse nonce ciphertext (row.responseAad C status)).bind C.loads with
    | none => .error (.integrity "durable UI response authentication failed")
    | some body => .ok (some (status, body))

/-- `UIDeliveryBinding`; a response is a status and a body. -/
structure Binding (Body : Type) where
  principalScope : String
  clientDeliveryId : String
  contract : Contract
  transferId : String
  deliveryId : Option String
  phase : Phase
  ownsAttempt : Bool
  reclaimableBeforeDispatch : Bool
  recoverableAfterRestart : Bool
  response : Option (Nat × Body)
deriving DecidableEq

def assertContract (row : Row) (expected : Contract) : Except DeliveryError Unit :=
  require (row.contractDigest = C.contractDigest expected)
    (.contractConflict "client_delivery_id is already bound to a different file send")

/-- `_binding`, in the store of this epoch. -/
def bindingOf (epoch : String) (row : Row) (principalScope : String) (contract : Contract)
    (ownsAttempt : Bool) : Except DeliveryError (Binding Body) := do
  assertContract C row contract
  let response ← decodeResponse C row
  let identity ← decodeIdentity C row
  return { principalScope := principalScope
           clientDeliveryId := row.clientDeliveryId
           contract := contract
           transferId := identity.transferId
           deliveryId := identity.deliveryId
           phase := row.phase
           ownsAttempt := ownsAttempt
           reclaimableBeforeDispatch :=
             decide ((row.phase = .bound ∨ row.phase = .queued) ∧ response.isNone ∧
               row.ownerEpoch ≠ epoch)
           recoverableAfterRestart :=
             decide (row.phase = .dispatching ∧ response.isNone ∧ row.ownerEpoch ≠ epoch)
           response := response }

/-- `_assert_binding_row`. -/
def assertBindingRow (row : Row) (binding : Binding Body) : Except DeliveryError Unit := do
  require (row.principalDigest = C.principalDigest binding.principalScope)
    (.integrity "durable UI principal changed")
  require (row.clientDeliveryId = binding.clientDeliveryId)
    (.integrity "durable client delivery id changed")
  assertContract C row binding.contract
  let identity ← decodeIdentity C row
  require (identity.transferId = binding.transferId) (.integrity "durable transfer id changed")
  require (("out:" ++ binding.contract.blobHash ++ ":").toList <+: identity.transferId.toList)
    (.integrity "durable transfer id is bound to another blob")
  require (¬ (binding.deliveryId ≠ none ∧ identity.deliveryId ≠ binding.deliveryId))
    (.integrity "durable wire delivery id changed")

/-! ## What is decoded -/

/-- A row whose identity and response are authentic. -/
structure Row.Sound (row : Row) : Prop where
  identity : ∃ identity, decodeIdentity C row = .ok identity
  response : ∃ response, decodeResponse C row = .ok response

variable {C} {row : Row} {identity : Identity}

theorem decodeIdentity_eq_ok :
    decodeIdentity C row = .ok identity ↔
      C.openIdentity row.identityNonce row.identityCiphertext row.aad = some identity ∧
        checkIdentity C row identity = .ok () := by
  rw [decodeIdentity]
  cases C.openIdentity row.identityNonce row.identityCiphertext row.aad with
  | none => exact ⟨nofun, fun both => nomatch both.1⟩
  | some opened =>
    simp only [bind_eq_ok, pure_eq_ok_iff, Option.some.injEq]
    constructor
    · rintro ⟨_, checked, rfl⟩
      exact ⟨rfl, checked⟩
    · rintro ⟨rfl, checked⟩
      exact ⟨(), checked, rfl⟩

theorem decodeResponse_isSome {response : Option (Nat × Body)}
    (decoded : decodeResponse C row = .ok response) : response.isSome = row.response.isSome := by
  rw [decodeResponse] at decoded
  cases columns : row.response with
  | none =>
    rw [columns] at decoded
    rw [← Except.ok.inj decoded]
    rfl
  | some columns' =>
    rw [columns] at decoded
    simp only at decoded
    split at decoded
    · cases decoded
    · rw [← Except.ok.inj decoded]
      rfl

/-- What a binding says of the row it was made from. -/
theorem bindingOf_eq_ok {epoch scope : String} {contract : Contract} {owns : Bool}
    {binding : Binding Body} (made : bindingOf C epoch row scope contract owns = .ok binding) :
    row.Sound C ∧ row.contractDigest = C.contractDigest contract ∧
      binding.principalScope = scope ∧ binding.clientDeliveryId = row.clientDeliveryId ∧
      binding.contract = contract ∧ binding.phase = row.phase ∧ binding.ownsAttempt = owns ∧
      decodeResponse C row = .ok binding.response ∧
      (∀ identity, decodeIdentity C row = .ok identity →
        binding.transferId = identity.transferId ∧ binding.deliveryId = identity.deliveryId) := by
  simp only [bindingOf, assertContract, bind_eq_ok, require_eq_ok, exists_const, pure_eq_ok_iff]
    at made
  obtain ⟨digest, response, decoded, identity, opened, rfl⟩ := made
  refine ⟨⟨⟨identity, opened⟩, response, decoded⟩, digest, rfl, rfl, rfl, rfl, rfl, decoded, ?_⟩
  intro other again
  rw [opened] at again
  rw [Except.ok.inj again]
  exact ⟨rfl, rfl⟩

end OneLink.UiDelivery
