/-
# GroupsCrypto.Wire — the three wire versions of a group message

`groups_crypto.py` reads frames of three versions and writes the third.  They
differ in their field set, their nonce, their associated data and the input of
their signature.  The signature inputs of versions 1 and 2 are not separated
from each other; the associated data of all three are, by a tag of one length
(`associatedData_inj`), and it is the associated data that carries version,
epoch and counter into the AEAD.
-/
import OneLink.Library.Base64Url
import OneLink.Library.Checked
import OneLink.Library.OrderedDict
import Mathlib.Data.List.Sort

namespace OneLink.GroupsCrypto

open Library

set_option autoImplicit false

def chainKeyBytes : Nat := 32
def nonceSaltBytes : Nat := 12
def legacyNonceSaltBytes : Nat := 4
def tagBytes : Nat := 16
def maxMessagePlaintextBytes : Nat := 1024 * 1024
def maxMessageCiphertextBytes : Nat := maxMessagePlaintextBytes + tagBytes
def uint32Max : Nat := 2 ^ 32 - 1
def maxSkipKeysGroup : Nat := 64

/-- The exceptions of the module, one constructor a message. -/
inductive CryptoError where
  | chainKeyLength (got : Nat)
  | epochOutOfU32 (epoch : Nat)
  | counterOutOfU32 (counter : Nat)
  | nonceSaltLength
  | groupIdLength
  | senderPubkeyLength
  | msgKeyLength
  | plaintextTooLarge
  | emptyPlaintext
  | privateKeyMismatch
  | senderCounterExhausted
  | missingValidNonceSalt
  | authenticationFailed
  | unsupportedVersion
  | missingFields (names : List String)
  | unknownFields (names : List String)
  | fieldTooLarge (name : String)
  | fieldNotCanonical (name : String)
  | fieldSize (name : String) (size : Nat)
  | fieldNotString (name : String)
  | fieldNotInteger (name : String)
  | groupIdMismatch
  | senderPubkeyMismatch
  | epochNotPositiveU32
  | counterNotU32
  | ciphertextLength
  | epochMismatch (chain message : Nat)
  | replay (counter : Nat)
  | signatureDoesNotVerify
  | outOfWindow (counter chain : Nat)
  | tooManySkipped (gap : Nat)
  | seenWindowExceeds
  | skippedWindowExceeds
  | seenWindowMalformed
  | skippedWindowMalformed

/-! ## Fields -/

/-- A value of the wire dict. -/
inductive WireValue where
  | str (text : String)
  | int (n : Int)
  | bool (b : Bool)
  | other
  deriving DecidableEq, Repr

abbrev Wire := OrderedDict String WireValue

inductive WireVersion where
  | v1
  | v2
  | v3
  deriving DecidableEq, Repr

def WireVersion.text : WireVersion → String
  | .v1 => "OL-GROUP-MSG-1"
  | .v2 => "OL-GROUP-MSG-2"
  | .v3 => "OL-GROUP-MSG-3"

/-- The member of `SUPPORTED_PROTOCOL_VERSIONS` that `wire.get("v")` is. -/
def WireVersion.ofValue? : Option WireValue → Option WireVersion
  | some (.str "OL-GROUP-MSG-1") => some .v1
  | some (.str "OL-GROUP-MSG-2") => some .v2
  | some (.str "OL-GROUP-MSG-3") => some .v3
  | _ => none

/-- `_V1_WIRE_FIELDS`, `_SALTED_WIRE_FIELDS`. -/
def WireVersion.fields : WireVersion → List String
  | .v1 => ["v", "group_id_b64", "sender_pubkey_b64", "epoch", "counter", "ciphertext_b64",
      "signature_b64"]
  | .v2 | .v3 => ["v", "group_id_b64", "sender_pubkey_b64", "epoch", "counter", "ciphertext_b64",
      "signature_b64", "nonce_salt_b64"]

/-- `_b64d`: strict canonical base64url of at most `maxDecodedBytes` bytes. -/
def b64d (name : String) (maxDecodedBytes : Nat) (text : String) : Except CryptoError Bytes := do
  require (text.length ≤ (maxDecodedBytes * 4 + 2) / 3) (.fieldTooLarge name)
  match Base64Url.decodeStrict text with
  | none => throw (.fieldNotCanonical name)
  | some decoded =>
    require (decoded.length ≤ maxDecodedBytes) (.fieldNotCanonical name)
    return decoded

def requireStr (name : String) : Option WireValue → Except CryptoError String
  | some (.str text) => .ok text
  | _ => .error (.fieldNotString name)

def requireInt (name : String) : Option WireValue → Except CryptoError Int
  | some (.int n) => .ok n
  | _ => .error (.fieldNotInteger name)

/-- `_decode_exact_b64`. -/
def decodeExactB64 (name : String) (size : Nat) (value : Option WireValue) :
    Except CryptoError Bytes := do
  let decoded ← b64d name size (← requireStr name value)
  require (decoded.length = size) (.fieldSize name size)
  return decoded

/-! ## Nonces, associated data, signature inputs -/

/-- `struct.pack(">II", epoch, counter)`. -/
def packCoordinates (epoch counter : Nat) : Bytes := beBytes 4 epoch ++ beBytes 4 counter

def requireU32 (epoch counter : Nat) : Except CryptoError Unit := do
  require (epoch < 2 ^ 32) (.epochOutOfU32 epoch)
  require (counter < 2 ^ 32) (.counterOutOfU32 counter)

def buildNonceV1 (epoch counter : Nat) : Except CryptoError Bytes := do
  requireU32 epoch counter
  return packCoordinates epoch counter ++ [0, 0, 0, 0]

def buildNonceV2 (epoch counter : Nat) (nonceSalt : Bytes) : Except CryptoError Bytes := do
  requireU32 epoch counter
  require (nonceSalt.length = legacyNonceSaltBytes) .nonceSaltLength
  return packCoordinates epoch counter ++ nonceSalt

def buildNonceV3 (nonceSalt : Bytes) : Except CryptoError Bytes := do
  require (nonceSalt.length = nonceSaltBytes) .nonceSaltLength
  return nonceSalt

/-- The common shape of `_aad_v1`, `_aad_v2` and `_aad_v3`. -/
def associatedData (version : WireVersion) (groupId senderPubkey : Bytes) (epoch counter : Nat)
    (nonceSalt : Bytes) : Bytes :=
  ascii version.text ++
    (groupId ++ (senderPubkey ++ (beBytes 4 epoch ++ (beBytes 4 counter ++ nonceSalt))))

def aad (version : WireVersion) (saltBytes : Nat) (groupId senderPubkey : Bytes)
    (epoch counter : Nat) (nonceSalt : Bytes) : Except CryptoError Bytes := do
  require (groupId.length = 16) .groupIdLength
  require (senderPubkey.length = 32) .senderPubkeyLength
  require (nonceSalt.length = saltBytes) .nonceSaltLength
  -- `struct.pack` refuses what is not a u32
  requireU32 epoch counter
  return associatedData version groupId senderPubkey epoch counter nonceSalt

def aadV1 (groupId senderPubkey : Bytes) (epoch counter : Nat) : Except CryptoError Bytes :=
  aad .v1 0 groupId senderPubkey epoch counter []

def aadV2 (groupId senderPubkey : Bytes) (epoch counter : Nat) (nonceSalt : Bytes) :
    Except CryptoError Bytes :=
  aad .v2 legacyNonceSaltBytes groupId senderPubkey epoch counter nonceSalt

def aadV3 (groupId senderPubkey : Bytes) (epoch counter : Nat) (nonceSalt : Bytes) :
    Except CryptoError Bytes :=
  aad .v3 nonceSaltBytes groupId senderPubkey epoch counter nonceSalt

/-- A parsed frame. -/
structure Frame where
  version : WireVersion
  groupId : Bytes
  senderPubkey : Bytes
  epoch : Nat
  counter : Nat
  ciphertext : Bytes
  signature : Bytes
  nonceSalt : Option Bytes
  deriving DecidableEq, Repr

/-- The nonce and the associated data `_decrypt_with_msg_key` opens a frame under. -/
def nonceAndAad (version : WireVersion) (groupId senderPubkey : Bytes) (epoch counter : Nat)
    (nonceSalt : Option Bytes) : Except CryptoError (Bytes × Bytes) := do
  match version, nonceSalt with
  | .v3, some salt =>
    require (salt.length = nonceSaltBytes) .missingValidNonceSalt
    return (← buildNonceV3 salt, ← aadV3 groupId senderPubkey epoch counter salt)
  | .v3, none => throw .missingValidNonceSalt
  | .v2, some salt =>
    require (salt.length = legacyNonceSaltBytes) .missingValidNonceSalt
    return (← buildNonceV2 epoch counter salt, ← aadV2 groupId senderPubkey epoch counter salt)
  | .v2, none => throw .missingValidNonceSalt
  | .v1, _ => return (← buildNonceV1 epoch counter, ← aadV1 groupId senderPubkey epoch counter)

/-- The bytes the sender signs.  Only version 3 carries a domain separator. -/
def Frame.sigInput (f : Frame) : Bytes :=
  match f.version, f.nonceSalt with
  | .v3, some salt =>
    ascii "OL-GROUP-SIG-3" ++ (f.groupId ++ f.senderPubkey ++
      packCoordinates f.epoch f.counter ++ salt ++ f.ciphertext)
  | .v2, some salt =>
    f.groupId ++ f.senderPubkey ++ packCoordinates f.epoch f.counter ++ salt ++ f.ciphertext
  | _, _ => f.groupId ++ f.senderPubkey ++ packCoordinates f.epoch f.counter ++ f.ciphertext

/-! ## What the field readers accept -/

theorem b64d_eq_ok {name text : String} {bound : Nat} {data : Bytes} :
    b64d name bound text = .ok data ↔
      text = Base64Url.encode data ∧ data.length ≤ bound := by
  simp only [b64d, bind_eq_ok, require_eq_ok, exists_const]
  constructor
  · rintro ⟨-, read⟩
    cases decoded : Base64Url.decodeStrict text with
    | none => simp [decoded, throw, throwThe, MonadExceptOf.throw] at read
    | some data' =>
      simp only [decoded, bind_eq_ok, require_eq_ok, exists_const, pure_eq_ok_iff] at read
      obtain ⟨bounded, rfl⟩ := read
      exact ⟨(Base64Url.encode_of_decodeStrict decoded).symm, bounded⟩
  · rintro ⟨rfl, bounded⟩
    refine ⟨?_, ?_⟩
    · rw [Base64Url.length_encode]
      omega
    · simp only [Base64Url.decodeStrict_encode, bind_eq_ok, require_eq_ok, exists_const,
        pure_eq_ok_iff]
      exact ⟨bounded, trivial⟩

theorem requireStr_eq_ok {name text : String} {value : Option WireValue} :
    requireStr name value = .ok text ↔ value = some (.str text) := by
  unfold requireStr
  split <;> simp_all

theorem requireInt_eq_ok {name : String} {n : Int} {value : Option WireValue} :
    requireInt name value = .ok n ↔ value = some (.int n) := by
  unfold requireInt
  split <;> simp_all

theorem decodeExactB64_eq_ok {name : String} {size : Nat} {value : Option WireValue}
    {data : Bytes} :
    decodeExactB64 name size value = .ok data ↔
      value = some (.str (Base64Url.encode data)) ∧ data.length = size := by
  simp only [decodeExactB64, bind_eq_ok, require_eq_ok, requireStr_eq_ok, b64d_eq_ok, exists_const,
    pure_eq_ok_iff]
  constructor
  · rintro ⟨text, rfl, data', ⟨rfl, -⟩, exact, rfl⟩
    exact ⟨rfl, exact⟩
  · rintro ⟨rfl, exact⟩
    exact ⟨_, rfl, data, ⟨rfl, exact.le⟩, exact, rfl⟩

theorem WireVersion.eq_of_ofValue? {value : Option WireValue} {version : WireVersion}
    (found : WireVersion.ofValue? value = some version) : value = some (.str version.text) := by
  unfold WireVersion.ofValue? at found
  split at found <;> cases found <;> rfl

theorem aad_eq_ok {version : WireVersion} {saltBytes : Nat} {gid pk : Bytes} {epoch counter : Nat}
    {salt data : Bytes} :
    aad version saltBytes gid pk epoch counter salt = .ok data ↔
      gid.length = 16 ∧ pk.length = 32 ∧ salt.length = saltBytes ∧ epoch < 2 ^ 32 ∧
        counter < 2 ^ 32 ∧ associatedData version gid pk epoch counter salt = data := by
  simp only [aad, requireU32, bind_eq_ok, require_eq_ok, exists_const, pure_eq_ok_iff, and_assoc]

end OneLink.GroupsCrypto
