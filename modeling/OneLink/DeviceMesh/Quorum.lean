/-
# DeviceMesh.Quorum -- device keys and their attestation, proposals, approvals and certificates

A device's signing seed moves on every day; the master's attestation binds the verifying
key of the day it was minted for, with a window of days.

The hybrid signature and BLAKE3 are parameters, and signing does not fail.  Seeds are byte
strings of any length.

The master signs a policy: a roster of devices and a threshold.  A device of the roster
proposes an operation, others approve it, and a certificate carries all of it with the
attestations of the signers.
-/
import OneLink.DeviceMesh.Sync

namespace OneLink.DeviceMesh

open Library

set_option autoImplicit false

/-- A byte array of fixed length. -/
abbrev Raw (n : Nat) := {b : Bytes // b.length = n}

/-- `ED25519_VK_LEN + ML_DSA_65_VK_LEN` -/
def hybridVkLen : Nat := 32 + 1952

/-- What is used of `ol_pqsig`; a signing key is its seed. -/
structure Pqsig where
  VerifyingKey : Type
  verifyingKey : (seed : Bytes) → VerifyingKey
  toBytes : VerifyingKey → Bytes
  fromBytes : Bytes → Option VerifyingKey
  sign : (seed message : Bytes) → Bytes
  verify : VerifyingKey → (message sig : Bytes) → Bool

/-- Signatures and keys have their lengths, keys are read back, and a signature verifies under
the key that made it and no other. -/
structure Pqsig.Lawful (P : Pqsig) : Prop where
  length_sign : ∀ seed m, (P.sign seed m).length = hybridSigLen
  length_toBytes : ∀ vk, (P.toBytes vk).length = hybridVkLen
  fromBytes_toBytes : ∀ vk, P.fromBytes (P.toBytes vk) = some vk
  verify_sign : ∀ vk seed m, P.verify vk m (P.sign seed m) = true ↔ vk = P.verifyingKey seed

inductive DeviceClass where
  | phone
  | laptop
  | tablet
  | desktop
  | server
  | wearable
  | appliance
  | generic
  deriving DecidableEq, Repr

def DeviceClass.tag : DeviceClass → Bytes
  | phone => ascii "OL-PHONE"
  | laptop => ascii "OL-LAPTP"
  | tablet => ascii "OL-TABLT"
  | desktop => ascii "OL-DESKT"
  | server => ascii "OL-SERVR"
  | wearable => ascii "OL-WEARB"
  | appliance => ascii "OL-APPLI"
  | generic => ascii "OL-GENRC"

/-- `to_be_bytes` of a `u64`. -/
def u64Bytes (n : UInt64) : Bytes := beBytes 8 n.toNat

variable (hash : Bytes → Bytes)

def ratchetOneDay (prev : Bytes) : Bytes :=
  hash (ascii "OL-device-mesh-ratchet-v1" ++ ascii "-ed25519" ++ prev) ++
    hash (ascii "OL-device-mesh-ratchet-v1" ++ ascii "-mldsa" ++ prev)

structure DeviceSubkey where
  seed : Bytes
  cls : DeviceClass
  deviceId : DeviceId
  dayIndex : UInt64

namespace DeviceSubkey

variable (P : Pqsig)

def verifyingKey (k : DeviceSubkey) : P.VerifyingKey := P.verifyingKey k.seed

def sign (k : DeviceSubkey) (message : Bytes) : Bytes := P.sign k.seed message

/-- The day saturates. -/
def stepOneDay (k : DeviceSubkey) : DeviceSubkey :=
  { k with
    seed := ratchetOneDay hash k.seed
    dayIndex := UInt64.ofNat (min (k.dayIndex.toNat + 1) (2 ^ 64 - 1)) }

end DeviceSubkey

structure SubkeyAttestation where
  cls : DeviceClass
  deviceId : DeviceId
  mintDayIndex : UInt64
  expiryDayIndex : UInt64
  subkeyVkBytes : Bytes
  masterSig : Bytes

namespace SubkeyAttestation

def canonicalTranscript (a : SubkeyAttestation) : Bytes :=
  ascii "OL-device-mesh-attestation-v1" ++ a.cls.tag ++ a.deviceId.1 ++ u64Bytes a.mintDayIndex ++
    u64Bytes a.expiryDayIndex ++ a.subkeyVkBytes

def verify (P : Pqsig) (a : SubkeyAttestation) (masterVk : P.VerifyingKey) :
    Except MeshError Unit := do
  require (a.subkeyVkBytes.length = hybridVkLen) (.badLength hybridVkLen a.subkeyVkBytes.length)
  require (P.verify masterVk a.canonicalTranscript a.masterSig = true) .attestationVerifyFail

def coversDay (a : SubkeyAttestation) (day : UInt64) : Prop :=
  a.mintDayIndex ≤ day ∧ day ≤ a.expiryDayIndex

instance (a : SubkeyAttestation) (day : UInt64) : Decidable (a.coversDay day) :=
  inferInstanceAs (Decidable (_ ∧ _))

end SubkeyAttestation

variable (P : Pqsig)

def buildAttestation (masterSeed : Bytes) (subkey : DeviceSubkey) (mintDay expiryDay : UInt64) :
    SubkeyAttestation :=
  let unsigned : SubkeyAttestation :=
    ⟨subkey.cls, subkey.deviceId, mintDay, expiryDay, P.toBytes (subkey.verifyingKey P), []⟩
  { unsigned with masterSig := P.sign masterSeed unsigned.canonicalTranscript }

/-- `mint_subkey`; `mint_subkey_field_bound` differs in the seed it starts from. -/
def mintFromSeed (masterSeed seed : Bytes) (cls : DeviceClass) (deviceId : DeviceId)
    (mintDay expiryDay : UInt64) : DeviceSubkey × SubkeyAttestation :=
  let subkey : DeviceSubkey := ⟨seed, cls, deviceId, mintDay⟩
  (subkey, buildAttestation P masterSeed subkey mintDay expiryDay)

variable {P}

/-- What the master signs, it verifies. -/
theorem buildAttestation_verify (lawful : P.Lawful) (masterSeed : Bytes) (subkey : DeviceSubkey)
    (mintDay expiryDay : UInt64) :
    (buildAttestation P masterSeed subkey mintDay expiryDay).verify P (P.verifyingKey masterSeed) =
      .ok () := by
  simp only [SubkeyAttestation.verify, bind_eq_ok, require_eq_ok, exists_const]
  exact ⟨lawful.length_toBytes _, (lawful.verify_sign _ _ _).mpr rfl⟩

variable (P)

def maxApprovals : Nat := 64
def maxEligibleDevices : Nat := 64
def policyLabelMax : Nat := 64

/-! ## `QuorumPolicy` -/

structure QuorumPolicy where
  policyId : Raw 16
  label : Bytes
  k : UInt8
  eligibleDevices : List DeviceId
  masterSig : Bytes

/-- A length as `u16`, saturating. -/
def len16 (n : Nat) : Bytes := beBytes 2 (min n (2 ^ 16 - 1))

namespace QuorumPolicy

def canonicalTranscript (p : QuorumPolicy) : Bytes :=
  ascii "OL-device-mesh-policy-v1" ++ p.policyId.1 ++ len16 p.label.length ++ p.label ++ [p.k] ++
    len16 p.eligibleDevices.length ++ p.eligibleDevices.flatMap fun id => id.1

/-- Sorting and deduplicating shortens a roster exactly when it names a device twice. -/
def shapeCheck (p : QuorumPolicy) : Except MeshError Unit := do
  require (p.label.length ≤ policyLabelMax) (.policyLabelTooLong p.label.length policyLabelMax)
  require (p.eligibleDevices ≠ []) .policyEmptyRoster
  require (p.eligibleDevices.length ≤ maxEligibleDevices)
    (.policyRosterTooLarge p.eligibleDevices.length maxEligibleDevices)
  require (¬ (p.k = 0 ∨ p.k.toNat > p.eligibleDevices.length))
    (.policyBadThreshold p.k.toNat p.eligibleDevices.length)
  require p.eligibleDevices.Nodup .policyDuplicateRoster
  require (p.masterSig.length = hybridSigLen) (.badLength hybridSigLen p.masterSig.length)

def verify (p : QuorumPolicy) (masterVk : P.VerifyingKey) : Except MeshError Unit := do
  p.shapeCheck
  require (P.verify masterVk p.canonicalTranscript p.masterSig = true) .policyVerifyFail

def isEligible (p : QuorumPolicy) (deviceId : DeviceId) : Bool := deviceId ∈ p.eligibleDevices

end QuorumPolicy

def mintPolicy (masterSeed : Bytes) (policyId : Raw 16) (label : Bytes) (k : UInt8)
    (eligibleDevices : List DeviceId) : Except MeshError QuorumPolicy := do
  let unsigned : QuorumPolicy :=
    ⟨policyId, label, k, eligibleDevices, List.replicate hybridSigLen 0⟩
  unsigned.shapeCheck
  return { unsigned with masterSig := P.sign masterSeed unsigned.canonicalTranscript }

/-! ## `QuorumProposal` -/

/-- What the issuer signs. -/
structure ProposalBody where
  policyId : Raw 16
  operationDigest : Raw 32
  nonce : Raw 16
  issuedUnix : UInt64
  deadlineUnix : UInt64
  issuerDeviceId : DeviceId
  issuerDayIndex : UInt64
  deriving DecidableEq

structure QuorumProposal extends ProposalBody where
  issuerSig : Bytes

def ProposalBody.canonicalTranscript (p : ProposalBody) : Bytes :=
  ascii "OL-device-mesh-proposal-v1" ++ (p.policyId.1 ++ (p.operationDigest.1 ++ (p.nonce.1 ++
    (u64Bytes p.issuedUnix ++ (u64Bytes p.deadlineUnix ++ (p.issuerDeviceId.1 ++
      u64Bytes p.issuerDayIndex))))))

def ProposalBody.proposalId (hash : Bytes → Bytes) (p : ProposalBody) : Bytes :=
  hash (ascii "OL-device-mesh-proposal-id-v1" ++ p.canonicalTranscript)

def QuorumProposal.verifyIssuer (p : QuorumProposal) (issuerVk : P.VerifyingKey) :
    Except MeshError Unit := do
  require (p.issuerSig.length = hybridSigLen) (.badLength hybridSigLen p.issuerSig.length)
  require (P.verify issuerVk p.canonicalTranscript p.issuerSig = true) .proposalIssuerVerifyFail

def proposeOperation (issuer : DeviceSubkey) (policy : QuorumPolicy) (operationDigest : Raw 32)
    (nonce : Raw 16) (issuedUnix deadlineUnix : UInt64) : Except MeshError QuorumProposal := do
  require (policy.isEligible issuer.deviceId = true) (.issuerNotEligible issuer.deviceId)
  require (¬ deadlineUnix ≤ issuedUnix) (.proposalDeadlineNotAfterIssue issuedUnix deadlineUnix)
  let body : ProposalBody :=
    ⟨policy.policyId, operationDigest, nonce, issuedUnix, deadlineUnix, issuer.deviceId,
      issuer.dayIndex⟩
  return ⟨body, issuer.sign P body.canonicalTranscript⟩

/-! ## `QuorumApproval` -/

structure QuorumApproval where
  proposalId : Bytes
  approverDeviceId : DeviceId
  approverDayIndex : UInt64
  approvedUnix : UInt64
  approverSig : Bytes

namespace QuorumApproval

def canonicalTranscript (proposalId : Bytes) (approver : DeviceId) (day approved : UInt64) : Bytes :=
  ascii "OL-device-mesh-approval-v1" ++ proposalId ++ approver.1 ++ u64Bytes day ++
    u64Bytes approved

def verify (a : QuorumApproval) (approverVk : P.VerifyingKey) : Except MeshError Unit := do
  require (a.approverSig.length = hybridSigLen) (.badLength hybridSigLen a.approverSig.length)
  require (P.verify approverVk
    (canonicalTranscript a.proposalId a.approverDeviceId a.approverDayIndex a.approvedUnix)
    a.approverSig = true) .approvalVerifyFail

end QuorumApproval

variable (hash : Bytes → Bytes)

def signApproval (approver : DeviceSubkey) (proposal : QuorumProposal) (approvedUnix : UInt64) :
    Except MeshError QuorumApproval := do
  require (¬ approvedUnix > proposal.deadlineUnix)
    (.approvalPastDeadline approvedUnix proposal.deadlineUnix)
  let proposalId := proposal.proposalId hash
  return ⟨proposalId, approver.deviceId, approver.dayIndex, approvedUnix,
    approver.sign P (QuorumApproval.canonicalTranscript proposalId approver.deviceId
      approver.dayIndex approvedUnix)⟩

/-! ## `QuorumCertificate` -/

structure QuorumCertificate where
  proposal : QuorumProposal
  approvals : List QuorumApproval
  policy : QuorumPolicy
  subkeyAttestations : List SubkeyAttestation

namespace QuorumCertificate

/-- The first attestation of the device that covers the day decides. -/
def subkeyVkFor (c : QuorumCertificate) (deviceId : DeviceId) (dayIndex : UInt64) :
    Except MeshError P.VerifyingKey :=
  match c.subkeyAttestations.find? fun a => a.deviceId = deviceId ∧ a.coversDay dayIndex with
  | none => .error (.attestationMissing deviceId dayIndex)
  | some a =>
    if a.subkeyVkBytes.length ≠ hybridVkLen then
      .error (.badLength hybridVkLen a.subkeyVkBytes.length)
    else
      match P.fromBytes a.subkeyVkBytes with
      | none => .error .invalidPubkey
      | some vk => .ok vk

/-- One approval, with the approvers seen before it. -/
def checkApproval (c : QuorumCertificate) (seen : List DeviceId) (a : QuorumApproval) :
    Except MeshError (List DeviceId) := do
  require (a.proposalId = c.proposal.proposalId hash) .approvalForOtherProposal
  require (¬ a.approvedUnix > c.proposal.deadlineUnix)
    (.approvalPastDeadline a.approvedUnix c.proposal.deadlineUnix)
  require (c.policy.isEligible a.approverDeviceId = true) (.approverNotEligible a.approverDeviceId)
  require (a.approverDeviceId ∉ seen) (.duplicateApprover a.approverDeviceId)
  let approverVk ← c.subkeyVkFor P a.approverDeviceId a.approverDayIndex
  a.verify P approverVk
  return seen ++ [a.approverDeviceId]

def verify (c : QuorumCertificate) (masterVk : P.VerifyingKey) (nowUnix : UInt64) :
    Except MeshError Unit := do
  require (c.approvals.length ≤ maxApprovals) (.certTooManyApprovals c.approvals.length maxApprovals)
  require (c.policy.eligibleDevices.length ≤ maxEligibleDevices)
    (.policyRosterTooLarge c.policy.eligibleDevices.length maxEligibleDevices)
  c.policy.verify P masterVk
  c.subkeyAttestations.forM fun a => a.verify P masterVk
  require (c.proposal.policyId = c.policy.policyId) .certProposalPolicyMismatch
  require (¬ nowUnix > c.proposal.deadlineUnix)
    (.certProposalExpired c.proposal.deadlineUnix nowUnix)
  require (c.policy.isEligible c.proposal.issuerDeviceId = true)
    (.issuerNotEligible c.proposal.issuerDeviceId)
  let issuerVk ← c.subkeyVkFor P c.proposal.issuerDeviceId c.proposal.issuerDayIndex
  c.proposal.verifyIssuer P issuerVk
  let seen ← c.approvals.foldlM (c.checkApproval P hash) []
  require (c.policy.k.toNat ≤ seen.length) (.certBelowThreshold seen.length c.policy.k.toNat)

end QuorumCertificate

end OneLink.DeviceMesh
