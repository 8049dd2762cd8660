/-
# DeviceMesh.QuorumSafety — which certificates verify, and what they prove

Verification comes down to one check for each signer: that the first attestation of its
device that covers its day binds a key under which its signature verifies
(`QuorumCertificate.verify_eq_ok`).  Soundness reads the signers off that.

An attestation binds the key of the day it was minted for.  So a certificate of honest
signers verifies exactly if each of them still signs with that key.
-/
import OneLink.DeviceMesh.Quorum

namespace OneLink.DeviceMesh

open Library

set_option autoImplicit false

variable {P : Pqsig} {hash : Bytes → Bytes}

/-! ## What verification checks -/

namespace QuorumCertificate

variable (P hash) in
/-- The approval is of this proposal, in time, by a device of the roster, under its attested key. -/
structure Approves (c : QuorumCertificate) (a : QuorumApproval) : Prop where
  proposal : a.proposalId = c.proposal.proposalId hash
  inTime : ¬ a.approvedUnix > c.proposal.deadlineUnix
  eligible : c.policy.isEligible a.approverDeviceId = true
  signed : ∃ vk, c.subkeyVkFor P a.approverDeviceId a.approverDayIndex = .ok vk ∧
    a.verify P vk = .ok ()

theorem checkApproval_eq_ok {c : QuorumCertificate} {seen after : List DeviceId} {a : QuorumApproval} :
    c.checkApproval P hash seen a = .ok after ↔
      c.Approves P hash a ∧ a.approverDeviceId ∉ seen ∧ after = seen ++ [a.approverDeviceId] := by
  simp only [checkApproval, bind_eq_ok, require_eq_ok, exists_const, pure_eq_ok_iff]
  constructor
  · rintro ⟨proposal, inTime, eligible, isNew, vk, found, _, signed, rfl⟩
    exact ⟨⟨proposal, inTime, eligible, vk, found, signed⟩, isNew, rfl⟩
  · rintro ⟨⟨proposal, inTime, eligible, vk, found, signed⟩, isNew, rfl⟩
    exact ⟨proposal, inTime, eligible, isNew, vk, found, (), signed, rfl⟩

theorem approvals_eq_ok {c : QuorumCertificate} {approvals : List QuorumApproval}
    {seen after : List DeviceId} (distinct : seen.Nodup) :
    approvals.foldlM (c.checkApproval P hash) seen = .ok after ↔
      (∀ a ∈ approvals, c.Approves P hash a) ∧
      (seen ++ approvals.map QuorumApproval.approverDeviceId).Nodup ∧
      after = seen ++ approvals.map QuorumApproval.approverDeviceId := by
  induction approvals generalizing seen with
  | nil =>
    simp only [List.foldlM_nil, pure_eq_ok_iff, List.map_nil, List.append_nil]
    simp [distinct, eq_comm]
  | cons a rest ih =>
    have assoc : seen ++ (a :: rest).map QuorumApproval.approverDeviceId =
        seen ++ [a.approverDeviceId] ++ rest.map QuorumApproval.approverDeviceId := by
      simp
    rw [assoc]
    simp only [List.foldlM_cons, bind_eq_ok, checkApproval_eq_ok]
    constructor
    · rintro ⟨_, ⟨approves, isNew, rfl⟩, more⟩
      have longer : (seen ++ [a.approverDeviceId]).Nodup :=
        List.nodup_append.mpr ⟨distinct, List.nodup_singleton _, by
          intro d held d' here same
          rw [List.mem_singleton] at here
          exact isNew (here ▸ same ▸ held)⟩
      obtain ⟨all, nodup, rfl⟩ := (ih longer).mp more
      exact ⟨List.forall_mem_cons.mpr ⟨approves, all⟩, nodup, rfl⟩
    · rintro ⟨all, nodup, rfl⟩
      obtain ⟨approves, later⟩ := List.forall_mem_cons.mp all
      have longer := (List.nodup_append.mp nodup).1
      have isNew : a.approverDeviceId ∉ seen := fun held =>
        (List.nodup_append.mp longer).2.2 _ held _ (List.mem_singleton.mpr rfl) rfl
      exact ⟨_, ⟨approves, isNew, rfl⟩, (ih longer).mpr ⟨later, nodup, rfl⟩⟩

theorem verify_eq_ok {c : QuorumCertificate} {masterVk : P.VerifyingKey} {now : UInt64} :
    c.verify P hash masterVk now = .ok () ↔
      c.approvals.length ≤ maxApprovals ∧ c.policy.eligibleDevices.length ≤ maxEligibleDevices ∧
      c.policy.verify P masterVk = .ok () ∧
      (∀ a ∈ c.subkeyAttestations, a.verify P masterVk = .ok ()) ∧
      c.proposal.policyId = c.policy.policyId ∧ ¬ now > c.proposal.deadlineUnix ∧
      c.policy.isEligible c.proposal.issuerDeviceId = true ∧
      (∃ vk, c.subkeyVkFor P c.proposal.issuerDeviceId c.proposal.issuerDayIndex = .ok vk ∧
        c.proposal.verifyIssuer P vk = .ok ()) ∧
      (∀ a ∈ c.approvals, c.Approves P hash a) ∧
      (c.approvals.map QuorumApproval.approverDeviceId).Nodup ∧
      c.policy.k.toNat ≤ c.approvals.length := by
  simp only [verify, bind_eq_ok, require_eq_ok, exists_const,
    approvals_eq_ok List.nodup_nil, List.nil_append]
  constructor
  · rintro ⟨few, roster, _, policy, _, attested, same, live, eligible, vk, found, _, issued, _,
      ⟨all, nodup, rfl⟩, enough⟩
    exact ⟨few, roster, policy, (forM_ok_iff _ _).mp attested, same, live, eligible,
      ⟨vk, found, issued⟩, all, nodup, by simpa using enough⟩
  · rintro ⟨few, roster, policy, attested, same, live, eligible, ⟨vk, found, issued⟩, all, nodup,
      enough⟩
    exact ⟨few, roster, (), policy, (), (forM_ok_iff _ _).mpr attested, same, live, eligible, vk,
      found, (), issued, _, ⟨all, nodup, rfl⟩, by simpa using enough⟩

theorem subkeyVkFor_eq_ok {c : QuorumCertificate} {deviceId : DeviceId} {day : UInt64}
    {vk : P.VerifyingKey} (found : c.subkeyVkFor P deviceId day = .ok vk) :
    ∃ a ∈ c.subkeyAttestations, a.deviceId = deviceId ∧ a.coversDay day ∧
      P.fromBytes a.subkeyVkBytes = some vk := by
  unfold subkeyVkFor at found
  split at found
  · cases found
  · next a first =>
    have matched := List.find?_some first
    rw [decide_eq_true_eq] at matched
    split at found
    · cases found
    · split at found
      · cases found
      · next vk' read =>
        obtain rfl := Except.ok.inj found
        exact ⟨a, List.mem_of_find?_eq_some first, matched.1, matched.2, read⟩

end QuorumCertificate

/-! ## Soundness -/

theorem u64Bytes_injective {m n : UInt64} (same : u64Bytes m = u64Bytes n) : m = n :=
  UInt64.toNat_inj.mp (beBytes_inj (UInt64.toNat_lt m) (UInt64.toNat_lt n) same)

theorem Raw.append_inj {n : Nat} {a b : Raw n} {s t : Bytes} (same : a.1 ++ s = b.1 ++ t) :
    a = b ∧ s = t := by
  obtain ⟨front, back⟩ := List.append_inj same (a.2.trans b.2.symm)
  exact ⟨Subtype.ext front, back⟩

theorem u64Bytes_append_inj {m n : UInt64} {s t : Bytes}
    (same : u64Bytes m ++ s = u64Bytes n ++ t) : m = n ∧ s = t := by
  obtain ⟨front, back⟩ := List.append_inj same (by simp [u64Bytes])
  exact ⟨u64Bytes_injective front, back⟩

/-- A proposal is known by its id. -/
theorem proposalId_injective (collisionFree : Function.Injective hash) {p q : ProposalBody}
    (same : p.proposalId hash = q.proposalId hash) : p = q := by
  have transcripts := List.append_cancel_left (collisionFree same)
  have fields := List.append_cancel_left transcripts
  obtain ⟨policyId, fields⟩ := Raw.append_inj fields
  obtain ⟨digest, fields⟩ := Raw.append_inj fields
  obtain ⟨nonce, fields⟩ := Raw.append_inj fields
  obtain ⟨issued, fields⟩ := u64Bytes_append_inj fields
  obtain ⟨deadline, fields⟩ := u64Bytes_append_inj fields
  obtain ⟨issuer, fields⟩ := Raw.append_inj fields
  cases p
  cases q
  simp only [ProposalBody.mk.injEq]
  exact ⟨policyId, digest, nonce, issued, deadline, issuer, u64Bytes_injective fields⟩

variable (P hash) in
/-- What a certificate proves: at least `k` devices of the roster the master signed have each
signed an approval of this proposal with a key the master attested for it. -/
def Authorized (Signed : P.VerifyingKey → Bytes → Prop) (masterVk : P.VerifyingKey)
    (c : QuorumCertificate) : Prop :=
  Signed masterVk c.policy.canonicalTranscript ∧
  (∃ devices : List DeviceId, devices.Nodup ∧ c.policy.k.toNat ≤ devices.length ∧
    ∀ d ∈ devices, d ∈ c.policy.eligibleDevices ∧
      ∃ a ∈ c.subkeyAttestations, ∃ vk day approved,
        a.deviceId = d ∧ Signed masterVk a.canonicalTranscript ∧
        P.fromBytes a.subkeyVkBytes = some vk ∧ a.coversDay day ∧
        Signed vk (QuorumApproval.canonicalTranscript (c.proposal.proposalId hash) d day approved)) ∧
  ∀ body : ProposalBody, body.proposalId hash = c.proposal.proposalId hash →
    body = c.proposal.toProposalBody

theorem authorized_of_verify {Signed : P.VerifyingKey → Bytes → Prop}
    (unforged : ∀ vk m sig, P.verify vk m sig = true → Signed vk m)
    (collisionFree : Function.Injective hash) {c : QuorumCertificate} {masterVk : P.VerifyingKey}
    {now : UInt64} (verified : c.verify P hash masterVk now = .ok ()) :
    Authorized P hash Signed masterVk c := by
  obtain ⟨-, -, policy, attested, -, -, -, -, all, nodup, enough⟩ :=
    QuorumCertificate.verify_eq_ok.mp verified
  simp only [QuorumPolicy.verify, bind_eq_ok, require_eq_ok] at policy
  obtain ⟨_, -, signed⟩ := policy
  refine ⟨unforged _ _ _ signed,
    ⟨c.approvals.map QuorumApproval.approverDeviceId, nodup, by simpa using enough, ?_⟩,
    fun body => proposalId_injective collisionFree⟩
  intro d held
  obtain ⟨approval, present, rfl⟩ := List.mem_map.mp held
  obtain ⟨proposal, -, eligible, vk, found, signed⟩ := all approval present
  obtain ⟨a, among, device, covers, read⟩ := QuorumCertificate.subkeyVkFor_eq_ok found
  have master := attested a among
  simp only [SubkeyAttestation.verify, QuorumApproval.verify, bind_eq_ok, require_eq_ok,
    exists_const] at master signed
  rw [proposal] at signed
  exact ⟨of_decide_eq_true eligible, a, among, vk, _, _, device, unforged _ _ _ master.2, read,
    covers, unforged _ _ _ signed.2⟩

/-! ## Honest signers -/

/-- A device whose subkey was minted from `seed` and stepped since. -/
structure Signer where
  seed : Bytes
  cls : DeviceClass
  deviceId : DeviceId
  mintDay : UInt64
  expiryDay : UInt64
  steps : Nat

namespace Signer

def minted (s : Signer) : DeviceSubkey := ⟨s.seed, s.cls, s.deviceId, s.mintDay⟩

variable (hash) in
def subkey (s : Signer) : DeviceSubkey := (DeviceSubkey.stepOneDay hash)^[s.steps] s.minted

variable (P) in
def attestation (masterSeed : Bytes) (s : Signer) : SubkeyAttestation :=
  (mintFromSeed P masterSeed s.seed s.cls s.deviceId s.mintDay s.expiryDay).2

variable (hash) in
/-- The current day is in the window of the attestation. -/
def Covered (s : Signer) : Prop :=
  s.mintDay ≤ (s.subkey hash).dayIndex ∧ (s.subkey hash).dayIndex ≤ s.expiryDay

variable (P hash) in
/-- The key in use is the one that was attested. -/
def Attested (s : Signer) : Prop := (s.subkey hash).verifyingKey P = s.minted.verifyingKey P

theorem deviceId_subkey (s : Signer) : (s.subkey hash).deviceId = s.deviceId := by
  have kept (n : Nat) (k : DeviceSubkey) :
      ((DeviceSubkey.stepOneDay hash)^[n] k).deviceId = k.deviceId := by
    induction n generalizing k with
    | zero => rfl
    | succ n ih =>
      rw [Function.iterate_succ_apply, ih]
      rfl
  exact kept s.steps s.minted

theorem attested_of_unstepped {s : Signer} (unstepped : s.steps = 0) : s.Attested P hash := by
  rw [Attested, subkey, unstepped]
  rfl

end Signer

variable (P hash) in
/-- A certificate made with `mint_policy`, `propose_operation` and `sign_approval` by devices
of the roster, with the attestations of the signers in any order. -/
structure Built where
  masterSeed : Bytes
  policy : QuorumPolicy
  policyMinted : mintPolicy P masterSeed policy.policyId policy.label policy.k
    policy.eligibleDevices = .ok policy
  signers : List Signer
  distinct : (signers.map Signer.deviceId).Nodup
  covered : ∀ s ∈ signers, s.Covered hash
  issuer : Signer
  issuerSigns : issuer ∈ signers
  approvers : List (Signer × UInt64)
  approversSign : ∀ s ∈ approvers, s.1 ∈ signers
  eligible : ∀ s ∈ approvers, policy.isEligible s.1.deviceId = true
  approversDistinct : (approvers.map fun s => s.1.deviceId).Nodup
  enough : policy.k.toNat ≤ approvers.length
  proposal : QuorumProposal
  proposed : proposeOperation P (issuer.subkey hash) policy proposal.operationDigest proposal.nonce
    proposal.issuedUnix proposal.deadlineUnix = .ok proposal
  approvals : List QuorumApproval
  approved : List.Forall₂ (fun s a => signApproval P hash (s.1.subkey hash) proposal s.2 = .ok a)
    approvers approvals
  attestations : List SubkeyAttestation
  attestationsOf : attestations.Perm (signers.map (Signer.attestation P masterSeed))

namespace Built

def certificate (b : Built P hash) : QuorumCertificate :=
  ⟨b.proposal, b.approvals, b.policy, b.attestations⟩

/-- Who signed anything: the issuer and the approvers. -/
def inUse (b : Built P hash) : List Signer := b.issuer :: b.approvers.map Prod.fst

theorem find_attestation (b : Built P hash) {s : Signer} (signs : s ∈ b.signers) :
    b.attestations.find? (fun a => a.deviceId = s.deviceId ∧ a.coversDay (s.subkey hash).dayIndex) =
      some (s.attestation P b.masterSeed) := by
  have among : s.attestation P b.masterSeed ∈ b.attestations :=
    b.attestationsOf.mem_iff.mpr (List.mem_map_of_mem signs)
  have only : ∀ a ∈ b.attestations, a.deviceId = s.deviceId → a = s.attestation P b.masterSeed := by
    intro a present device
    obtain ⟨other, signs', rfl⟩ := List.mem_map.mp (b.attestationsOf.mem_iff.mp present)
    rw [List.inj_on_of_nodup_map b.distinct signs' signs device]
  cases found : b.attestations.find?
      (fun a => a.deviceId = s.deviceId ∧ a.coversDay (s.subkey hash).dayIndex) with
  | none =>
    have missed := List.find?_eq_none.mp found _ among
    rw [decide_eq_true_eq] at missed
    exact absurd ⟨rfl, b.covered s signs⟩ missed
  | some a =>
    have matched := List.find?_some found
    rw [decide_eq_true_eq] at matched
    rw [only a (List.mem_of_find?_eq_some found) matched.1]

theorem subkeyVkFor_eq (lawful : P.Lawful) (b : Built P hash) {s : Signer} (signs : s ∈ b.signers) :
    b.certificate.subkeyVkFor P s.deviceId (s.subkey hash).dayIndex =
      .ok (s.minted.verifyingKey P) := by
  have length : (s.attestation P b.masterSeed).subkeyVkBytes.length = hybridVkLen :=
    lawful.length_toBytes _
  have read : P.fromBytes (s.attestation P b.masterSeed).subkeyVkBytes =
      some (s.minted.verifyingKey P) := lawful.fromBytes_toBytes _
  simp only [QuorumCertificate.subkeyVkFor, certificate, b.find_attestation signs]
  rw [if_neg (not_not.mpr length), read]

/-- An honest signature verifies under the attested key if that is the key in use. -/
theorem signed_iff (lawful : P.Lawful) (b : Built P hash) {s : Signer} (signs : s ∈ b.signers)
    (m : Bytes) :
    (∃ vk, b.certificate.subkeyVkFor P (s.subkey hash).deviceId (s.subkey hash).dayIndex = .ok vk ∧
      P.verify vk m ((s.subkey hash).sign P m) = true) ↔ s.Attested P hash := by
  rw [s.deviceId_subkey, b.subkeyVkFor_eq lawful signs]
  constructor
  · rintro ⟨vk, same, verified⟩
    obtain rfl := Except.ok.inj same
    exact ((lawful.verify_sign _ _ _).mp verified).symm
  · intro attested
    exact ⟨_, rfl, (lawful.verify_sign _ _ _).mpr attested.symm⟩

theorem policy_verify (lawful : P.Lawful) (b : Built P hash) :
    b.policy.verify P (P.verifyingKey b.masterSeed) = .ok () ∧
      b.policy.eligibleDevices.length ≤ maxEligibleDevices := by
  have minted := b.policyMinted
  simp only [mintPolicy, QuorumPolicy.shapeCheck, bind_eq_ok, require_eq_ok, exists_const,
    pure_eq_ok_iff] at minted
  obtain ⟨⟨label, some, few, threshold, distinct, -⟩, same⟩ := minted
  have sig : b.policy.masterSig = P.sign b.masterSeed b.policy.canonicalTranscript :=
    (congrArg QuorumPolicy.masterSig same).symm
  refine ⟨?_, few⟩
  simp only [QuorumPolicy.verify, QuorumPolicy.shapeCheck, bind_eq_ok, require_eq_ok, exists_const]
  refine ⟨⟨label, some, few, threshold, distinct, ?_⟩, ?_⟩
  · rw [sig]
    exact lawful.length_sign _ _
  · rw [sig]
    exact (lawful.verify_sign _ _ _).mpr rfl

theorem attestations_verify (lawful : P.Lawful) (b : Built P hash) :
    ∀ a ∈ b.attestations, a.verify P (P.verifyingKey b.masterSeed) = .ok () := by
  intro a present
  obtain ⟨s, -, rfl⟩ := List.mem_map.mp (b.attestationsOf.mem_iff.mp present)
  exact buildAttestation_verify lawful _ _ _ _

/-- The proposal names the policy and its issuer, who signed it. -/
theorem proposal_eq (b : Built P hash) :
    b.policy.isEligible (b.issuer.subkey hash).deviceId = true ∧
      b.proposal.policyId = b.policy.policyId ∧
      b.proposal.issuerDeviceId = (b.issuer.subkey hash).deviceId ∧
      b.proposal.issuerDayIndex = (b.issuer.subkey hash).dayIndex ∧
      b.proposal.issuerSig =
        (b.issuer.subkey hash).sign P b.proposal.toProposalBody.canonicalTranscript := by
  have proposed := b.proposed
  simp only [proposeOperation, bind_eq_ok, require_eq_ok, exists_const, pure_eq_ok_iff] at proposed
  obtain ⟨eligible, -, same⟩ := proposed
  have body := congrArg QuorumProposal.toProposalBody same
  refine ⟨eligible, congrArg ProposalBody.policyId body.symm,
    congrArg ProposalBody.issuerDeviceId body.symm, congrArg ProposalBody.issuerDayIndex body.symm, ?_⟩
  rw [← congrArg QuorumProposal.issuerSig same, ← body]

theorem issuer_iff (lawful : P.Lawful) (b : Built P hash) :
    (∃ vk, b.certificate.subkeyVkFor P b.proposal.issuerDeviceId b.proposal.issuerDayIndex = .ok vk ∧
      b.proposal.verifyIssuer P vk = .ok ()) ↔ b.issuer.Attested P hash := by
  obtain ⟨-, -, device, day, sig⟩ := b.proposal_eq
  rw [← b.signed_iff lawful b.issuerSigns b.proposal.toProposalBody.canonicalTranscript, device, day]
  simp only [QuorumProposal.verifyIssuer, bind_eq_ok, require_eq_ok, exists_const, sig]
  refine exists_congr fun vk => and_congr_right fun _ => and_iff_right ?_
  exact lawful.length_sign _ _

/-- What `sign_approval` returns. -/
theorem approval_eq {s : Signer × UInt64} {proposal : QuorumProposal} {a : QuorumApproval}
    (signed : signApproval P hash (s.1.subkey hash) proposal s.2 = .ok a) :
    ¬ s.2 > proposal.deadlineUnix ∧ a.proposalId = proposal.proposalId hash ∧
      a.approvedUnix = s.2 ∧ a.approverDeviceId = (s.1.subkey hash).deviceId ∧
      a.approverDayIndex = (s.1.subkey hash).dayIndex ∧
      a.approverSig = (s.1.subkey hash).sign P (QuorumApproval.canonicalTranscript a.proposalId
        a.approverDeviceId a.approverDayIndex a.approvedUnix) := by
  simp only [signApproval, bind_eq_ok, require_eq_ok, exists_const, pure_eq_ok_iff] at signed
  obtain ⟨inTime, rfl⟩ := signed
  exact ⟨inTime, rfl, rfl, rfl, rfl, rfl⟩

theorem approves_iff (lawful : P.Lawful) (b : Built P hash) {s : Signer × UInt64}
    (approves : s ∈ b.approvers) {a : QuorumApproval}
    (signed : signApproval P hash (s.1.subkey hash) b.proposal s.2 = .ok a) :
    b.certificate.Approves P hash a ↔ s.1.Attested P hash := by
  obtain ⟨inTime, proposal, time, device, day, sig⟩ := approval_eq signed
  have eligible := b.eligible s approves
  have sameDevice : (s.1.subkey hash).deviceId = s.1.deviceId := s.1.deviceId_subkey
  rw [← sameDevice, ← device] at eligible
  rw [← b.signed_iff lawful (b.approversSign s approves)
    (QuorumApproval.canonicalTranscript a.proposalId a.approverDeviceId a.approverDayIndex
      a.approvedUnix), ← device, ← day, ← sig]
  have length : a.approverSig.length = hybridSigLen := by
    rw [sig]
    exact lawful.length_sign _ _
  have check (vk : P.VerifyingKey) : a.verify P vk = .ok () ↔
      P.verify vk (QuorumApproval.canonicalTranscript a.proposalId a.approverDeviceId
        a.approverDayIndex a.approvedUnix) a.approverSig = true := by
    simp only [QuorumApproval.verify, bind_eq_ok, require_eq_ok, exists_const]
    exact and_iff_right length
  constructor
  · rintro ⟨-, -, -, vk, found, verified⟩
    exact ⟨vk, found, (check vk).mp verified⟩
  · rintro ⟨vk, found, verified⟩
    exact ⟨proposal, time ▸ inTime, eligible, vk, found, (check vk).mpr verified⟩

theorem approvals_iff (lawful : P.Lawful) (b : Built P hash) :
    (∀ a ∈ b.approvals, b.certificate.Approves P hash a) ↔
      ∀ s ∈ b.approvers, s.1.Attested P hash := by
  have each : List.Forall₂ (fun s a => b.certificate.Approves P hash a ↔ s.1.Attested P hash)
      b.approvers b.approvals := by
    refine (List.forall₂_iff_zip.mpr ⟨b.approved.length_eq, fun {s a} both => ?_⟩)
    exact b.approves_iff lawful (List.of_mem_zip both).1
      ((List.forall₂_iff_zip.mp b.approved).2 both)
  generalize b.approvers = approvers at each
  generalize b.approvals = approvals at each
  induction each with
  | nil => simp
  | cons here _ ih =>
    rw [List.forall_mem_cons, List.forall_mem_cons]
    exact and_congr here ih

theorem devices_eq (b : Built P hash) :
    b.approvals.map QuorumApproval.approverDeviceId = b.approvers.map fun s => s.1.deviceId := by
  have each := b.approved
  generalize b.approvers = approvers at each
  generalize b.approvals = approvals at each
  induction each with
  | nil => rfl
  | cons here _ ih =>
    rw [List.map_cons, List.map_cons, ih, (approval_eq here).2.2.2.1, Signer.deviceId_subkey]

/-- An honest certificate verifies before its deadline exactly if every signer's key is the
attested one. -/
theorem verify_iff (lawful : P.Lawful) (b : Built P hash) {now : UInt64}
    (live : ¬ now > b.proposal.deadlineUnix) :
    b.certificate.verify P hash (P.verifyingKey b.masterSeed) now = .ok () ↔
      ∀ s ∈ b.inUse, s.Attested P hash := by
  obtain ⟨policy, roster⟩ := b.policy_verify lawful
  obtain ⟨issuer, same, device, -, -⟩ := b.proposal_eq
  have count : b.approvals.length = b.approvers.length := b.approved.length_eq.symm
  have few : b.approvals.length ≤ maxApprovals := by
    have within : (b.approvers.map fun s => s.1.deviceId) ⊆ b.policy.eligibleDevices := by
      intro d held
      obtain ⟨s, approves, rfl⟩ := List.mem_map.mp held
      exact of_decide_eq_true (b.eligible s approves)
    have bound := (List.Nodup.subperm b.approversDistinct within).length_le
    rw [List.length_map] at bound
    exact count.trans_le (bound.trans roster)
  have signers : (∀ s ∈ b.inUse, s.Attested P hash) ↔
      b.issuer.Attested P hash ∧ ∀ s ∈ b.approvers, s.1.Attested P hash := by
    simp only [inUse, List.forall_mem_cons, List.forall_mem_map]
  rw [signers, ← b.issuer_iff lawful, ← b.approvals_iff lawful, QuorumCertificate.verify_eq_ok]
  constructor
  · rintro ⟨-, -, -, -, -, -, -, issued, approved, -, -⟩
    exact ⟨issued, approved⟩
  · rintro ⟨issued, approved⟩
    refine ⟨few, roster, policy, b.attestations_verify lawful, same, live, ?_, issued, approved, ?_, ?_⟩
    · show b.policy.isEligible b.proposal.issuerDeviceId = true
      rw [device]
      exact issuer
    · exact b.devices_eq ▸ b.approversDistinct
    · exact b.enough.trans count.ge

end Built

/-- **Quorum certificates.**  A certificate that honest devices build verifies before its
deadline exactly if each signer still uses the key its attestation binds; and whatever
certificate verifies is authorized. -/
theorem quorum_certificates (P : Pqsig) (hash : Bytes → Bytes) (lawful : P.Lawful)
    (collisionFree : Function.Injective hash) (Signed : P.VerifyingKey → Bytes → Prop)
    (unforged : ∀ vk m sig, P.verify vk m sig = true → Signed vk m) :
    (∀ (b : Built P hash) (now : UInt64), now ≤ b.proposal.deadlineUnix →
      (b.certificate.verify P hash (P.verifyingKey b.masterSeed) now = .ok () ↔
        ∀ s ∈ b.inUse, s.Attested P hash)) ∧
    ∀ (c : QuorumCertificate) (masterVk : P.VerifyingKey) (now : UInt64),
      c.verify P hash masterVk now = .ok () → Authorized P hash Signed masterVk c :=
  ⟨fun b _ live => b.verify_iff lawful (UInt64.not_lt.mpr live),
    fun _ _ _ => authorized_of_verify unforged collisionFree⟩

section Examples

/-- Keys of one byte, the first of the seed; a signature is the key over and over. -/
def bytePqsig : Pqsig where
  VerifyingKey := UInt8
  verifyingKey seed := seed.headD 0
  toBytes vk := List.replicate hybridVkLen vk
  fromBytes b := if b = List.replicate hybridVkLen (b.headD 0) then some (b.headD 0) else none
  sign seed _ := List.replicate hybridSigLen (seed.headD 0)
  verify vk _ sig := sig = List.replicate hybridSigLen vk

theorem bytePqsig_lawful : bytePqsig.Lawful where
  length_sign _ _ := List.length_replicate
  length_toBytes _ := List.length_replicate
  fromBytes_toBytes _ := if_pos rfl
  verify_sign vk seed m := by
    have repeated (a b : UInt8) :
        List.replicate hybridSigLen a = List.replicate hybridSigLen b ↔ b = a := by
      rw [List.replicate_inj, eq_comm (a := b)]
      simp [hybridSigLen]
    exact decide_eq_true_iff.trans (repeated (seed.headD 0) vk)

def phoneSigner (stepped : Bool) : Signer :=
  ⟨[1], .phone, filled 16 1, 0, 365, stepped.toNat⟩

def laptopSigner (stepped : Bool) : Signer :=
  ⟨[2], .laptop, filled 16 2, 0, 365, stepped.toNat⟩

def pairPolicy : QuorumPolicy :=
  let unsigned : QuorumPolicy :=
    ⟨filled 16 0x42, ascii "p", 1,
      [filled 16 1, filled 16 2], List.replicate hybridSigLen 0⟩
  { unsigned with masterSig := bytePqsig.sign [9] unsigned.canonicalTranscript }

def pairProposal (stepped : Bool) : QuorumProposal :=
  let issuer := (phoneSigner stepped).subkey id
  let body : ProposalBody :=
    ⟨pairPolicy.policyId, ⟨List.replicate 32 0xEE, rfl⟩, ⟨List.replicate 16 0xDA, rfl⟩, 0, 3600,
      issuer.deviceId, issuer.dayIndex⟩
  ⟨body, issuer.sign bytePqsig body.canonicalTranscript⟩

def pairApproval (stepped : Bool) : QuorumApproval :=
  let approver := (laptopSigner stepped).subkey id
  let proposalId := (pairProposal stepped).proposalId id
  ⟨proposalId, approver.deviceId, approver.dayIndex, 60,
    approver.sign bytePqsig (QuorumApproval.canonicalTranscript proposalId approver.deviceId
      approver.dayIndex 60)⟩

/-- A phone proposes and a laptop approves, on the day they were minted or on the next. -/
def pairBuilt (stepped : Bool) : Built bytePqsig id where
  masterSeed := [9]
  policy := pairPolicy
  policyMinted := by
    simp only [mintPolicy, QuorumPolicy.shapeCheck, bind_eq_ok, require_eq_ok, exists_const,
      pure_eq_ok_iff]
    refine ⟨⟨by decide, by decide, by decide, by decide, by decide +kernel, ?_⟩, rfl⟩
    exact List.length_replicate
  signers := [phoneSigner stepped, laptopSigner stepped]
  distinct := by
    show [(⟨List.replicate 16 1, rfl⟩ : DeviceId), ⟨List.replicate 16 2, rfl⟩].Nodup
    decide +kernel
  covered := by
    intro s signs
    simp only [List.mem_cons, List.not_mem_nil, or_false] at signs
    rcases signs with rfl | rfl <;> cases stepped <;> exact ⟨by decide, by decide⟩
  issuer := phoneSigner stepped
  issuerSigns := List.mem_cons_self
  approvers := [(laptopSigner stepped, 60)]
  approversSign := by simp
  eligible := by
    intro s approves
    rw [List.mem_singleton] at approves
    rw [approves]
    cases stepped <;> rfl
  approversDistinct := List.pairwise_singleton _ _
  enough := Nat.le_refl 1
  proposal := pairProposal stepped
  proposed := by cases stepped <;> rfl
  approvals := [pairApproval stepped]
  approved := .cons (by cases stepped <;> rfl) .nil
  attestations :=
    [(phoneSigner stepped).attestation bytePqsig [9], (laptopSigner stepped).attestation bytePqsig [9]]
  attestationsOf := .refl _

theorem quorum_certificates_mint_day :
    (pairBuilt false).certificate.verify bytePqsig id (bytePqsig.verifyingKey [9]) 200 = .ok () :=
  ((quorum_certificates bytePqsig id bytePqsig_lawful Function.injective_id
    (fun vk m => ∃ sig, bytePqsig.verify vk m sig = true) (fun _ _ sig ok => ⟨sig, ok⟩)).1
    (pairBuilt false) 200 (by decide)).mpr (by
      intro s used
      apply Signer.attested_of_unstepped
      simp only [Built.inUse, pairBuilt, List.map_cons, List.map_nil, List.mem_cons,
        List.not_mem_nil, or_false] at used
      rcases used with rfl | rfl <;> rfl)

/-- One day later both devices have stepped, within the window, and the certificate fails. -/
theorem stepped_certificate_rejected :
    ∃ (b : Built bytePqsig id) (now : UInt64), now ≤ b.proposal.deadlineUnix ∧
      b.certificate.verify bytePqsig id (bytePqsig.verifyingKey b.masterSeed) now ≠ .ok () := by
  refine ⟨pairBuilt true, 200, by decide, fun verified => ?_⟩
  have attested := ((pairBuilt true).verify_iff bytePqsig_lawful (by decide)).mp verified
    (phoneSigner true) List.mem_cons_self
  have keys : (79 : UInt8) = 1 := attested
  exact absurd keys (by decide)

end Examples

end OneLink.DeviceMesh
