/-
# IdentityDag.Binding -- what an accepted attestation binds

Honest roots and devices sign through `encode_device_cert` and
`encode_attestation`; everything else in a run is an attacker presenting byte
strings, whose certificates under keys of its own and spliced parts need no
step.  Against unforgeable signatures an accepted attestation under an honest
device's key proves that the device signed this challenge and this transcript,
and under an honest root's key that the root certified this device
(`accepted_attestation_binds`).  It does not prove that the device named this
root: the device's signature covers no certificate (`spliced_attestation_accepted`).
-/
import OneLink.IdentityDag.Attestation
import OneLink.Library.Run

namespace OneLink.IdentityDag

open Library

set_option autoImplicit false

/-! ## Signed messages -/

theorem framed_append_inj {field field' rest rest' : Bytes} (small : field.length < 65536)
    (small' : field'.length < 65536) (same : framed field ++ rest = framed field' ++ rest') :
    field = field' ∧ rest = rest' := by
  rw [framed, framed, List.append_assoc, List.append_assoc] at same
  obtain ⟨lengths, behind⟩ := List.append_inj same (by rw [length_beBytes, length_beBytes])
  exact List.append_inj behind (beBytes_inj small small' lengths)

theorem attestationInput_inj {challenge challenge' transcript transcript' : Bytes}
    (small : challenge.length < 65536) (small' : challenge'.length < 65536)
    (same : attestationInput challenge transcript = attestationInput challenge' transcript') :
    challenge = challenge' ∧ transcript = transcript' := by
  have fields := List.append_cancel_left same
  obtain ⟨challenges, transcripts⟩ := framed_append_inj small small' fields
  rw [framed, framed] at transcripts
  exact ⟨challenges, (List.append_inj' transcripts (by
    have lengths := congrArg List.length transcripts
    rw [List.length_append, List.length_append, length_beBytes, length_beBytes] at lengths
    omega)).2⟩

theorem certBody_inj {root root' device device' kind kind' : Bytes} {added added' expires expires' : Nat}
    (rootLength : root.length = root'.length) (deviceLength : device.length = device'.length)
    (addedFits : added < 256 ^ 8) (addedFits' : added' < 256 ^ 8)
    (expiresFits : expires < 256 ^ 8) (expiresFits' : expires' < 256 ^ 8)
    (same : certBody root device added expires kind = certBody root' device' added' expires' kind') :
    root = root' ∧ device = device' ∧ added = added' ∧ expires = expires' ∧ kind = kind' := by
  have fields := List.append_cancel_left (List.append_cancel_left same)
  obtain ⟨roots, fields⟩ := List.append_inj fields rootLength
  obtain ⟨devices, fields⟩ := List.append_inj fields deviceLength
  obtain ⟨addeds, fields⟩ := List.append_inj fields (by rw [length_beBytes, length_beBytes])
  obtain ⟨expires, fields⟩ := List.append_inj fields (by rw [length_beBytes, length_beBytes])
  obtain ⟨_, kinds⟩ := List.append_inj fields (by rw [length_beBytes, length_beBytes])
  exact ⟨roots, devices, beBytes_inj addedFits addedFits' addeds,
    beBytes_inj expiresFits expiresFits' expires, kinds⟩

/-- No message is signed both as a certificate and as an attestation. -/
theorem certBody_ne_attestationInput (root device kind challenge transcript : Bytes)
    (added expires : Nat) :
    certBody root device added expires kind ≠ attestationInput challenge transcript := by
  intro same
  have fronts : ascii "OLI" = ascii "OL/" := congrArg (List.take 3) same
  exact absurd fronts (by decide)

/-! ## Runs -/

/-- A step of a run: an honest root certifies, an honest device attests, or anyone presents bytes to
a verifier that expects these bindings. -/
inductive Step where
  | certify (seed devicePub : Bytes) (deviceKind : String) (addedMs expiresMs : Int)
  | attest (seed cert challenge transcript : Bytes)
  | present (blob : Bytes) (rootPub challenge transcript : Option Bytes) (nowMs : Int)

/-- The message an honest step signs, with the public key it is signed under. -/
def Step.signs (E : Ed25519) : Step → Option (Bytes × Bytes)
  | .certify seed devicePub kind added expires =>
    match checkDeviceCert seed (E.publicKey seed) devicePub kind added expires with
    | .ok () => some (E.publicKey seed,
        certBody (E.publicKey seed) devicePub added.toNat expires.toNat (utf8 kind))
    | .error _ => none
  | .attest seed cert challenge transcript =>
    match checkAttestation seed cert challenge transcript with
    | .ok () => some (E.publicKey seed, attestationInput challenge transcript)
    | .error _ => none
  | .present .. => none

/-- What the honest parties have signed. -/
def signedBy (E : Ed25519) (past : List Step) : List (Bytes × Bytes) := past.filterMap (Step.signs E)

/-- Unforgeability, at the signatures a verifier checks in a presented attestation: under an honest
key only what was signed with it passes. -/
def Unforged (E : Ed25519) (honest : List Bytes) (past : List Step) : Step → Prop
  | .present blob .. => ∀ att, parseAttestation blob = .ok att →
      (att.cert.rootPub ∈ honest → E.verify att.cert.rootPub att.cert.signature att.cert.body = true →
        (att.cert.rootPub, att.cert.body) ∈ signedBy E past) ∧
      (att.cert.devicePub ∈ honest →
        E.verify att.cert.devicePub att.signature
          (attestationInput att.challenge att.transcript) = true →
        (att.cert.devicePub, attestationInput att.challenge att.transcript) ∈ signedBy E past)
  | _ => True

/-- A step is added to the history. -/
def record (past : List Step) (step : Step) : List Step := past ++ [step]

variable {E : Ed25519} {past : List Step} {pub message : Bytes}

theorem run_record (past actions : List Step) : run record past actions = past ++ actions := by
  induction actions generalizing past with
  | nil => rw [run_nil, List.append_nil]
  | cons a rest ih => rw [run_cons, ih, record, List.append_assoc, List.singleton_append]

theorem mem_signedBy :
    (pub, message) ∈ signedBy E past ↔ ∃ step ∈ past, step.signs E = some (pub, message) :=
  List.mem_filterMap

/-- A signed attestation message was signed by an attestation of its challenge and transcript. -/
theorem attested_of_signed {challenge transcript : Bytes} (small : challenge.length ≤ maxChallengeLen)
    (signed : (pub, attestationInput challenge transcript) ∈ signedBy E past) :
    ∃ seed cert, Step.attest seed cert challenge transcript ∈ past ∧ E.publicKey seed = pub ∧
      checkAttestation seed cert challenge transcript = .ok () := by
  obtain ⟨step, inPast, signs⟩ := mem_signedBy.1 signed
  cases step with
  | certify seed devicePub kind added expires =>
    rw [Step.signs] at signs
    split at signs
    · have messages := (Prod.mk.inj (Option.some.inj signs)).2
      exact absurd messages (certBody_ne_attestationInput _ _ _ _ _ _ _)
    · cases signs
  | attest seed cert challenge' transcript' =>
    rw [Step.signs] at signs
    split at signs
    · rename_i checked
      obtain ⟨keys, messages⟩ := Prod.mk.inj (Option.some.inj signs)
      have limits := checked
      simp only [checkAttestation, bind_eq_ok, require_eq_ok, exists_const] at limits
      simp only [maxChallengeLen] at small limits
      obtain ⟨rfl, rfl⟩ := attestationInput_inj (by omega) (by omega) messages
      exact ⟨seed, cert, inPast, keys, checked⟩
    · cases signs
  | present => cases signs

/-- A signed certificate body was signed by certifying exactly its fields. -/
theorem certified_of_signed {devicePub : Bytes} {added expires : Nat} {kind : String}
    (rootLength : pub.length = edPubLen) (deviceLength : devicePub.length = edPubLen)
    (addedFits : added ≤ maxI64) (expiresFits : expires ≤ maxI64)
    (signed : (pub, certBody pub devicePub added expires (utf8 kind)) ∈ signedBy E past) :
    ∃ seed, Step.certify seed devicePub kind added expires ∈ past ∧ E.publicKey seed = pub ∧
      checkDeviceCert seed pub devicePub kind added expires = .ok () := by
  obtain ⟨step, inPast, signs⟩ := mem_signedBy.1 signed
  cases step with
  | certify seed devicePub' kind' added' expires' =>
    rw [Step.signs] at signs
    split at signs
    · rename_i checked
      obtain ⟨keys, messages⟩ := Prod.mk.inj (Option.some.inj signs)
      have limits := checked
      simp only [checkDeviceCert, bind_eq_ok, require_eq_ok, exists_const] at limits
      obtain ⟨_, keyLength, deviceLength', _, _, _, addedRange, expiresRange, _⟩ := limits
      simp only [maxI64] at addedFits expiresFits addedRange expiresRange
      obtain ⟨_, rfl, sameAdded, sameExpires, kinds⟩ := certBody_inj
        (keyLength.trans rootLength.symm) (deviceLength'.trans deviceLength.symm) (by omega)
        (by omega) (by omega) (by omega) messages
      obtain rfl := utf8_inj kinds
      obtain rfl : added' = added := by omega
      obtain rfl : expires' = expires := by omega
      rw [keys] at checked
      exact ⟨seed, inPast, keys, checked⟩
    · cases signs
  | attest seed cert challenge transcript =>
    rw [Step.signs] at signs
    split at signs
    · have messages := (Prod.mk.inj (Option.some.inj signs)).2
      exact absurd messages.symm (certBody_ne_attestationInput _ _ _ _ _ _ _)
    · cases signs
  | present => cases signs

/-! ## What is accepted -/

/-- What `verify_device_cert` has checked of a certificate it returns. -/
theorem verifyDeviceCert_eq_ok {blob : Bytes} {expected : Option Bytes} {now : Int} {cert : DeviceCert}
    (verified : verifyDeviceCert E blob expected now = .ok cert) :
    parseDeviceCert blob = .ok cert ∧ E.verify cert.rootPub cert.signature cert.body = true ∧
      cert.addedMs ≤ maxI64 ∧ cert.expiresMs ≤ maxI64 ∧
      ∀ wanted, expected = some wanted → cert.rootPub = wanted := by
  simp only [verifyDeviceCert, bind_eq_ok, require_eq_ok, exists_const] at verified
  obtain ⟨parsed, read, signed, _, _, range, _, _, root, _, _, _, shape⟩ := verified
  obtain rfl := Except.ok.inj shape
  obtain ⟨_, bytes, length⟩ := parseDeviceCert_encoded read
  have body : blob.take (blob.length - sigLen) = parsed.body := by
    conv_lhs => rw [bytes]
    rw [List.length_append, length, Nat.add_sub_cancel, List.take_left]
  rw [body] at signed
  refine ⟨read, signed, by omega, by omega, ?_⟩
  rintro wanted rfl
  exact requireExpected_some.1 root

theorem verifyAttestation_eq_ok {blob : Bytes} {root challenge transcript : Option Bytes} {now : Int}
    {att : SessionAttestation}
    (verified : verifyAttestation E blob root challenge transcript now = .ok att) :
    parseAttestation blob = .ok att ∧
      verifyDeviceCert E att.cert.encoded root now = .ok att.cert ∧
      E.verify att.cert.devicePub att.signature
        (attestationInput att.challenge att.transcript) = true ∧
      (∀ wanted, challenge = some wanted → att.challenge = wanted) ∧
      ∀ wanted, transcript = some wanted → att.transcript = wanted := by
  simp only [verifyAttestation, bind_eq_ok, require_eq_ok, exists_const] at verified
  obtain ⟨parsed, read, cert, inner, signed, _, challenges, _, transcripts, shape⟩ := verified
  obtain rfl := Except.ok.inj shape
  have again := (parseAttestation_encoded read).2.1
  rw [(verifyDeviceCert_eq_ok inner).1] at again
  obtain rfl := Except.ok.inj again
  refine ⟨read, inner, signed, ?_, ?_⟩
  · rintro wanted rfl
    exact requireExpected_some.1 challenges
  · rintro wanted rfl
    exact requireExpected_some.1 transcripts

theorem parseDeviceCert_lengths {blob : Bytes} {cert : DeviceCert}
    (parsed : parseDeviceCert blob = .ok cert) :
    cert.rootPub.length = edPubLen ∧ cert.devicePub.length = edPubLen := by
  simp only [parseDeviceCert, bind_eq_ok, require_eq_ok, exists_const] at parsed
  obtain ⟨long, _, _, _, _, _, _, _, shape⟩ := parsed
  obtain rfl := Except.ok.inj shape
  simp only [certHeaderFixedLen, edPubLen, sigLen] at long
  exact ⟨length_slice (by omega), length_slice (by omega)⟩

/-- **What an accepted attestation binds.**  In every run, whatever is presented: the blob is the
encoding of its parsed fields; under an honest device's key the device attested exactly this
challenge and this transcript; under an honest root's key the root issued exactly this
certificate. -/
theorem accepted_attestation_binds (E : Ed25519) (honest : List Bytes) (actions : List Step)
    (unforged : EachStep record (Unforged E honest) [] actions)
    (early late : List Step) (blob rootPub challenge transcript : Bytes) (nowMs : Int)
    (att : SessionAttestation)
    (split : actions = early ++ .present blob (some rootPub) (some challenge) (some transcript) nowMs
      :: late)
    (accepted : verifyAttestation E blob (some rootPub) (some challenge) (some transcript) nowMs
      = .ok att) :
    blob = attestationBytes (att.cert.body ++ att.cert.signature) att.challenge att.transcript
        att.signature ∧
      att.cert.rootPub = rootPub ∧ att.challenge = challenge ∧ att.transcript = transcript ∧
      (att.cert.devicePub ∈ honest → ∃ seed cert,
        Step.attest seed cert challenge transcript ∈ early ∧ E.publicKey seed = att.cert.devicePub ∧
          checkAttestation seed cert challenge transcript = .ok ()) ∧
      (rootPub ∈ honest → ∃ seed,
        Step.certify seed att.cert.devicePub att.cert.deviceKind att.cert.addedMs
            att.cert.expiresMs ∈ early ∧
          E.publicKey seed = rootPub) := by
  obtain ⟨read, inner, signed, challenges, transcripts⟩ := verifyAttestation_eq_ok accepted
  obtain ⟨readCert, rootSigned, addedFits, expiresFits, roots⟩ := verifyDeviceCert_eq_ok inner
  obtain ⟨_, _, bytes, small, _⟩ := parseAttestation_encoded read
  obtain ⟨rootLength, deviceLength⟩ := parseDeviceCert_lengths readCert
  have checks := (eachStep_iff_split.1 unforged early _ late split) att read
  rw [run_record, List.nil_append] at checks
  obtain rfl := roots _ rfl
  obtain rfl := challenges _ rfl
  obtain rfl := transcripts _ rfl
  refine ⟨?bytes, rfl, rfl, rfl, ?device, ?root⟩
  case bytes =>
    rw [← (parseDeviceCert_encoded readCert).2.1]
    exact bytes
  case device =>
    intro isHonest
    exact attested_of_signed small (checks.2 isHonest signed)
  case root =>
    intro isHonest
    obtain ⟨seed, issued, key, _⟩ := certified_of_signed rootLength deviceLength addedFits
      expiresFits (checks.1 isHonest rootSigned)
    exact ⟨seed, issued, key⟩

/-! ## One attestation under two certificates

A checksum in the place of Ed25519.  The device attests under its root's certificate; the run ends
with its signature presented behind a certificate of the given root, the device's own or one of the
attacker's. -/

def toyEd25519 : Ed25519 where
  publicKey seed := seed
  sign seed message := beBytes 64 ((seed ++ message).foldl (fun sum b => sum * 257 + b.toNat + 1) 0)
  verify pub signature message :=
    signature = beBytes 64 ((pub ++ message).foldl (fun sum b => sum * 257 + b.toNat + 1) 0)

def rootSeed : Bytes := List.replicate 32 1

def deviceSeed : Bytes := List.replicate 32 2

def attackerSeed : Bytes := List.replicate 32 3

/-- The certificate of the device that a root's holder signs. -/
def toyCert (root : Bytes) : DeviceCert where
  rootPub := root
  devicePub := deviceSeed
  addedMs := 0
  expiresMs := 0
  deviceKind := "phone"
  signature := toyEd25519.sign root (certBody root deviceSeed 0 0 (utf8 "phone"))
  encoded := certBody root deviceSeed 0 0 (utf8 "phone") ++
    toyEd25519.sign root (certBody root deviceSeed 0 0 (utf8 "phone"))

/-- The device's signature behind that certificate. -/
def toyAttestation (root : Bytes) : SessionAttestation where
  cert := toyCert root
  challenge := [9]
  transcript := [8]
  signature := toyEd25519.sign deviceSeed (attestationInput [9] [8])
  encoded := attestationBytes (toyCert root).encoded [9] [8]
    (toyEd25519.sign deviceSeed (attestationInput [9] [8]))

def toyRun (root : Bytes) : List Step :=
  [.certify rootSeed deviceSeed "phone" 0 0, .attest deviceSeed (toyCert rootSeed).encoded [9] [8],
    .present (toyAttestation root).encoded (some root) (some [9]) (some [8]) 0]

theorem toyRun_unforged {root : Bytes}
    (parses : parseAttestation (toyAttestation root).encoded = .ok (toyAttestation root))
    (owned : root ∈ [rootSeed, deviceSeed] → (root, (toyCert root).body) ∈
      signedBy toyEd25519 ((toyRun root).take 2)) :
    EachStep record (Unforged toyEd25519 [rootSeed, deviceSeed]) [] (toyRun root) := by
  refine ⟨trivial, trivial, ?_, trivial⟩
  intro att read
  rw [parses] at read
  obtain rfl := Except.ok.inj read
  refine ⟨fun isHonest _ => owned isHonest, fun _ _ => ?_⟩
  show (deviceSeed, attestationInput [9] [8]) ∈ signedBy toyEd25519 _
  exact mem_signedBy.2 ⟨.attest deviceSeed (toyCert rootSeed).encoded [9] [8], by simp [record], by
    decide +kernel⟩

theorem accepted_attestation_binds_toy :
    ∃ seed cert, Step.attest seed cert [9] [8] ∈ (toyRun rootSeed).take 2 ∧
      toyEd25519.publicKey seed = deviceSeed ∧ checkAttestation seed cert [9] [8] = .ok () :=
  (accepted_attestation_binds toyEd25519 [rootSeed, deviceSeed] (toyRun rootSeed)
    (toyRun_unforged (by decide +kernel) (fun _ => by decide +kernel)) ((toyRun rootSeed).take 2) []
    (toyAttestation rootSeed).encoded rootSeed [9] [8] 0 (toyAttestation rootSeed) rfl
    (by decide +kernel)).2.2.2.2.1 (by decide)

/-- A device attests under its own root's certificate, and the attestation is accepted under another
root, whose holder signed a certificate for the device's key: the device attested under no
certificate of that root. -/
theorem spliced_attestation_accepted :
    EachStep record (Unforged toyEd25519 [rootSeed, deviceSeed]) [] (toyRun attackerSeed) ∧
      verifyAttestation toyEd25519 (toyAttestation attackerSeed).encoded (some attackerSeed)
        (some [9]) (some [8]) 0 = .ok (toyAttestation attackerSeed) ∧
      (toyAttestation attackerSeed).cert.devicePub ∈ [rootSeed, deviceSeed] ∧
      ¬ ∃ seed cert parsed, Step.attest seed cert [9] [8] ∈ toyRun attackerSeed ∧
        parseDeviceCert cert = .ok parsed ∧ parsed.rootPub = attackerSeed := by
  refine ⟨toyRun_unforged (by decide +kernel) (fun isHonest => absurd isHonest (by decide)),
    by decide +kernel, by decide, ?_⟩
  rintro ⟨seed, cert, parsed, inRun, read, root⟩
  simp only [toyRun, List.mem_cons, Step.attest.injEq, List.not_mem_nil, or_false, false_or,
    reduceCtorEq] at inRun
  obtain ⟨_, rfl, _⟩ := inRun
  rw [show parseDeviceCert (toyCert rootSeed).encoded = .ok (toyCert rootSeed) by decide +kernel]
    at read
  obtain rfl := Except.ok.inj read
  exact absurd root (by decide)

end OneLink.IdentityDag
