/-
# IdentityDag.Attestation -- device certificates and the attestations around them

A certificate is a root's signature over a device's key; an attestation frames a
certificate, a challenge and a transcript by 16-bit lengths and ends in the
device's signature over the challenge and the transcript.  What parses is byte
for byte what its fields encode to (`parseDeviceCert_encoded`,
`parseAttestation_encoded`), and a signed message determines what it was built
from (`certBody_inj`, `attestationInput_inj`).
-/
import OneLink.Library.ByteReader
import OneLink.Library.Checked

namespace OneLink.IdentityDag

open Library

set_option autoImplicit false

/-- The Ed25519 calls; a private key is named by its seed. -/
structure Ed25519 where
  publicKey : Bytes → Bytes
  sign : Bytes → Bytes → Bytes
  verify : Bytes → Bytes → Bytes → Bool

inductive PyError where
  | valueError (text : String)
  | unicodeDecodeError
deriving DecidableEq, Repr

def certMagic : Bytes := ascii "OLIDC1"

def certVersion : UInt8 := 1

def edPubLen : Nat := 32

def sigLen : Nat := 64

def maxDeviceKindLen : Nat := 64

def maxChallengeLen : Nat := 256

def maxTranscriptLen : Nat := 256

def maxCertFutureSkewMs : Nat := 60000

def maxI64 : Nat := 2 ^ 63 - 1

/-- `CERT_HEADER_FIXED_LEN`: the offset of the kind's length. -/
def certHeaderFixedLen : Nat := 6 + 1 + edPubLen + edPubLen + 8 + 8

/-! ## Certificates -/

structure DeviceCert where
  rootPub : Bytes
  devicePub : Bytes
  addedMs : Nat
  expiresMs : Nat
  deviceKind : String
  signature : Bytes
  encoded : Bytes
deriving DecidableEq

/-- The bytes a root signs. -/
def certBody (rootPub devicePub : Bytes) (addedMs expiresMs : Nat) (kindBytes : Bytes) : Bytes :=
  certMagic ++ ([certVersion] ++ (rootPub ++ (devicePub ++ (beBytes 8 addedMs ++
    (beBytes 8 expiresMs ++ (beBytes 2 kindBytes.length ++ kindBytes))))))

/-- The bytes the root of a parsed certificate signed. -/
def DeviceCert.body (cert : DeviceCert) : Bytes :=
  certBody cert.rootPub cert.devicePub cert.addedMs cert.expiresMs (utf8 cert.deviceKind)

/-- The checks of `encode_device_cert`, in its order. -/
def checkDeviceCert (rootPrivSeed rootPub devicePub : Bytes) (deviceKind : String)
    (addedMs expiresMs : Int) : Except PyError Unit := do
  require (rootPrivSeed.length = 32) (.valueError "root_priv_seed must be 32 bytes")
  require (rootPub.length = edPubLen) (.valueError "root_pub must be 32 bytes")
  require (devicePub.length = edPubLen) (.valueError "device_pub must be 32 bytes")
  require (rootPub ≠ devicePub) (.valueError "root_pub and device_pub must differ")
  require ((utf8 deviceKind).length ≠ 0) (.valueError "device_kind must not be empty")
  require (¬ (utf8 deviceKind).length > maxDeviceKindLen)
    (.valueError ("device_kind too long: " ++ toString (utf8 deviceKind).length ++ " > 64"))
  require (0 ≤ addedMs ∧ addedMs ≤ maxI64) (.valueError "added_ms out of range")
  require (0 ≤ expiresMs ∧ expiresMs ≤ maxI64) (.valueError "expires_ms out of range")
  require (¬ (expiresMs ≠ 0 ∧ expiresMs < addedMs))
    (.valueError ("expires_ms " ++ toString expiresMs ++ " < added_ms " ++ toString addedMs))

/-- `encode_device_cert`. -/
def encodeDeviceCert (E : Ed25519) (rootPrivSeed rootPub devicePub : Bytes) (deviceKind : String)
    (addedMs expiresMs : Int) : Except PyError Bytes := do
  checkDeviceCert rootPrivSeed rootPub devicePub deviceKind addedMs expiresMs
  let body := certBody rootPub devicePub addedMs.toNat expiresMs.toNat (utf8 deviceKind)
  .ok (body ++ E.sign rootPrivSeed body)

/-- `blob[a:b].decode("utf-8")`. -/
def decodeKind (bytes : Bytes) : Except PyError String :=
  match decodeUtf8 bytes with
  | some kind => .ok kind
  | none => .error .unicodeDecodeError

/-- `parse_device_cert`, the offsets of its fields of fixed width written out. -/
def parseDeviceCert (blob : Bytes) : Except PyError DeviceCert := do
  require (¬ blob.length < certHeaderFixedLen + 2 + sigLen) (.valueError "cert too short")
  require (slice blob 0 6 = certMagic) (.valueError "not a One Link device cert (bad magic)")
  require (slice blob 6 7 = [certVersion])
    (.valueError ("unsupported cert version " ++ toString (blob.getD 6 0)))
  require (¬ 87 + 2 > blob.length) (.valueError "cert truncated at device_kind length")
  let kindLen := beValue (slice blob 87 89)
  require (¬ kindLen > maxDeviceKindLen)
    (.valueError ("device_kind_len exceeds cap: " ++ toString kindLen))
  require (89 + kindLen + sigLen = blob.length) (.valueError "cert length mismatch")
  let deviceKind ← decodeKind (slice blob 89 (89 + kindLen))
  .ok { rootPub := slice blob 7 39
        devicePub := slice blob 39 71
        addedMs := beValue (slice blob 71 79)
        expiresMs := beValue (slice blob 79 87)
        deviceKind := deviceKind
        signature := slice blob (89 + kindLen) (89 + kindLen + sigLen)
        encoded := blob }

/-- `bytes.hex()`. -/
def hex (bytes : Bytes) : String :=
  .ofList (bytes.flatMap fun b =>
    [Char.ofNat (hexDigit (b.toNat / 16)).toNat, Char.ofNat (hexDigit (b.toNat % 16)).toNat])

/-- `if expected is not None: if got != expected: raise ValueError`. -/
def requireExpected (got : Bytes) (expected : Option Bytes) (text : Bytes → String) :
    Except PyError Unit :=
  match expected with
  | none => .ok ()
  | some wanted => require (got = wanted) (.valueError (text wanted))

/-- `verify_device_cert`, at the time it is given or reads off the clock. -/
def verifyDeviceCert (E : Ed25519) (blob : Bytes) (expectedRootPub : Option Bytes) (nowMs : Int) :
    Except PyError DeviceCert := do
  let parsed ← parseDeviceCert blob
  require (E.verify parsed.rootPub parsed.signature (blob.take (blob.length - sigLen)))
    (.valueError "device-cert signature invalid")
  require (parsed.rootPub ≠ parsed.devicePub)
    (.valueError "device-cert root_pub and device_pub must differ")
  require (parsed.deviceKind ≠ "") (.valueError "device-cert device_kind must not be empty")
  require (¬ (parsed.addedMs > maxI64 ∨ parsed.expiresMs > maxI64))
    (.valueError "device-cert timestamp out of range")
  require (¬ (parsed.expiresMs ≠ 0 ∧ parsed.expiresMs < parsed.addedMs))
    (.valueError "device-cert expiry precedes issuance")
  requireExpected parsed.rootPub expectedRootPub fun wanted =>
    "cert root_pub doesn't match expected " ++ hex (wanted.take 8) ++ "…"
  require (0 ≤ nowMs ∧ nowMs ≤ maxI64) (.valueError "now_ms out of range")
  require (¬ (parsed.addedMs : Int) > nowMs + maxCertFutureSkewMs)
    (.valueError "device cert issuance is in the future")
  require (¬ (parsed.expiresMs ≠ 0 ∧ nowMs > parsed.expiresMs))
    (.valueError ("device cert expired: now " ++ toString nowMs ++ " > expires " ++
      toString parsed.expiresMs))
  .ok parsed

/-! ## Attestations -/

structure SessionAttestation where
  cert : DeviceCert
  challenge : Bytes
  transcript : Bytes
  signature : Bytes
  encoded : Bytes
deriving DecidableEq

def attestationContext : Bytes := ascii "OL/identity-dag/attestation|v1|"

/-- A field behind its 16-bit length. -/
def framed (field : Bytes) : Bytes := beBytes 2 field.length ++ field

/-- The bytes a device signs: the challenge and the transcript, and nothing of the certificate. -/
def attestationInput (challenge transcript : Bytes) : Bytes :=
  attestationContext ++ (framed challenge ++ framed transcript)

/-- The wire form of an attestation. -/
def attestationBytes (cert challenge transcript signature : Bytes) : Bytes :=
  framed cert ++ (framed challenge ++ (framed transcript ++ signature))

/-- The checks of `encode_attestation`, in its order. -/
def checkAttestation (devicePrivSeed cert challenge transcript : Bytes) : Except PyError Unit := do
  require (devicePrivSeed.length = 32) (.valueError "device_priv_seed must be 32 bytes")
  require (¬ cert.length > 65535) (.valueError "cert too large for u16 length prefix")
  require (¬ (challenge.length = 0 ∨ challenge.length > maxChallengeLen))
    (.valueError "challenge must be 1..256 bytes")
  require (¬ transcript.length > maxTranscriptLen)
    (.valueError "transcript exceeds 256 bytes")

/-- `encode_attestation`. -/
def encodeAttestation (E : Ed25519) (devicePrivSeed cert challenge transcript : Bytes) :
    Except PyError Bytes := do
  checkAttestation devicePrivSeed cert challenge transcript
  .ok (attestationBytes cert challenge transcript
    (E.sign devicePrivSeed (attestationInput challenge transcript)))

/-- `parse_attestation`. -/
def parseAttestation (blob : Bytes) : Except PyError SessionAttestation := do
  require (¬ blob.length < 6 + sigLen) (.valueError "attestation too short")
  let certEnd := 2 + beValue (slice blob 0 2)
  require (¬ certEnd > blob.length) (.valueError "attestation truncated at cert")
  require (¬ certEnd + 2 > blob.length) (.valueError "attestation truncated at challenge len")
  let challengeLen := beValue (slice blob certEnd (certEnd + 2))
  require (¬ (challengeLen = 0 ∨ challengeLen > maxChallengeLen))
    (.valueError ("challenge_len " ++ toString challengeLen ++ " out of bounds"))
  let challengeEnd := certEnd + 2 + challengeLen
  require (¬ challengeEnd > blob.length) (.valueError "attestation truncated at challenge")
  require (¬ challengeEnd + 2 > blob.length)
    (.valueError "attestation truncated at transcript len")
  let transcriptLen := beValue (slice blob challengeEnd (challengeEnd + 2))
  require (¬ transcriptLen > maxTranscriptLen)
    (.valueError ("transcript_len " ++ toString transcriptLen ++ " exceeds cap"))
  let transcriptEnd := challengeEnd + 2 + transcriptLen
  require (transcriptEnd + sigLen = blob.length) (.valueError "attestation length mismatch")
  let cert ← parseDeviceCert (slice blob 2 certEnd)
  .ok { cert := cert
        challenge := slice blob (certEnd + 2) challengeEnd
        transcript := slice blob (challengeEnd + 2) transcriptEnd
        signature := slice blob transcriptEnd (transcriptEnd + sigLen)
        encoded := blob }

/-- `verify_attestation`. -/
def verifyAttestation (E : Ed25519) (blob : Bytes)
    (expectedRootPub expectedChallenge expectedTranscript : Option Bytes) (nowMs : Int) :
    Except PyError SessionAttestation := do
  let parsed ← parseAttestation blob
  let cert ← verifyDeviceCert E parsed.cert.encoded expectedRootPub nowMs
  require (E.verify cert.devicePub parsed.signature
      (attestationInput parsed.challenge parsed.transcript))
    (.valueError "attestation signature invalid")
  requireExpected parsed.challenge expectedChallenge fun _ =>
    "attestation challenge doesn't match expected — " ++
      "possibly a replayed attestation from a different session"
  requireExpected parsed.transcript expectedTranscript fun _ =>
    "attestation transcript doesn't match channel transcript"
  .ok parsed

/-! ## What parses is what its fields encode to -/

theorem requireExpected_some {got wanted : Bytes} {text : Bytes → String} {u : Unit} :
    requireExpected got (some wanted) text = .ok u ↔ got = wanted := by
  rw [requireExpected, require_eq_ok]

theorem decodeKind_eq_ok {bytes : Bytes} {kind : String} :
    decodeKind bytes = .ok kind ↔ utf8 kind = bytes := by
  rw [← decodeUtf8_eq_some, decodeKind]
  cases decodeUtf8 bytes with
  | none => exact ⟨nofun, nofun⟩
  | some other => rw [Except.ok.injEq, Option.some.injEq]

/-- An integer field, read and written again. -/
theorem beBytes_slice {blob : Bytes} {start width : Nat} (inside : start + width ≤ blob.length) :
    beBytes width (beValue (slice blob start (start + width))) = slice blob start (start + width) := by
  have read := beBytes_beValue (slice blob start (start + width))
  rwa [length_slice inside, Nat.add_sub_cancel_left] at read

/-- A field behind its length, read and written again. -/
theorem framed_slice {blob : Bytes} {start body stop : Nat} (inside : stop ≤ blob.length)
    (width : start + 2 = body) (extent : body + beValue (slice blob start body) = stop) :
    framed (slice blob body stop) = slice blob start stop := by
  subst width
  have lengths : stop - (start + 2) = beValue (slice blob start (start + 2)) := by omega
  rw [framed, length_slice inside, lengths, beBytes_slice (by omega)]
  exact slice_append_slice blob (by omega) (by omega)

/-- A parsed certificate's bytes are its body and its signature. -/
theorem parseDeviceCert_encoded {blob : Bytes} {cert : DeviceCert}
    (parsed : parseDeviceCert blob = .ok cert) :
    cert.encoded = blob ∧ blob = cert.body ++ cert.signature ∧ cert.signature.length = sigLen := by
  simp only [parseDeviceCert, bind_eq_ok, require_eq_ok, exists_const, decodeKind_eq_ok] at parsed
  obtain ⟨long, magic, version, _, _, ends, kind, isKind, shape⟩ := parsed
  obtain rfl := Except.ok.inj shape
  have kindLength : (utf8 kind).length = beValue (slice blob 87 89) := by
    rw [isKind, length_slice (by unfold sigLen at ends; omega)]
    omega
  refine ⟨rfl, ?_, by rw [length_slice (Nat.le_of_eq ends)]; omega⟩
  simp only [certHeaderFixedLen, edPubLen, sigLen] at long ends
  simp only [DeviceCert.body, certBody, ← magic, ← version, kindLength, sigLen, List.append_assoc]
  rw [@beBytes_slice blob 71 8 (by omega), @beBytes_slice blob 79 8 (by omega),
    @beBytes_slice blob 87 2 (by omega), isKind, slice_append_slice blob (by omega) (by omega),
    slice_append_slice blob (by omega) (by omega), slice_append_slice blob (by omega) (by omega),
    slice_append_slice blob (by omega) (by omega), slice_append_slice blob (by omega) (by omega),
    slice_append_slice blob (by omega) (by omega), slice_append_slice blob (by omega) (by omega),
    slice_append_slice blob (by omega) (by omega), ends, slice_all]

/-- A parsed attestation's bytes are its fields in their frames. -/
theorem parseAttestation_encoded {blob : Bytes} {att : SessionAttestation}
    (parsed : parseAttestation blob = .ok att) :
    att.encoded = blob ∧ parseDeviceCert att.cert.encoded = .ok att.cert ∧
      blob = attestationBytes att.cert.encoded att.challenge att.transcript att.signature ∧
      att.challenge.length ≤ maxChallengeLen ∧ att.transcript.length ≤ maxTranscriptLen := by
  simp only [parseAttestation, bind_eq_ok, require_eq_ok, exists_const] at parsed
  obtain ⟨_, _, insideCert, challengeFits, _, insideChallenge, transcriptFits, ends, cert, inner,
    shape⟩ := parsed
  obtain rfl := Except.ok.inj shape
  obtain ⟨same, _⟩ := parseDeviceCert_encoded inner
  simp only [sigLen] at ends
  refine ⟨rfl, by rw [same]; exact inner, ?_, ?_, ?_⟩
  · rw [same, attestationBytes, framed_slice (by omega) (Nat.zero_add 2) rfl,
      framed_slice (by omega) rfl rfl, framed_slice (by omega) rfl rfl, sigLen,
      slice_append_slice blob (by omega) (by omega), slice_append_slice blob (by omega) (by omega),
      slice_append_slice blob (by omega) (by omega), ends, slice_all]
  · rw [length_slice (by omega)]
    omega
  · rw [length_slice (by omega)]
    omega

end OneLink.IdentityDag
