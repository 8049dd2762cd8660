/-
# PairQr.Frames -- the strict encoding, the invite, the response and the confirm

A frame is read front to back: a reader takes the bytes that are left and
returns what it read with the rest.  Every reader undoes its writer in front of
any rest, and what it reads is exactly what the writer writes
(`readFixed_append`, `readFixed_eq_ok` and their likes), so a frame that decodes
is the encoding of what it decodes to.

Every frame is a header, fixed fields and an Ed25519 signature; the invite also
carries an opaque capability scope.  What decodes is the encoding of what it
decodes to, and an encoding decodes to what it encodes exactly when it fits the
frame's own maximum length.
-/
import OneLink.Library.ByteReader
import OneLink.Library.Checked

namespace OneLink.PairQr

set_option autoImplicit false

open Library

/-- A byte array of fixed length. -/
abbrev Octets (n : Nat) := { bytes : Bytes // bytes.length = n }

/-- `PairError`. -/
inductive PairError where
  | truncated (needed got : Nat)
  | oversize (got cap : Nat)
  | unsupportedVersion (got supported : UInt8)
  | badTag (expected got : UInt8)
  | badSignature
  | transcriptMismatch
  | expired (now expiry : UInt64)
  | wrongState
  | smallOrderPubkey
  | badFactor2ConfirmationLen (expected got : Nat)
  | factor2KeyConfirmationFailed
  | internal (reason : String)
deriving DecidableEq, Repr

/-- `MAX_FIELD_BYTES`. -/
def maxFieldBytes : Nat := 4096

/-! ## Reading -/

/-- `need`. -/
def need (r : Bytes) (n : Nat) : Except PairError Unit :=
  require (n ≤ r.length) (.truncated n r.length)

/-- `read_u8`. -/
def readU8 (r : Bytes) : Except PairError (UInt8 × Bytes) := do
  need r 1
  .ok (r.getD 0 0, r.drop 1)

/-- `read_u16`. -/
def readU16 (r : Bytes) : Except PairError (Nat × Bytes) := do
  need r 2
  .ok (beValue (r.take 2), r.drop 2)

/-- `read_u64`. -/
def readU64 (r : Bytes) : Except PairError (UInt64 × Bytes) := do
  need r 8
  .ok (UInt64.ofNat (beValue (r.take 8)), r.drop 8)

/-- `read_fixed`. -/
def readFixed (n : Nat) (r : Bytes) : Except PairError (Octets n × Bytes) :=
  if enough : n ≤ r.length then .ok (⟨r.take n, List.length_take_of_le enough⟩, r.drop n)
  else .error (.truncated n r.length)

/-- `read_var`. -/
def readVar (r : Bytes) : Except PairError (Bytes × Bytes) := do
  let (len, r) ← readU16 r
  require (len ≤ maxFieldBytes) (.oversize len maxFieldBytes)
  need r len
  .ok (r.take len, r.drop len)

/-- The version and the tag at the front of a frame. -/
def readHeader (version tag : UInt8) (r : Bytes) : Except PairError Bytes := do
  let (ver, r) ← readU8 r
  require (ver = version) (.unsupportedVersion ver version)
  let (t, r) ← readU8 r
  require (t = tag) (.badTag tag t)
  .ok r

/-- Refuse trailing bytes. -/
def readEnd (bytes r : Bytes) : Except PairError Unit :=
  require (r = []) (.oversize bytes.length (bytes.length - r.length))

/-! ## Writing -/

/-- `write_u64`. -/
def writeU64 (v : UInt64) : Bytes := beBytes 8 v.toNat

/-- `write_var`, which clamps to the field bound. -/
def writeVar (b : Bytes) : Bytes :=
  beBytes 2 (min b.length maxFieldBytes) ++ b.take (min b.length maxFieldBytes)

/-! ## Readers undo writers -/

theorem readU8_cons (byte : UInt8) (rest : Bytes) : readU8 (byte :: rest) = .ok (byte, rest) := by
  rw [readU8, need, require_of (by simp), ok_bind]
  rfl

theorem readU8_eq_ok {r rest : Bytes} {byte : UInt8} (read : readU8 r = .ok (byte, rest)) :
    r = byte :: rest := by
  cases r with
  | nil => simp [readU8, need, require] at read
  | cons first tail =>
    rw [readU8_cons, Except.ok.injEq, Prod.mk.injEq] at read
    rw [read.1, read.2]

theorem readHeader_append (version tag : UInt8) (rest : Bytes) :
    readHeader version tag (version :: tag :: rest) = .ok rest := by
  simp only [readHeader, readU8_cons, ok_bind, require, if_true]

theorem readHeader_eq_ok {version tag : UInt8} {r rest : Bytes}
    (read : readHeader version tag r = .ok rest) : r = version :: tag :: rest := by
  simp only [readHeader, bind_eq_ok, Prod.exists, require_eq_ok, exists_const, Except.ok.injEq] at read
  obtain ⟨ver, r', first, rfl, t, r'', second, rfl, rfl⟩ := read
  rw [readU8_eq_ok first, readU8_eq_ok second]

theorem readFixed_append {n : Nat} (a : Octets n) (rest : Bytes) :
    readFixed n (a.val ++ rest) = .ok (a, rest) := by
  have enough : n ≤ (a.val ++ rest).length := by
    rw [List.length_append, a.property]
    exact Nat.le_add_right n _
  rw [readFixed, dif_pos enough]
  simp only [List.take_left' a.property, List.drop_left' a.property]

theorem readFixed_eq_ok {n : Nat} {r rest : Bytes} {a : Octets n}
    (read : readFixed n r = .ok (a, rest)) : r = a.val ++ rest := by
  rw [readFixed] at read
  split at read
  · simp only [Except.ok.injEq, Prod.mk.injEq] at read
    rw [← read.1, ← read.2, List.take_append_drop]
  · cases read

theorem readU64_append (v : UInt64) (rest : Bytes) :
    readU64 (writeU64 v ++ rest) = .ok (v, rest) := by
  have width : (writeU64 v).length = 8 := length_beBytes 8 _
  have enough : 8 ≤ (writeU64 v ++ rest).length := by
    rw [List.length_append, width]
    exact Nat.le_add_right 8 _
  rw [readU64, need, require_of enough, ok_bind, List.take_left' width, List.drop_left' width, writeU64,
    beValue_beBytes v.toNat_lt, UInt64.ofNat_toNat]

theorem readU64_eq_ok {r rest : Bytes} {v : UInt64} (read : readU64 r = .ok (v, rest)) :
    r = writeU64 v ++ rest := by
  simp only [readU64, need, bind_eq_ok, require_eq_ok, exists_const, Except.ok.injEq,
    Prod.mk.injEq] at read
  obtain ⟨enough, rfl, rfl⟩ := read
  have width : (r.take 8).length = 8 := List.length_take_of_le enough
  have bound := beValue_lt (r.take 8)
  rw [width] at bound
  have bytes := beBytes_beValue (r.take 8)
  rw [width] at bytes
  rw [writeU64, UInt64.toNat_ofNat_of_lt' bound, bytes, List.take_append_drop]

theorem readVar_append {b : Bytes} (fits : b.length ≤ maxFieldBytes) (rest : Bytes) :
    readVar (writeVar b ++ rest) = .ok (b, rest) := by
  have header : (beBytes 2 b.length).length = 2 := length_beBytes 2 _
  have small : b.length < 256 ^ 2 := by
    simp only [maxFieldBytes] at fits
    omega
  have shape : writeVar b ++ rest = beBytes 2 b.length ++ (b ++ rest) := by
    rw [writeVar, Nat.min_eq_left fits, List.take_length, List.append_assoc]
  have enough : 2 ≤ (beBytes 2 b.length ++ (b ++ rest)).length := by
    rw [List.length_append, header]
    exact Nat.le_add_right 2 _
  have body : b.length ≤ (b ++ rest).length := by
    rw [List.length_append]
    exact Nat.le_add_right _ _
  rw [shape, readVar, readU16, need, require_of enough, ok_bind, ok_bind]
  simp only [List.take_left' header, List.drop_left' header, beValue_beBytes small]
  rw [require_of fits, ok_bind, need, require_of body, ok_bind, List.take_left' rfl,
    List.drop_left' rfl]

theorem readVar_eq_ok {r rest b : Bytes} (read : readVar r = .ok (b, rest)) :
    r = writeVar b ++ rest ∧ b.length ≤ maxFieldBytes := by
  simp only [readVar, readU16, need, bind_eq_ok, require_eq_ok, exists_const, Except.ok.injEq,
    Prod.mk.injEq, Prod.exists] at read
  obtain ⟨len, r', ⟨enough, rfl, rfl⟩, bounded, body, rfl, rfl⟩ := read
  have width : (r.take 2).length = 2 := List.length_take_of_le enough
  have size : ((r.drop 2).take (beValue (r.take 2))).length = beValue (r.take 2) :=
    List.length_take_of_le body
  have bytes := beBytes_beValue (r.take 2)
  rw [width] at bytes
  refine ⟨?_, by rw [size]; exact bounded⟩
  rw [writeVar, size, Nat.min_eq_left bounded, bytes, List.take_of_length_le (Nat.le_of_eq size),
    List.append_assoc, List.take_append_drop, List.take_append_drop]

theorem readEnd_eq_ok {bytes r : Bytes} : readEnd bytes r = .ok () ↔ r = [] := require_eq_ok

/-- The primitives under the protocol: Ed25519, X25519 and BLAKE3. -/
structure Crypto where
  SigningKey : Type
  StaticSecret : Type
  verifyingKey : SigningKey → Octets 32
  sign : SigningKey → Bytes → Octets 64
  /-- `VerifyingKey::from_bytes` and `verify`, which fail with the same error. -/
  verify : Octets 32 → Bytes → Octets 64 → Bool
  publicKey : StaticSecret → Octets 32
  diffieHellman : StaticSecret → Octets 32 → Octets 32
  hash : Bytes → Octets 32
  keyedHash : Octets 32 → Bytes → Octets 32

/-! ## The invite -/

/-- `INVITE_VERSION`. -/
def inviteVersion : UInt8 := 1

/-- `TAG_INVITE`. -/
def tagInvite : UInt8 := 0x01

/-- `INVITE_MAX_BYTES`. -/
def inviteMaxBytes : Nat := 512

structure CapabilityScope where
  bytes : Bytes
deriving DecidableEq

/-- `CapabilityScope::from_bytes`. -/
def CapabilityScope.fromBytes (b : Bytes) : Except PairError CapabilityScope := do
  require (b.length ≤ maxFieldBytes) (.oversize b.length maxFieldBytes)
  .ok ⟨b⟩

theorem CapabilityScope.fromBytes_of {b : Bytes} (fits : b.length ≤ maxFieldBytes) :
    CapabilityScope.fromBytes b = .ok ⟨b⟩ := by
  rw [CapabilityScope.fromBytes, require_of fits, ok_bind]

structure Invite where
  idPubkey : Octets 32
  ephemeralX25519Pk : Octets 32
  nonce : Octets 32
  expiryUnix : UInt64
  scope : CapabilityScope
  signature : Octets 64
deriving DecidableEq

/-- `encode_body`. -/
def encodeBody (idPubkey ephemeralX25519Pk nonce : Octets 32) (expiryUnix : UInt64)
    (scope : CapabilityScope) : Bytes :=
  inviteVersion :: tagInvite :: (idPubkey.val ++ ephemeralX25519Pk.val ++ nonce.val ++
    writeU64 expiryUnix ++ writeVar scope.bytes)

/-- `Invite::sign`. -/
def Invite.sign (C : Crypto) (signer : C.SigningKey) (ephemeralX25519Pk nonce : Octets 32)
    (expiryUnix : UInt64) (scope : CapabilityScope) : Invite where
  idPubkey := C.verifyingKey signer
  ephemeralX25519Pk := ephemeralX25519Pk
  nonce := nonce
  expiryUnix := expiryUnix
  scope := scope
  signature := C.sign signer
    (encodeBody (C.verifyingKey signer) ephemeralX25519Pk nonce expiryUnix scope)

/-- `Invite::body_bytes`. -/
def Invite.bodyBytes (inv : Invite) : Bytes :=
  encodeBody inv.idPubkey inv.ephemeralX25519Pk inv.nonce inv.expiryUnix inv.scope

/-- `Invite::encode`. -/
def Invite.encode (inv : Invite) : Bytes :=
  inviteVersion :: tagInvite :: (inv.idPubkey.val ++ inv.ephemeralX25519Pk.val ++ inv.nonce.val ++
    writeU64 inv.expiryUnix ++ writeVar inv.scope.bytes ++ inv.signature.val)

/-- `Invite::decode_raw`. -/
def Invite.decodeRaw (bytes : Bytes) : Except PairError Invite := do
  require (bytes.length ≤ inviteMaxBytes) (.oversize bytes.length inviteMaxBytes)
  let r ← readHeader inviteVersion tagInvite bytes
  let (idPubkey, r) ← readFixed 32 r
  let (ephemeralX25519Pk, r) ← readFixed 32 r
  let (nonce, r) ← readFixed 32 r
  let (expiryUnix, r) ← readU64 r
  let (scope, r) ← readVar r
  let (signature, r) ← readFixed 64 r
  readEnd bytes r
  .ok ⟨idPubkey, ephemeralX25519Pk, nonce, expiryUnix, ⟨scope⟩, signature⟩

/-- `Invite::decode_and_verify`. -/
def Invite.decodeAndVerify (C : Crypto) (bytes : Bytes) : Except PairError Invite := do
  let inv ← Invite.decodeRaw bytes
  require (C.verify inv.idPubkey inv.bodyBytes inv.signature = true) .badSignature
  .ok inv

/-- `Invite::check_not_expired`. -/
def Invite.checkNotExpired (inv : Invite) (nowUnix : UInt64) : Except PairError Unit :=
  require (nowUnix < inv.expiryUnix) (.expired nowUnix inv.expiryUnix)

theorem Invite.encode_eq (inv : Invite) : inv.encode = inv.bodyBytes ++ inv.signature.val := rfl

theorem length_writeVar (b : Bytes) : (writeVar b).length = 2 + min b.length maxFieldBytes := by
  rw [writeVar, List.length_append, length_beBytes, List.length_take]
  omega

theorem Invite.length_bodyBytes (inv : Invite) :
    inv.bodyBytes.length = 108 + min inv.scope.bytes.length maxFieldBytes := by
  simp only [Invite.bodyBytes, encodeBody, writeU64, List.length_cons, List.length_append,
    length_beBytes, length_writeVar, inv.idPubkey.property, inv.ephemeralX25519Pk.property,
    inv.nonce.property]
  omega

theorem Invite.length_encode (inv : Invite) :
    inv.encode.length = 172 + min inv.scope.bytes.length maxFieldBytes := by
  rw [Invite.encode_eq, List.length_append, Invite.length_bodyBytes, inv.signature.property]
  omega

/-- An invite fits its frame exactly when its scope has at most 340 bytes. -/
theorem Invite.encode_fits (inv : Invite) :
    inv.encode.length ≤ inviteMaxBytes ↔ inv.scope.bytes.length ≤ 340 := by
  rw [Invite.length_encode]
  simp only [inviteMaxBytes, maxFieldBytes]
  omega

theorem Invite.decodeRaw_encode {inv : Invite} (fits : inv.encode.length ≤ inviteMaxBytes) :
    Invite.decodeRaw inv.encode = .ok inv := by
  have scopeFits : inv.scope.bytes.length ≤ maxFieldBytes :=
    Nat.le_trans (inv.encode_fits.mp fits) (by decide)
  have last : readFixed 64 inv.signature.val = .ok (inv.signature, []) := by
    have whole := readFixed_append inv.signature []
    rwa [List.append_nil] at whole
  rw [Invite.decodeRaw, require_of fits, ok_bind, Invite.encode, readHeader_append]
  simp only [ok_bind, List.append_assoc, readFixed_append, readU64_append,
    readVar_append scopeFits, last, readEnd_eq_ok.mpr rfl]

theorem Invite.decodeRaw_of_oversize {inv : Invite} (oversized : ¬ inv.encode.length ≤ inviteMaxBytes) :
    Invite.decodeRaw inv.encode = .error (.oversize inv.encode.length inviteMaxBytes) := by
  rw [Invite.decodeRaw, require_of_not oversized, error_bind]

theorem Invite.decodeRaw_eq_ok {bytes : Bytes} {inv : Invite}
    (decoded : Invite.decodeRaw bytes = .ok inv) :
    bytes = inv.encode ∧ bytes.length ≤ inviteMaxBytes := by
  simp only [Invite.decodeRaw, bind_eq_ok, require_eq_ok, exists_const, Prod.exists,
    Except.ok.injEq] at decoded
  obtain ⟨fits, r, header, idPubkey, r₁, first, ephemeral, r₂, second, nonce, r₃, third, expiry, r₄,
    fourth, scope, r₅, fifth, signature, r₆, sixth, ⟨⟩, tail, rfl⟩ := decoded
  obtain rfl := readEnd_eq_ok.mp tail
  refine ⟨?_, fits⟩
  rw [readHeader_eq_ok header, readFixed_eq_ok first, readFixed_eq_ok second,
    readFixed_eq_ok third, readU64_eq_ok fourth, (readVar_eq_ok fifth).1, readFixed_eq_ok sixth]
  simp only [Invite.encode, List.append_assoc, List.append_nil]

/-- An encoding that fits determines the invite. -/
theorem Invite.encode_inj {inv inv' : Invite} (fits : inv.encode.length ≤ inviteMaxBytes)
    (same : inv.encode = inv'.encode) : inv = inv' := by
  have decoded := Invite.decodeRaw_encode fits
  have fits' : inv'.encode.length ≤ inviteMaxBytes := same ▸ fits
  rw [same, Invite.decodeRaw_encode fits', Except.ok.injEq] at decoded
  exact decoded.symm

theorem Invite.decodeAndVerify_eq_ok {C : Crypto} {bytes : Bytes} {inv : Invite}
    (decoded : Invite.decodeAndVerify C bytes = .ok inv) :
    Invite.decodeRaw bytes = .ok inv ∧
      C.verify inv.idPubkey inv.bodyBytes inv.signature = true := by
  simp only [Invite.decodeAndVerify, bind_eq_ok, require_eq_ok, exists_const,
    Except.ok.injEq] at decoded
  obtain ⟨inv', raw, genuine, rfl⟩ := decoded
  exact ⟨raw, genuine⟩

/-! ## The response -/

/-- `RESPONSE_VERSION`. -/
def responseVersion : UInt8 := 1

/-- `TAG_RESPONSE`. -/
def tagResponse : UInt8 := 0x02

/-- `RESPONSE_MAX_BYTES`. -/
def responseMaxBytes : Nat := 256

/-- `RESPONSE_SIG_DOMAIN`. -/
def responseSigDomain : Bytes := utf8 "OL-pair-qr-v1-response"

structure PairResponse where
  idPubkey : Octets 32
  ephemeralX25519Pk : Octets 32
  nonce : Octets 32
  signature : Octets 64
deriving DecidableEq

/-- `signing_payload` of a response. -/
def responsePayload (transcriptBind : Bytes) (nonce ephemPk : Octets 32) : Bytes :=
  responseSigDomain ++ beBytes 4 transcriptBind.length ++ transcriptBind ++ nonce.val ++ ephemPk.val

/-- `PairResponse::sign_for_transcript`. -/
def PairResponse.signForTranscript (C : Crypto) (signer : C.SigningKey)
    (ephemeralX25519Pk nonce : Octets 32) (transcriptBind : Bytes) : PairResponse where
  idPubkey := C.verifyingKey signer
  ephemeralX25519Pk := ephemeralX25519Pk
  nonce := nonce
  signature := C.sign signer (responsePayload transcriptBind nonce ephemeralX25519Pk)

/-- `PairResponse::encode`. -/
def PairResponse.encode (resp : PairResponse) : Bytes :=
  responseVersion :: tagResponse :: (resp.idPubkey.val ++ resp.ephemeralX25519Pk.val ++
    resp.nonce.val ++ resp.signature.val)

/-- `PairResponse::decode_raw`. -/
def PairResponse.decodeRaw (bytes : Bytes) : Except PairError PairResponse := do
  require (bytes.length ≤ responseMaxBytes) (.oversize bytes.length responseMaxBytes)
  let r ← readHeader responseVersion tagResponse bytes
  let (idPubkey, r) ← readFixed 32 r
  let (ephemeralX25519Pk, r) ← readFixed 32 r
  let (nonce, r) ← readFixed 32 r
  let (signature, r) ← readFixed 64 r
  readEnd bytes r
  .ok ⟨idPubkey, ephemeralX25519Pk, nonce, signature⟩

/-- `PairResponse::decode_and_verify`. -/
def PairResponse.decodeAndVerify (C : Crypto) (bytes transcriptBind : Bytes) :
    Except PairError PairResponse := do
  require (transcriptBind.length ≤ inviteMaxBytes)
    (.oversize transcriptBind.length inviteMaxBytes)
  let resp ← PairResponse.decodeRaw bytes
  require (C.verify resp.idPubkey
    (responsePayload transcriptBind resp.nonce resp.ephemeralX25519Pk) resp.signature = true)
    .badSignature
  .ok resp

theorem PairResponse.length_encode (resp : PairResponse) : resp.encode.length = 162 := by
  simp only [PairResponse.encode, List.length_cons, List.length_append, resp.idPubkey.property,
    resp.ephemeralX25519Pk.property, resp.nonce.property, resp.signature.property]

theorem PairResponse.decodeRaw_encode (resp : PairResponse) :
    PairResponse.decodeRaw resp.encode = .ok resp := by
  have fits : resp.encode.length ≤ responseMaxBytes := by
    rw [PairResponse.length_encode]
    decide
  have last : readFixed 64 resp.signature.val = .ok (resp.signature, []) := by
    have whole := readFixed_append resp.signature []
    rwa [List.append_nil] at whole
  rw [PairResponse.decodeRaw, require_of fits, ok_bind, PairResponse.encode, readHeader_append]
  simp only [ok_bind, List.append_assoc, readFixed_append, last, readEnd_eq_ok.mpr rfl]

theorem PairResponse.encode_inj {resp resp' : PairResponse} (same : resp.encode = resp'.encode) :
    resp = resp' := by
  have decoded := PairResponse.decodeRaw_encode resp
  rw [same, PairResponse.decodeRaw_encode, Except.ok.injEq] at decoded
  exact decoded.symm

theorem PairResponse.decodeAndVerify_eq_ok {C : Crypto} {bytes transcriptBind : Bytes}
    {resp : PairResponse}
    (decoded : PairResponse.decodeAndVerify C bytes transcriptBind = .ok resp) :
    PairResponse.decodeRaw bytes = .ok resp ∧
      C.verify resp.idPubkey (responsePayload transcriptBind resp.nonce resp.ephemeralX25519Pk)
        resp.signature = true := by
  simp only [PairResponse.decodeAndVerify, bind_eq_ok, require_eq_ok, exists_const,
    Except.ok.injEq] at decoded
  obtain ⟨-, resp', raw, genuine, rfl⟩ := decoded
  exact ⟨raw, genuine⟩

/-! ## The confirm -/

/-- `CONFIRM_VERSION`. -/
def confirmVersion : UInt8 := 1

/-- `TAG_CONFIRM`. -/
def tagConfirm : UInt8 := 0x03

/-- `CONFIRM_MAX_BYTES`. -/
def confirmMaxBytes : Nat := 200

/-- `CONFIRM_ENCODED_BYTES`. -/
def confirmEncodedBytes : Nat := 2 + 32 + 32 + 64

/-- `CONFIRM_SIG_DOMAIN`. -/
def confirmSigDomain : Bytes := utf8 "OL-pair-qr-v1-confirm"

abbrev TranscriptHash := Octets 32

structure PairConfirm where
  idPubkey : Octets 32
  transcript : TranscriptHash
  signature : Octets 64
deriving DecidableEq

/-- `signing_payload` of a confirm. -/
def confirmPayload (transcript : TranscriptHash) : Bytes := confirmSigDomain ++ transcript.val

/-- `PairConfirm::sign`. -/
def PairConfirm.sign (C : Crypto) (signer : C.SigningKey) (transcript : TranscriptHash) :
    PairConfirm where
  idPubkey := C.verifyingKey signer
  transcript := transcript
  signature := C.sign signer (confirmPayload transcript)

/-- `PairConfirm::encode`. -/
def PairConfirm.encode (conf : PairConfirm) : Bytes :=
  confirmVersion :: tagConfirm :: (conf.idPubkey.val ++ conf.transcript.val ++ conf.signature.val)

/-- `PairConfirm::decode_raw`. -/
def PairConfirm.decodeRaw (bytes : Bytes) : Except PairError PairConfirm := do
  require (bytes.length ≤ confirmMaxBytes) (.oversize bytes.length confirmMaxBytes)
  let r ← readHeader confirmVersion tagConfirm bytes
  let (idPubkey, r) ← readFixed 32 r
  let (transcript, r) ← readFixed 32 r
  let (signature, r) ← readFixed 64 r
  readEnd bytes r
  .ok ⟨idPubkey, transcript, signature⟩

/-- `PairConfirm::decode_and_verify`. -/
def PairConfirm.decodeAndVerify (C : Crypto) (bytes : Bytes) (expectedInviterPubkey : Octets 32)
    (expectedTranscript : TranscriptHash) : Except PairError PairConfirm := do
  let conf ← PairConfirm.decodeRaw bytes
  require (conf.idPubkey = expectedInviterPubkey) .badSignature
  require (conf.transcript = expectedTranscript) .transcriptMismatch
  require (C.verify conf.idPubkey (confirmPayload conf.transcript) conf.signature = true)
    .badSignature
  .ok conf

theorem PairConfirm.length_encode (conf : PairConfirm) :
    conf.encode.length = confirmEncodedBytes := by
  simp only [PairConfirm.encode, List.length_cons, List.length_append, conf.idPubkey.property,
    conf.transcript.property, conf.signature.property, confirmEncodedBytes]

theorem PairConfirm.decodeRaw_encode (conf : PairConfirm) :
    PairConfirm.decodeRaw conf.encode = .ok conf := by
  have fits : conf.encode.length ≤ confirmMaxBytes := by
    rw [PairConfirm.length_encode]
    decide
  have last : readFixed 64 conf.signature.val = .ok (conf.signature, []) := by
    have whole := readFixed_append conf.signature []
    rwa [List.append_nil] at whole
  rw [PairConfirm.decodeRaw, require_of fits, ok_bind, PairConfirm.encode, readHeader_append]
  simp only [ok_bind, List.append_assoc, readFixed_append, last, readEnd_eq_ok.mpr rfl]

theorem PairConfirm.decodeAndVerify_eq_ok {C : Crypto} {bytes : Bytes}
    {expectedInviterPubkey : Octets 32} {expectedTranscript : TranscriptHash} {conf : PairConfirm}
    (decoded : PairConfirm.decodeAndVerify C bytes expectedInviterPubkey expectedTranscript =
      .ok conf) :
    PairConfirm.decodeRaw bytes = .ok conf ∧ conf.idPubkey = expectedInviterPubkey ∧
      conf.transcript = expectedTranscript ∧
      C.verify conf.idPubkey (confirmPayload conf.transcript) conf.signature = true := by
  simp only [PairConfirm.decodeAndVerify, bind_eq_ok, require_eq_ok, exists_const,
    Except.ok.injEq] at decoded
  obtain ⟨conf', raw, pinned, agreed, genuine, rfl⟩ := decoded
  exact ⟨raw, pinned, agreed, genuine⟩

end OneLink.PairQr
