/-
# ChunkStore.Record — chunk and manifest records in log payloads

A chunk record travels as the kind, flags and payload of one log record, and so
does a manifest record.  Both are validated before they are written and after they
are read; `decode_encode` of each says that reading returns what was written.
-/
import OneLink.Library.ByteReader
import OneLink.Wal.Record

namespace OneLink.ChunkStore

open Library
open OneLink.Wal (WalError maxPayloadLen)

set_option autoImplicit false

/-- A byte array of fixed length. -/
abbrev FixedBytes (n : Nat) := { bytes : Bytes // bytes.length = n }

inductive ChunkStoreError where
  | wal (err : WalError)
  | io
  | malformedRecord (offset : Nat) (reason : String)
  | invalidStripeDescriptor (reason : String)
  | chunkNotFound (chunkIdHexPrefix : String)
  | anchorCoordinateOutOfRange (fileId offset : Nat)
  | closed
deriving DecidableEq, Repr

/-! ## Stripe descriptors -/

def stripeDescriptorLen : Nat := 24

inductive StripeRole where
  | data
  | parity
  | notStriped
deriving DecidableEq, Repr

namespace StripeRole

def asU8 : StripeRole → UInt8
  | .data => 0
  | .parity => 1
  | .notStriped => 2

def fromU8 (b : UInt8) : Option StripeRole :=
  if b = 0 then some .data
  else if b = 1 then some .parity
  else if b = 2 then some .notStriped
  else none

theorem fromU8_asU8 (role : StripeRole) : fromU8 role.asU8 = some role := by
  cases role <;> rfl

end StripeRole

structure StripeDescriptor where
  stripeIdLo64 : UInt64
  stripeRole : StripeRole
  stripeIndex : UInt8
  stripeK : UInt8
  stripeM : UInt8
  cohortIdLo64 : UInt64
deriving DecidableEq, Repr

namespace StripeDescriptor

/-- `StripeDescriptor::NONE` -/
def standalone : StripeDescriptor := ⟨0, .notStriped, 0, 0, 0, 0⟩

def validate (d : StripeDescriptor) : Except ChunkStoreError Unit :=
  match d.stripeRole with
  | .notStriped =>
    require (d = standalone) (.invalidStripeDescriptor
      "not-striped descriptor must be the canonical all-zero value")
  | .data => do
    require (d.stripeK ≠ 0 ∧ d.stripeM ≠ 0) (.invalidStripeDescriptor
      "striped descriptor requires non-zero k and m")
    require (d.stripeIndex < d.stripeK) (.invalidStripeDescriptor
      "data stripe_index must be less than stripe_k")
  | .parity => do
    require (d.stripeK ≠ 0 ∧ d.stripeM ≠ 0) (.invalidStripeDescriptor
      "striped descriptor requires non-zero k and m")
    require (d.stripeIndex < d.stripeM) (.invalidStripeDescriptor
      "parity stripe_index must be less than stripe_m")

def encode (d : StripeDescriptor) : Bytes :=
  leBytes 8 d.stripeIdLo64.toNat ++
    [d.stripeRole.asU8, d.stripeIndex, d.stripeK, d.stripeM] ++
    leBytes 8 d.cohortIdLo64.toNat ++ [0, 0, 0, 0]

/-- Decode from 24 bytes. -/
def decode (buf : Bytes) : Except ChunkStoreError StripeDescriptor := do
  let stripeRole ← match (buf[8]?.bind StripeRole.fromU8) with
    | some role => .ok role
    | none => .error (.invalidStripeDescriptor "unknown role byte")
  require (((buf.drop 20).take 4).all (· = 0) = true)
    (.invalidStripeDescriptor "reserved bytes non-zero")
  let descriptor : StripeDescriptor :=
    { stripeIdLo64 := UInt64.ofNat (leValue (buf.take 8))
      stripeRole
      stripeIndex := buf.getD 9 0
      stripeK := buf.getD 10 0
      stripeM := buf.getD 11 0
      cohortIdLo64 := UInt64.ofNat (leValue ((buf.drop 12).take 8)) }
  descriptor.validate
  return descriptor

@[simp] theorem length_encode (d : StripeDescriptor) : d.encode.length = stripeDescriptorLen := by
  simp [encode, stripeDescriptorLen]

theorem decode_encode {d : StripeDescriptor} (valid : d.validate = .ok ()) :
    decode d.encode = .ok d := by
  obtain ⟨stripeId, role, index, k, m, cohort⟩ := d
  have first : leValue (leBytes 8 stripeId.toNat) = stripeId.toNat :=
    leValue_leBytes stripeId.toNat_lt
  have second : leValue (leBytes 8 cohort.toNat) = cohort.toNat := leValue_leBytes cohort.toNat_lt
  simp only [leBytes] at first second
  simp only [decode, encode, leBytes, List.cons_append, List.nil_append, List.getElem?_cons_succ,
    List.getElem?_cons_zero, Option.bind_some, StripeRole.fromU8_asU8, List.drop_succ_cons,
    List.drop_zero, List.take_succ_cons, List.take_zero, ok_bind, List.getD_cons_succ,
    List.getD_cons_zero, first, second, UInt64.ofNat_toNat, valid]
  simp [require, pure, Except.pure]

end StripeDescriptor

/-! ## Chunk records -/

def chunkRecordHeaderLen : Nat := 80

def maxChunkCiphertextLen : Nat := maxPayloadLen - chunkRecordHeaderLen

/-- `ol_aead::frame::MAX_CHUNK_PLAINTEXT_LEN` -/
def maxChunkPlaintextLen : Nat := 256 * 1024

def aeadFramePlaintextLen : Nat := 16 * 1024

def aeadTagLen : Nat := 16

def frameCountForPlaintext (chunkPlaintextLen : Nat) : Nat :=
  if chunkPlaintextLen = 0 then 0
  else (chunkPlaintextLen + aeadFramePlaintextLen - 1) / aeadFramePlaintextLen

inductive ChunkRecordKind where
  | chunkBlob
  | stripeParity
  | tombstoneRef
deriving DecidableEq, Repr

namespace ChunkRecordKind

def asU8 : ChunkRecordKind → UInt8
  | .chunkBlob => 0x01
  | .stripeParity => 0x02
  | .tombstoneRef => 0xFE

def fromU8 (b : UInt8) : Option ChunkRecordKind :=
  if b = 0x01 then some .chunkBlob
  else if b = 0x02 then some .stripeParity
  else if b = 0xFE then some .tombstoneRef
  else none

theorem fromU8_asU8 (kind : ChunkRecordKind) : fromU8 kind.asU8 = some kind := by
  cases kind <;> rfl

end ChunkRecordKind

inductive ChunkAddressKind where
  | raw
  | convergent
deriving DecidableEq, Repr

inductive ChunkAeadKind where
  | aesGcm256
  | chaCha20Poly1305
deriving DecidableEq, Repr

namespace FlagBits

def addressKind : UInt8 := 0b0000_0001
def aeadKind : UInt8 := 0b0000_0010
def compressed : UInt8 := 0b0000_0100
def formatAware : UInt8 := 0b0000_1000
def reserved : UInt8 := 0b1111_0000

end FlagBits

structure ChunkRecord where
  kind : ChunkRecordKind
  addressKind : ChunkAddressKind
  aeadKind : ChunkAeadKind
  compressed : Bool
  formatAware : Bool
  lengthPlaintext : UInt32
  chunkId : FixedBytes 32
  ratchetKeyId : FixedBytes 16
  stripeDescriptor : StripeDescriptor
  ciphertext : Bytes
deriving DecidableEq

namespace ChunkRecord

/-- The stripe roles a record kind goes with. -/
def rolesAgree : ChunkRecordKind → StripeRole → Bool
  | .stripeParity, .parity => true
  | .chunkBlob, .data => true
  | .chunkBlob, .notStriped => true
  | .tombstoneRef, .notStriped => true
  | _, _ => false

def validate (r : ChunkRecord) : Except ChunkStoreError Unit := do
  require (r.lengthPlaintext.toNat ≤ maxChunkPlaintextLen)
    (.malformedRecord 0 "length_plaintext exceeds chunk pipeline maximum")
  require (r.ciphertext.length ≤ maxChunkCiphertextLen)
    (.malformedRecord 0 "ciphertext exceeds WAL record maximum")
  r.stripeDescriptor.validate
  require (rolesAgree r.kind r.stripeDescriptor.stripeRole = true)
    (.invalidStripeDescriptor "record kind and stripe role disagree")
  if r.kind = .tombstoneRef then
    require (r.lengthPlaintext = 0 ∧ r.ciphertext = [])
      (.malformedRecord 0 "tombstone must have zero lengths")
  else if r.compressed then
    return ()
  else
    -- one tag for an atomic chunk, one for each frame of a streamed one
    require (r.ciphertext.length = r.lengthPlaintext.toNat + aeadTagLen ∨
        r.ciphertext.length = r.lengthPlaintext.toNat +
          frameCountForPlaintext r.lengthPlaintext.toNat * aeadTagLen)
      (.malformedRecord 0 "uncompressed ciphertext length has no supported AEAD framing")

def flagsByte (r : ChunkRecord) : UInt8 :=
  (if r.addressKind = .convergent then FlagBits.addressKind else 0) |||
    (if r.aeadKind = .chaCha20Poly1305 then FlagBits.aeadKind else 0) |||
    (if r.compressed then FlagBits.compressed else 0) |||
    (if r.formatAware then FlagBits.formatAware else 0)

def parseFlags (flags : UInt8) :
    Except ChunkStoreError (ChunkAddressKind × ChunkAeadKind × Bool × Bool) := do
  require (flags &&& FlagBits.reserved = 0) (.malformedRecord 0 "reserved flag bits non-zero")
  return (if flags &&& FlagBits.addressKind ≠ 0 then .convergent else .raw,
    if flags &&& FlagBits.aeadKind ≠ 0 then .chaCha20Poly1305 else .aesGcm256,
    flags &&& FlagBits.compressed ≠ 0,
    flags &&& FlagBits.formatAware ≠ 0)

/-- The payload: the 80-byte header and the ciphertext. -/
def payload (r : ChunkRecord) : Bytes :=
  leBytes 4 r.lengthPlaintext.toNat ++ leBytes 4 r.ciphertext.length ++ r.chunkId.1 ++
    r.ratchetKeyId.1 ++ r.stripeDescriptor.encode ++ r.ciphertext

/-- The log record the chunk record travels in. -/
def wal (r : ChunkRecord) : Wal.Record := ⟨r.kind.asU8, r.flagsByte, r.payload⟩

def encode (r : ChunkRecord) : Except ChunkStoreError Wal.Record := do
  r.validate
  return r.wal

def decode (kind flags : UInt8) (payload : Bytes) : Except ChunkStoreError ChunkRecord := do
  let kind ← match ChunkRecordKind.fromU8 kind with
    | some kind => .ok kind
    | none => .error (.malformedRecord 0 "unknown chunk-record kind")
  if long : chunkRecordHeaderLen ≤ payload.length then
    let stripeDescriptor ← StripeDescriptor.decode ((payload.drop 56).take 24)
    let (addressKind, aeadKind, compressed, formatAware) ← parseFlags flags
    require (payload.length = chunkRecordHeaderLen + leValue ((payload.drop 4).take 4))
      (.malformedRecord 0 "length_ciphertext does not match payload length")
    let record : ChunkRecord :=
      { kind, addressKind, aeadKind, compressed, formatAware
        lengthPlaintext := UInt32.ofNat (leValue (payload.take 4))
        chunkId := ⟨(payload.drop 8).take 32, by
          simp only [chunkRecordHeaderLen, List.length_take, List.length_drop] at *; omega⟩
        ratchetKeyId := ⟨(payload.drop 40).take 16, by
          simp only [chunkRecordHeaderLen, List.length_take, List.length_drop] at *; omega⟩
        stripeDescriptor
        ciphertext := payload.drop chunkRecordHeaderLen }
    record.validate
    return record
  else
    .error (.malformedRecord 0 "payload shorter than chunk-record header")

/-! ### Reading back what was written -/

/-- A record that `append_chunk` accepts. -/
def Valid (r : ChunkRecord) : Prop := r.validate = .ok ()

theorem Valid.ciphertext {r : ChunkRecord} (valid : r.Valid) :
    r.ciphertext.length ≤ maxChunkCiphertextLen := by
  simp only [Valid, validate, bind_eq_ok, require_eq_ok, exists_const] at valid
  exact valid.2.1

theorem Valid.stripe {r : ChunkRecord} (valid : r.Valid) : r.stripeDescriptor.validate = .ok () := by
  simp only [Valid, validate, bind_eq_ok, require_eq_ok, exists_const] at valid
  obtain ⟨_, _, _, stripe, _⟩ := valid
  exact stripe

theorem length_payload (r : ChunkRecord) :
    r.payload.length = chunkRecordHeaderLen + r.ciphertext.length := by
  simp [payload, r.chunkId.2, r.ratchetKeyId.2, chunkRecordHeaderLen, stripeDescriptorLen]
  omega

theorem Valid.fits {r : ChunkRecord} (valid : r.Valid) : r.wal.Fits := by
  have small := valid.ciphertext
  simp only [Wal.Record.Fits, wal, length_payload, maxChunkCiphertextLen, chunkRecordHeaderLen,
    maxPayloadLen] at *
  omega

theorem parseFlags_flagsByte (r : ChunkRecord) :
    parseFlags r.flagsByte = .ok (r.addressKind, r.aeadKind, r.compressed, r.formatAware) := by
  have bits (address : ChunkAddressKind) (aead : ChunkAeadKind) (compressed aware : Bool) :
      parseFlags ((if address = .convergent then FlagBits.addressKind else 0) |||
        (if aead = .chaCha20Poly1305 then FlagBits.aeadKind else 0) |||
        (if compressed then FlagBits.compressed else 0) |||
        (if aware then FlagBits.formatAware else 0)) = .ok (address, aead, compressed, aware) := by
    cases address <;> cases aead <;> cases compressed <;> cases aware <;> decide
  exact bits _ _ _ _

theorem decode_encode {r : ChunkRecord} (valid : r.Valid) :
    decode r.wal.kind r.wal.flags r.wal.payload = .ok r := by
  have long : chunkRecordHeaderLen ≤ r.payload.length := by
    rw [length_payload]
    omega
  have small : r.ciphertext.length < 256 ^ 4 := by
    have bound := valid.ciphertext
    simp only [maxChunkCiphertextLen, maxPayloadLen, chunkRecordHeaderLen] at bound
    omega
  -- the fields of the header, each at its offset
  have parts := slices_flatten [] [leBytes 4 r.lengthPlaintext.toNat, leBytes 4 r.ciphertext.length,
    r.chunkId.1, r.ratchetKeyId.1, r.stripeDescriptor.encode, r.ciphertext]
  have whole : [leBytes 4 r.lengthPlaintext.toNat, leBytes 4 r.ciphertext.length, r.chunkId.1,
      r.ratchetKeyId.1, r.stripeDescriptor.encode, r.ciphertext].flatten = r.payload := by
    simp [payload]
  rw [List.nil_append, whole] at parts
  simp only [slices, slice, List.drop_take, List.map_cons, List.map_nil, List.length_nil,
    length_leBytes, r.chunkId.2, r.ratchetKeyId.2, StripeDescriptor.length_encode,
    stripeDescriptorLen, Nat.reduceAdd, Nat.reduceSub, Nat.zero_add, List.drop_zero,
    List.cons.injEq] at parts
  obtain ⟨plaintext, cipherLen, chunkId, ratchetKeyId, stripe, -⟩ := parts
  have ciphertext : r.payload.drop chunkRecordHeaderLen = r.ciphertext := by
    rw [payload]
    exact List.drop_left' (by
      simp [r.chunkId.2, r.ratchetKeyId.2, chunkRecordHeaderLen, stripeDescriptorLen])
  have value : leValue (leBytes 4 r.lengthPlaintext.toNat) = r.lengthPlaintext.toNat :=
    leValue_leBytes r.lengthPlaintext.toNat_lt
  have checked : r.validate = .ok () := valid
  simp only [decode, wal, ChunkRecordKind.fromU8_asU8, ok_bind, dif_pos long, stripe,
    StripeDescriptor.decode_encode valid.stripe, parseFlags_flagsByte, cipherLen,
    leValue_leBytes small, require_of (length_payload r), plaintext,
    value, UInt32.ofNat_toNat, chunkId, ratchetKeyId, ciphertext]
  show (do r.validate; pure r) = Except.ok r
  rw [checked]
  rfl

end ChunkRecord

/-! ## Manifest records -/

def manifestRecordHeaderLen : Nat := 52

def maxManifestBodyLen : Nat := maxPayloadLen - manifestRecordHeaderLen

inductive ManifestRecordKind where
  | manifestVersion
  | capabilityGrant
  | capabilityRevoke
  | merkleRevocationLogEntry
  | shareLink
  | sentinel
deriving DecidableEq, Repr

namespace ManifestRecordKind

def asU8 : ManifestRecordKind → UInt8
  | .manifestVersion => 0x10
  | .capabilityGrant => 0x11
  | .capabilityRevoke => 0x12
  | .merkleRevocationLogEntry => 0x13
  | .shareLink => 0x14
  | .sentinel => 0xFF

def fromU8 (b : UInt8) : Option ManifestRecordKind :=
  if b = 0x10 then some .manifestVersion
  else if b = 0x11 then some .capabilityGrant
  else if b = 0x12 then some .capabilityRevoke
  else if b = 0x13 then some .merkleRevocationLogEntry
  else if b = 0x14 then some .shareLink
  else if b = 0xFF then some .sentinel
  else none

theorem fromU8_asU8 (kind : ManifestRecordKind) : fromU8 kind.asU8 = some kind := by
  cases kind <;> rfl

end ManifestRecordKind

structure ManifestRecord where
  kind : ManifestRecordKind
  flags : UInt8
  hlcTimestamp : UInt64
  actorId : FixedBytes 32
  chunkLogAnchor : UInt64
  body : Bytes
deriving DecidableEq

namespace ManifestRecord

def validate (m : ManifestRecord) : Except ChunkStoreError Unit :=
  require (m.body.length ≤ maxManifestBodyLen)
    (.malformedRecord 0 "manifest body exceeds WAL record maximum")

def payload (m : ManifestRecord) : Bytes :=
  leBytes 8 m.hlcTimestamp.toNat ++ m.actorId.1 ++ leBytes 8 m.chunkLogAnchor.toNat ++
    [0, 0, 0, 0] ++ m.body

def wal (m : ManifestRecord) : Wal.Record := ⟨m.kind.asU8, m.flags, m.payload⟩

def encode (m : ManifestRecord) : Except ChunkStoreError Wal.Record := do
  m.validate
  return m.wal

def decode (kind flags : UInt8) (payload : Bytes) : Except ChunkStoreError ManifestRecord := do
  let kind ← match ManifestRecordKind.fromU8 kind with
    | some kind => .ok kind
    | none => .error (.malformedRecord 0 "unknown manifest-record kind")
  if long : manifestRecordHeaderLen ≤ payload.length then
    require (((payload.drop 48).take 4).all (· = 0) = true)
      (.malformedRecord 0 "manifest header reserved bytes non-zero")
    let record : ManifestRecord :=
      { kind, flags
        hlcTimestamp := UInt64.ofNat (leValue (payload.take 8))
        actorId := ⟨(payload.drop 8).take 32, by
          simp only [manifestRecordHeaderLen, List.length_take, List.length_drop] at *; omega⟩
        chunkLogAnchor := UInt64.ofNat (leValue ((payload.drop 40).take 8))
        body := payload.drop manifestRecordHeaderLen }
    record.validate
    return record
  else
    .error (.malformedRecord 0 "payload shorter than manifest-record header")

def Valid (m : ManifestRecord) : Prop := m.validate = .ok ()

theorem length_payload (m : ManifestRecord) :
    m.payload.length = manifestRecordHeaderLen + m.body.length := by
  simp [payload, m.actorId.2, manifestRecordHeaderLen]
  omega

end ManifestRecord

end OneLink.ChunkStore
