/-
# TransportObfs.Handshake -- two clocks, one epoch

The client tags its first message under the hour of its clock, and the bridge tries its own
hour and the one before it.  So a client that is behind is answered under the hour it used,
but a client that is ahead, be it by a second across the full hour, is refused
(`skew_tolerated_iff`).  Once answered, both sides hold the same two keys, each the other
way round, and what one seals the other opens (`Mirrors`).

The hashes, the stream cipher and X25519 are parameters.
-/
import OneLink.Sphinx.Packet

namespace OneLink.TransportObfs

set_option autoImplicit false

open Library
open Onion (Octets)
open Sphinx (fit fit_val AllZero)

def HANDSHAKE_MAC_LEN : Nat := 16

def HANDSHAKE_LEN : Nat := 32 + HANDSHAKE_MAC_LEN

def HANDSHAKE_EPOCH_SECS : Nat := 3600

def OUTBOUND_DIRECTION_TAG : Nat := 0x4F4C5458

inductive HandshakeError where
  | BadLength (expected got : Nat)
  | BadMac
  | SmallOrderPubkey

/-- BLAKE3, ChaCha20 and X25519. -/
structure Primitives where
  hash : Bytes → Octets 32
  keyedHash : (key : Octets 32) → Bytes → Octets 32
  /-- The keystream, byte by byte. -/
  chacha20 : (key : Octets 32) → (nonce : Bytes) → Nat → UInt8
  publicKey : (secret : Octets 32) → Octets 32
  diffieHellman : (secret point : Octets 32) → Octets 32

/-- A bridge, whose public key is that of its secret. -/
structure BridgeKeypair (P : Primitives) where
  secret : Octets 32
  public_key : Octets 32
  id : Octets 32
  derived : public_key = P.publicKey secret

variable (P : Primitives)

/-! ## Sessions -/

structure Session where
  outbound_key : Octets 32
  inbound_key : Octets 32

def Session.new (client_tx_key server_tx_key : Octets 32) : Session := ⟨client_tx_key, server_tx_key⟩

def Session.forServer (client_tx_key server_tx_key : Octets 32) : Session :=
  ⟨server_tx_key, client_tx_key⟩

def deriveNonce (conn_id packet_counter : Nat) : Bytes := beBytes 4 conn_id ++ beBytes 8 packet_counter

/-- `obfuscate`, and `deobfuscate`, its alias. -/
def obfuscate (key : Octets 32) (nonce bytes : Bytes) : Bytes := xorFrom (P.chacha20 key nonce) 0 bytes

def Session.sealOutbound (self : Session) (plaintext : Bytes) (counter : Nat) : Bytes :=
  obfuscate P self.outbound_key (deriveNonce OUTBOUND_DIRECTION_TAG counter) plaintext

def Session.openInbound (self : Session) (ciphertext : Bytes) (counter : Nat) : Except Unit Bytes :=
  .ok (obfuscate P self.inbound_key (deriveNonce OUTBOUND_DIRECTION_TAG counter) ciphertext)

/-! ## Tags and keys -/

/-- Both tags: the message under the key of an epoch, each with its label. -/
def epochTag (label : String) (bridge_id : Octets 32) (epoch : Nat) (message : Bytes) :
    Octets HANDSHAKE_MAC_LEN :=
  let key := P.hash (utf8 "OL-obfs-handshake-v1" ++ utf8 label ++ bridge_id.val ++ beBytes 8 epoch)
  fit HANDSHAKE_MAC_LEN ((P.keyedHash key message).val.take HANDSHAKE_MAC_LEN)

def computeHandshakeTag (bridge_id : Octets 32) (epoch : Nat) (client_ephem_pk : Octets 32) :
    Octets HANDSHAKE_MAC_LEN :=
  epochTag P "-client-mac" bridge_id epoch client_ephem_pk.val

def computeServerAuthTag (bridge_id : Octets 32) (epoch : Nat)
    (client_ephem_pk server_ephem_pk : Octets 32) : Octets HANDSHAKE_MAC_LEN :=
  epochTag P "-server-mac" bridge_id epoch (client_ephem_pk.val ++ server_ephem_pk.val)

/-- The keys `(client_tx_key, server_tx_key)`. -/
def deriveSessionKeys (shared bridge_id client_ephem_pk server_ephem_pk : Octets 32) :
    Octets 32 × Octets 32 :=
  let derive (label : String) : Octets 32 :=
    P.hash (utf8 "OL-obfs-session-kdf-v1" ++ utf8 label ++ shared.val ++ bridge_id.val ++
      client_ephem_pk.val ++ server_ephem_pk.val)
  (derive "-client-tx", derive "-server-tx")

/-! ## The two sides -/

structure ClientHandshake where
  ephem : Option (Octets 32)
  ephem_pk_bytes : Octets 32
  bridge_pubkey : Octets 32
  bridge_id : Octets 32
  first_message : Bytes
  epoch : Nat

/-- `ClientHandshake::start`, with the secret drawn. -/
def ClientHandshake.start (ephem bridge_pubkey bridge_id : Octets 32) (now_unix : Nat) :
    ClientHandshake :=
  let ephem_pk_bytes := P.publicKey ephem
  let epoch := now_unix / HANDSHAKE_EPOCH_SECS
  let tag := computeHandshakeTag P bridge_id epoch ephem_pk_bytes
  ⟨some ephem, ephem_pk_bytes, bridge_pubkey, bridge_id, ephem_pk_bytes.val ++ tag.val, epoch⟩

/-- The key and the tag at the front of either message. -/
def readMessage (message : Bytes) : Except HandshakeError (Octets 32 × Octets HANDSHAKE_MAC_LEN) := do
  require (HANDSHAKE_LEN ≤ message.length) (.BadLength HANDSHAKE_LEN message.length)
  return (fit 32 (message.take 32), fit HANDSHAKE_MAC_LEN (slice message 32 HANDSHAKE_LEN))

def ClientHandshake.finish (self : ClientHandshake) (server_reply : Bytes) :
    Except HandshakeError Session := do
  let (server_pk_bytes, server_tag) ← readMessage server_reply
  require (computeServerAuthTag P self.bridge_id self.epoch self.ephem_pk_bytes server_pk_bytes =
    server_tag) .BadMac
  match self.ephem with
  | none => throw .SmallOrderPubkey
  | some ephem =>
    let shared := P.diffieHellman ephem self.bridge_pubkey
    require (¬ AllZero shared) .SmallOrderPubkey
    let keys := deriveSessionKeys P shared self.bridge_id self.ephem_pk_bytes server_pk_bytes
    return .new keys.1 keys.2

/-- `ServerHandshake::accept`, with the secret drawn. -/
def ServerHandshake.accept (server_ephem : Octets 32) (bridge : BridgeKeypair P) (client_first : Bytes)
    (now_unix : Nat) : Except HandshakeError (Bytes × Session) := do
  let (client_pk_bytes, client_tag) ← readMessage client_first
  let current_epoch := now_unix / HANDSHAKE_EPOCH_SECS
  match [current_epoch, current_epoch - 1].find? fun candidate =>
      computeHandshakeTag P bridge.id candidate client_pk_bytes = client_tag with
  | none => throw .BadMac
  | some epoch =>
    let server_pk_bytes := P.publicKey server_ephem
    let shared := P.diffieHellman bridge.secret client_pk_bytes
    require (¬ AllZero shared) .SmallOrderPubkey
    let server_tag := computeServerAuthTag P bridge.id epoch client_pk_bytes server_pk_bytes
    let keys := deriveSessionKeys P shared bridge.id client_pk_bytes server_pk_bytes
    return (server_pk_bytes.val ++ server_tag.val, .forServer keys.1 keys.2)

variable {P}

/-! ## One handshake -/

/-- A key and the tag behind it are read back. -/
theorem readMessage_append (key : Octets 32) (tag : Octets HANDSHAKE_MAC_LEN) :
    readMessage (key.val ++ tag.val) = .ok (key, tag) := by
  have whole : (key.val ++ tag.val).length = HANDSHAKE_LEN := by
    rw [List.length_append, key.property, tag.property]
    rfl
  rw [readMessage, require_of whole.ge, ok_bind, slice, List.take_of_length_le whole.le,
    List.drop_left' key.property, List.take_left' key.property]
  exact congrArg Except.ok
    (Prod.ext (Subtype.ext (fit_val key.property)) (Subtype.ext (fit_val tag.property)))

/-- What this handshake relies on. -/
structure Sound (P : Primitives) (bridge : BridgeKeypair P) (ephem : Octets 32)
    (client_now server_now : Nat) : Prop where
  commutes : ∀ a b, P.diffieHellman a (P.publicKey b) = P.diffieHellman b (P.publicKey a)
  /-- The tags that are compared are those of different epochs only if they differ. -/
  distinct : ∀ candidate ∈ [server_now / HANDSHAKE_EPOCH_SECS, server_now / HANDSHAKE_EPOCH_SECS - 1],
    computeHandshakeTag P bridge.id candidate (P.publicKey ephem) =
      computeHandshakeTag P bridge.id (client_now / HANDSHAKE_EPOCH_SECS) (P.publicKey ephem) →
    candidate = client_now / HANDSHAKE_EPOCH_SECS
  /-- The shared secret is not of small order. -/
  nonzero : ¬ AllZero (P.diffieHellman ephem bridge.public_key)

variable {bridge : BridgeKeypair P} {ephem : Octets 32} {client_now server_now : Nat}

/-- What the bridge answers a client whose epoch it tries. -/
def answer (bridge : BridgeKeypair P) (ephem server_ephem : Octets 32) (epoch : Nat) :
    Bytes × Session :=
  let client_pk := P.publicKey ephem
  let server_pk := P.publicKey server_ephem
  let keys := deriveSessionKeys P (P.diffieHellman ephem bridge.public_key) bridge.id client_pk server_pk
  (server_pk.val ++ (computeServerAuthTag P bridge.id epoch client_pk server_pk).val,
    .forServer keys.1 keys.2)

theorem accept_start (sound : Sound P bridge ephem client_now server_now) (server_ephem : Octets 32) :
    ServerHandshake.accept P server_ephem bridge (ClientHandshake.start P ephem bridge.public_key
        bridge.id client_now).first_message server_now =
      if client_now / HANDSHAKE_EPOCH_SECS ∈
          [server_now / HANDSHAKE_EPOCH_SECS, server_now / HANDSHAKE_EPOCH_SECS - 1] then
        .ok (answer bridge ephem server_ephem (client_now / HANDSHAKE_EPOCH_SECS))
      else .error .BadMac := by
  have shared : P.diffieHellman bridge.secret (P.publicKey ephem) =
      P.diffieHellman ephem bridge.public_key := by
    rw [sound.commutes, bridge.derived]
  simp only [ServerHandshake.accept, ClientHandshake.start, readMessage_append, ok_bind]
  split
  · rename_i missed
    rw [if_neg fun tried => List.find?_eq_none.mp missed _ tried (decide_eq_true rfl)]
    rfl
  · rename_i epoch found
    have tried := List.mem_of_find?_eq_some found
    have same := List.find?_some found
    rw [decide_eq_true_eq] at same
    obtain rfl := sound.distinct epoch tried same
    rw [if_pos tried, shared, require_of sound.nonzero]
    rfl

/-- The client takes the answer under its own epoch. -/
theorem finish_answer (sound : Sound P bridge ephem client_now server_now) (server_ephem : Octets 32) :
    let answered := answer bridge ephem server_ephem (client_now / HANDSHAKE_EPOCH_SECS)
    (ClientHandshake.start P ephem bridge.public_key bridge.id client_now).finish P answered.1 =
      .ok ⟨answered.2.inbound_key, answered.2.outbound_key⟩ := by
  simp only [ClientHandshake.finish, answer, readMessage_append, ok_bind]
  rw [ClientHandshake.start, require_of rfl, ok_bind]
  show (do require (¬ AllZero (P.diffieHellman ephem bridge.public_key)) _; _) = _
  rw [require_of sound.nonzero]
  rfl

/-- What one side seals, the other opens. -/
def Mirrors (P : Primitives) (one other : Session) : Prop :=
  ∀ counter plaintext, other.openInbound P (one.sealOutbound P plaintext counter) counter = .ok plaintext

theorem mirrors_of_keys {one other : Session} (same : one.outbound_key = other.inbound_key) :
    Mirrors P one other := by
  intro counter plaintext
  rw [Session.openInbound, Session.sealOutbound, obfuscate, obfuscate, same, xorFrom_xorFrom]

/-- The handshake of a client and a bridge with these clocks succeeds, and their sessions mirror
each other. -/
def Agrees (P : Primitives) (bridge : BridgeKeypair P) (ephem server_ephem : Octets 32)
    (client_now server_now : Nat) : Prop :=
  let self := ClientHandshake.start P ephem bridge.public_key bridge.id client_now
  ∃ reply server client, ServerHandshake.accept P server_ephem bridge self.first_message server_now =
      .ok (reply, server) ∧ self.finish P reply = .ok client ∧
    Mirrors P client server ∧ Mirrors P server client

/-- **The promised skew is tolerated exactly for a client that is not in a later hour than the
bridge**; and with clocks two hours apart the bridge refuses. -/
theorem skew_tolerated_iff (sound : Sound P bridge ephem client_now server_now)
    (server_ephem : Octets 32) :
    (client_now < server_now + HANDSHAKE_EPOCH_SECS → server_now < client_now + HANDSHAKE_EPOCH_SECS →
      (Agrees P bridge ephem server_ephem client_now server_now ↔
        client_now / HANDSHAKE_EPOCH_SECS ≤ server_now / HANDSHAKE_EPOCH_SECS)) ∧
    (client_now + 2 * HANDSHAKE_EPOCH_SECS ≤ server_now ∨
        server_now + 2 * HANDSHAKE_EPOCH_SECS ≤ client_now →
      ServerHandshake.accept P server_ephem bridge (ClientHandshake.start P ephem bridge.public_key
        bridge.id client_now).first_message server_now = .error .BadMac) := by
  have answered := accept_start sound server_ephem
  simp only [List.mem_cons, List.not_mem_nil, or_false] at answered
  refine ⟨fun ahead behind => ⟨?_, fun earlier => ?_⟩, fun far => ?_⟩
  · rintro ⟨reply, server, client, accepted, -⟩
    rw [answered] at accepted
    split at accepted
    · rename_i tried
      exact tried.elim Nat.le_of_eq fun before => before.le.trans (Nat.sub_le _ 1)
    · cases accepted
  · rw [if_pos (by simp only [HANDSHAKE_EPOCH_SECS] at *; omega)] at answered
    exact ⟨_, _, _, answered, finish_answer sound server_ephem, mirrors_of_keys rfl,
      mirrors_of_keys rfl⟩
  · rw [answered, if_neg (by simp only [HANDSHAKE_EPOCH_SECS] at *; omega)]

/-! ## Toy instance -/

/-- Hashes that keep the end of what they hash, and keys that add up. -/
def toyPrimitives : Primitives where
  hash input := fit 32 input.reverse
  keyedHash key _ := key
  chacha20 key nonce position := key.val.getD 0 0 + nonce.getLastD 0 + UInt8.ofNat position
  publicKey secret := secret
  diffieHellman secret point := ⟨List.zipWith (· + ·) secret.val point.val, by
    rw [List.length_zipWith, secret.property, point.property]; rfl⟩

def toyBytes (b : UInt8) : Octets 32 := filled 32 b

def toyBridge : BridgeKeypair toyPrimitives := ⟨toyBytes 1, toyBytes 1, toyBytes 2, rfl⟩

theorem toyPrimitives_commutes (a b : Octets 32) :
    toyPrimitives.diffieHellman a (toyPrimitives.publicKey b) =
      toyPrimitives.diffieHellman b (toyPrimitives.publicKey a) :=
  Subtype.ext (List.zipWith_comm_of_comm UInt8.add_comm)

/-- A client behind by an hour less one second is answered. -/
theorem skew_tolerated_behind : Agrees toyPrimitives toyBridge (toyBytes 3) (toyBytes 4) 3601 7200 :=
  ((skew_tolerated_iff ⟨toyPrimitives_commutes, by decide +kernel, by decide⟩ (toyBytes 4)).1
    (by decide) (by decide)).2 (by decide)

/-- A client one second ahead, across the full hour, is refused. -/
theorem client_ahead_refused : Sound toyPrimitives toyBridge (toyBytes 3) 3600 3599 ∧
    ¬ Agrees toyPrimitives toyBridge (toyBytes 3) (toyBytes 4) 3600 3599 := by
  refine ⟨⟨toyPrimitives_commutes, by decide +kernel, by decide⟩, ?_⟩
  rintro ⟨reply, server, client, accepted, -⟩
  have refused : (ServerHandshake.accept toyPrimitives (toyBytes 4) toyBridge
      (ClientHandshake.start toyPrimitives (toyBytes 3) toyBridge.public_key toyBridge.id
        3600).first_message 3599).isOk = false := by
    decide +kernel
  rw [accepted] at refused
  cases refused

end OneLink.TransportObfs
