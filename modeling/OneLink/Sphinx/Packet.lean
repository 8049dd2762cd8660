/-
# Sphinx.Packet -- the packet, its sender and its relays

The sender blinds one exponent hop after hop, a relay blinds the point it received; the
cover builder walks the same chain once more for the last key.  The group, its encoding and
the wide reduction of a seed to a scalar are parameters; `Lawful` says what the encoding of
Ristretto points is relied on for.
-/
import Mathlib.Algebra.Field.Basic
import Mathlib.Algebra.Module.Defs
import OneLink.Sphinx.Header

namespace OneLink.Sphinx

set_option autoImplicit false
set_option linter.unusedSectionVars false

open Library
open Onion (Octets OnionError)

def SPHINX_VERSION : UInt8 := 3

def RISTRETTO_POINT_LEN : Nat := 32

def SPHINX_PACKET_LEN : Nat := 1 + RISTRETTO_POINT_LEN + SLOT_MAC_LEN + HEADER_LEN + PAYLOAD_LEN

def SPHINX_MAX_USER_PAYLOAD : Nat := PAYLOAD_LEN - 2

/-- Ristretto255. -/
structure Curve (F G : Type) where
  basepoint : G
  compress : G → Octets 32
  /-- `CompressedRistretto::decompress`. -/
  decompress : Octets 32 → Option G
  /-- `Scalar::from_bytes_mod_order_wide`. -/
  fromBytesModOrderWide : Octets 64 → F

structure SphinxPacket where
  bytes : Octets SPHINX_PACKET_LEN

namespace SphinxPacket

def fromBytes (b : Bytes) : Except OnionError SphinxPacket :=
  if full : b.length = SPHINX_PACKET_LEN then
    if b.getD 0 0 = SPHINX_VERSION then .ok ⟨⟨b, full⟩⟩
    else .error (.UnsupportedVersion (b.getD 0 0) SPHINX_VERSION)
  else .error (.BadFrameSize b.length SPHINX_PACKET_LEN)

/-- `self.bytes[start..start + n]`. -/
def field (p : SphinxPacket) (start n : Nat) (inside : start + n ≤ SPHINX_PACKET_LEN) : Octets n :=
  ⟨slice p.bytes.val start (start + n), by
    rw [length_slice (by rw [p.bytes.property]; exact inside), Nat.add_sub_cancel_left]⟩

def alpha (p : SphinxPacket) : Octets 32 := p.field 1 32 (by decide)

def mac (p : SphinxPacket) : Octets SLOT_MAC_LEN := p.field 33 SLOT_MAC_LEN (by decide)

def header (p : SphinxPacket) : Octets HEADER_LEN :=
  p.field (33 + SLOT_MAC_LEN) HEADER_LEN (by decide)

def payload (p : SphinxPacket) : Octets PAYLOAD_LEN :=
  p.field (33 + SLOT_MAC_LEN + HEADER_LEN) PAYLOAD_LEN (by decide)

end SphinxPacket

/-- The packet that is put together at the end of building and of peeling. -/
def assemble (alpha : Octets 32) (mac : Octets SLOT_MAC_LEN) (header payload : Bytes) : SphinxPacket :=
  ⟨⟨SPHINX_VERSION :: (alpha.val ++ (mac.val ++ ((fit HEADER_LEN header).val ++
    (fit PAYLOAD_LEN payload).val))), by
      simp only [List.length_cons, List.length_append, alpha.property, mac.property,
        (fit HEADER_LEN header).property, (fit PAYLOAD_LEN payload).property]
      decide⟩⟩

/-! ## Cover payloads -/

variable (P : Ciphers)

/-- `b"OL-COVER"`. -/
def COVER_SENTINEL : Bytes := [79, 76, 45, 67, 79, 86, 69, 82]

def COVER_TRAILER_LEN : Nat := 16

def COVER_PAYLOAD_MIN : Nat := 64

def computeCoverTrailer (shared_key : Octets 32) (cover_body : Bytes) : Octets COVER_TRAILER_LEN :=
  let mac_key := P.deriveKey "ol-sphinx-cover-trailer-v1" shared_key
  ⟨(P.keyedHash mac_key cover_body).val.take COVER_TRAILER_LEN,
    List.length_take_of_le (by rw [(P.keyedHash mac_key cover_body).property]; decide)⟩

def isCoverPayloadAuthenticated (shared_key : Octets 32) (payload : Bytes) : Bool :=
  if payload.length < COVER_SENTINEL.length + COVER_TRAILER_LEN then false
  else if payload.take COVER_SENTINEL.length ≠ COVER_SENTINEL then false
  else
    let body_end := payload.length - COVER_TRAILER_LEN
    (computeCoverTrailer P shared_key (payload.take body_end)).val = payload.drop body_end

/-! ## The group -/

section Group

variable {F G : Type} [Field F] [AddCommGroup G] [Module F G] [DecidableEq G] (R : Curve F G)

structure SphinxHop (G : Type) where
  id : Octets SLOT_ID_LEN
  static_pk : G

def SphinxHop.new (id : Octets SLOT_ID_LEN) (static_pk_bytes : Octets 32) :
    Except OnionError (SphinxHop G) :=
  match R.decompress static_pk_bytes with
  | none => .error .SmallOrderPubkey
  | some pk => if pk = 0 then .error .SmallOrderPubkey else .ok ⟨id, pk⟩

/-- `bytes.iter().all(|&b| b == 0)`. -/
def AllZero (bytes : Octets 32) : Prop := ∀ b ∈ bytes.val, b = 0

instance : DecidablePred AllZero := fun bytes =>
  inferInstanceAs (Decidable (∀ b ∈ bytes.val, b = 0))

/-- The loop over the circuit that precomputes the keys. -/
def hopKeysLoop (sender_eph_sk : F) : List (SphinxHop G) → (cumulative_blind : F) → (alpha : G) →
    Except OnionError (List HopKeys)
  | [], _, _ => return []
  | hop :: circuit, cumulative_blind, alpha => do
    let shared_bytes := R.compress ((sender_eph_sk * cumulative_blind) • hop.static_pk)
    require (¬ AllZero shared_bytes) .SmallOrderPubkey
    let keys := deriveHopKeys P shared_bytes (R.compress alpha)
    let b := R.fromBytesModOrderWide keys.blinding_seed
    let rest ← hopKeysLoop sender_eph_sk circuit (cumulative_blind * b) (b • alpha)
    return keys :: rest

/-- The two bytes of the length, the payload, and zeros. -/
def payloadBuf (payload : Bytes) : Bytes :=
  beBytes 2 payload.length ++ payload ++ zeros (PAYLOAD_LEN - 2 - payload.length)

variable {σ : Type} (fill : (n : Nat) → σ → Octets n × σ)

def buildSphinxOnion (sender_eph_sk : F) (circuit : List (SphinxHop G)) (payload : Bytes) (rng : σ) :
    Except OnionError (SphinxPacket × σ) := do
  require (circuit ≠ []) .EmptyCircuit
  require (circuit.length ≤ MAX_HOPS) (.TooManyHops circuit.length MAX_HOPS)
  require (payload.length ≤ SPHINX_MAX_USER_PAYLOAD)
    (.PayloadOversize payload.length SPHINX_MAX_USER_PAYLOAD)
  let alpha_0 := sender_eph_sk • R.basepoint
  let hop_keys ← hopKeysLoop P R sender_eph_sk circuit 1 alpha_0
  let next_hop_ids := (circuit.drop 1).map (·.id) ++ [DESTINATION_MARKER]
  let filler_len := (circuit.length - 1) * SLOT_LEN
  let (random_pad, rng) := fill (HEADER_LEN - SLOT_LEN - filler_len) rng
  let built ← buildHeader P MAX_HOPS hop_keys next_hop_ids random_pad.val
  let payload_buf := hop_keys.reverse.foldl
    (fun buf keys => chacha20XorInPlace P keys.payload_stream buf) (payloadBuf payload)
  return (assemble (R.compress alpha_0) built.mac built.header payload_buf, rng)

/-- The walk along the blinding chain up to the last hop. -/
def finalKeyLoop (sender_eph_sk : F) : List (SphinxHop G) → (cumulative_blind : F) → (alpha : G) →
    Except OnionError (Octets 32)
  | [], _, _ => throw (.Internal "compute_final_hop_shared_key: chain walk did not terminate")
  | hop :: circuit, cumulative_blind, alpha => do
    let shared_bytes := R.compress ((sender_eph_sk * cumulative_blind) • hop.static_pk)
    require (¬ AllZero shared_bytes) .SmallOrderPubkey
    if circuit.isEmpty then
      return shared_bytes
    let keys := deriveHopKeys P shared_bytes (R.compress alpha)
    let b := R.fromBytesModOrderWide keys.blinding_seed
    finalKeyLoop sender_eph_sk circuit (cumulative_blind * b) (b • alpha)

def computeFinalHopSharedKey (sender_eph_sk : F) (circuit : List (SphinxHop G)) :
    Except OnionError (Octets 32) := do
  require (circuit ≠ []) .EmptyCircuit
  require (circuit.length ≤ MAX_HOPS) (.TooManyHops circuit.length MAX_HOPS)
  finalKeyLoop P R sender_eph_sk circuit 1 (sender_eph_sk • R.basepoint)

def buildCoverPacket (sender_eph_sk : F) (circuit : List (SphinxHop G)) (cover_size : Nat) (rng : σ) :
    Except OnionError (SphinxPacket × σ) := do
  require (COVER_PAYLOAD_MIN ≤ cover_size) (.Internal "cover payload below minimum size")
  require (circuit ≠ []) .EmptyCircuit
  let dest_shared_key ← computeFinalHopSharedKey P R sender_eph_sk circuit
  let (body, rng) := fill cover_size rng
  let trailer := computeCoverTrailer P dest_shared_key (COVER_SENTINEL ++ body.val)
  buildSphinxOnion P R fill sender_eph_sk circuit (COVER_SENTINEL ++ body.val ++ trailer.val) rng

/-! ## Peeling -/

inductive SphinxPeelOutcome where
  | Forward (next_hop : Octets SLOT_ID_LEN) (next_packet : SphinxPacket)
  | Deliver (payload : Bytes)
  | Cover

def peelSphinxLayer (relay_sk : F) (packet : SphinxPacket) : Except OnionError SphinxPeelOutcome := do
  require (¬ AllZero packet.alpha) .SmallOrderPubkey
  match R.decompress packet.alpha with
  | none => throw .SmallOrderPubkey
  | some alpha_point =>
    let shared_bytes := R.compress (relay_sk • alpha_point)
    require (¬ AllZero shared_bytes) .SmallOrderPubkey
    let keys := deriveHopKeys P shared_bytes packet.alpha
    match peelHeader P MAX_HOPS keys packet.header.val packet.mac with
    | .error () => throw .AeadFail
    | .ok outcome =>
      let payload := chacha20XorInPlace P keys.payload_stream packet.payload.val
      match outcome with
      | .Deliver =>
        let plen := beValue (payload.take 2)
        require (plen ≤ SPHINX_MAX_USER_PAYLOAD)
          (.Internal "destination payload length oversize")
        let user_payload := slice payload 2 (2 + plen)
        if isCoverPayloadAuthenticated P shared_bytes user_payload then
          return .Cover
        return .Deliver user_payload
      | .Forward next_hop_id next_header next_mac =>
        let b_scalar := R.fromBytesModOrderWide keys.blinding_seed
        let next_alpha := b_scalar • alpha_point
        return .Forward next_hop_id
          (assemble (R.compress next_alpha) next_mac next_header payload)

end Group

end OneLink.Sphinx
