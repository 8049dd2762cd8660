/-
# Sphinx.Delivery -- a packet reaches the hop that was chosen

Sender and relay come to the same shared point along different ways: the sender multiplies
exponents, each relay the point.  So at every hop the relay derives the sender's keys, takes
its layer off header and payload, and what it assembles is the packet that the sender has
wrapped for the next hop (`delivers_of_chain`, an induction along the circuit that carries
the filler grown so far).

The all-zero id is the mark of the destination: a hop with that id is never forwarded to
(`marker_not_forwarded`).
-/
import Mathlib.Algebra.Field.ZMod
import Mathlib.Algebra.Module.Torsion.Field
import Mathlib.Tactic.NormNum.Prime
import OneLink.Sphinx.Packet

namespace OneLink.Sphinx

set_option autoImplicit false
set_option linter.unusedSectionVars false

open Library
open Onion (Octets OnionError)

/-! ## Packets -/

section Assemble

variable (alpha : Octets 32) (mac : Octets SLOT_MAC_LEN) {header payload : Bytes}

theorem field_assemble {p : SphinxPacket} (front middle back : Bytes) {start n : Nat}
    {inside : start + n ≤ SPHINX_PACKET_LEN} (bytes : p.bytes.val = front ++ (middle ++ back))
    (starts : front.length = start) (width : middle.length = n) :
    (p.field start n inside).val = middle := by
  subst starts width
  show slice p.bytes.val _ _ = middle
  rw [bytes, slice_middle]

theorem alpha_assemble : (assemble alpha mac header payload).alpha = alpha :=
  Subtype.ext (field_assemble [SPHINX_VERSION] _ _ rfl rfl alpha.property)

theorem mac_assemble : (assemble alpha mac header payload).mac = mac :=
  Subtype.ext (field_assemble (SPHINX_VERSION :: alpha.val) mac.val
    ((fit HEADER_LEN header).val ++ (fit PAYLOAD_LEN payload).val) rfl
    (by rw [List.length_cons, alpha.property]) mac.property)

theorem header_assemble (width : header.length = HEADER_LEN) :
    (assemble alpha mac header payload).header.val = header := by
  refine (field_assemble (SPHINX_VERSION :: (alpha.val ++ mac.val))
    (fit HEADER_LEN header).val (fit PAYLOAD_LEN payload).val ?_ ?_
    (fit HEADER_LEN header).property).trans (fit_val width)
  · show SPHINX_VERSION :: (alpha.val ++ (mac.val ++ _)) = _
    rw [List.cons_append, List.append_assoc]
  · rw [List.length_cons, List.length_append, alpha.property, mac.property]
    rfl

theorem payload_assemble (width : payload.length = PAYLOAD_LEN) :
    (assemble alpha mac header payload).payload.val = payload := by
  refine (field_assemble
    (SPHINX_VERSION :: (alpha.val ++ (mac.val ++ (fit HEADER_LEN header).val)))
    (fit PAYLOAD_LEN payload).val [] ?_ ?_
    (fit PAYLOAD_LEN payload).property).trans (fit_val width)
  · show SPHINX_VERSION :: (alpha.val ++ (mac.val ++ (_ ++ _))) = _
    rw [List.cons_append, List.append_nil, List.append_assoc, List.append_assoc]
  · rw [List.length_cons, List.length_append, List.length_append, alpha.property, mac.property,
      (fit HEADER_LEN header).property]
    rfl

/-- What is assembled is accepted on the wire. -/
theorem fromBytes_assemble : SphinxPacket.fromBytes (assemble alpha mac header payload).bytes.val =
    .ok (assemble alpha mac header payload) := by
  unfold SphinxPacket.fromBytes
  rw [dif_pos (assemble alpha mac header payload).bytes.property]
  exact if_pos rfl

end Assemble

variable {P : Ciphers}

theorem isCover_trailer (key : Octets 32) (body : Bytes) :
    isCoverPayloadAuthenticated P key (COVER_SENTINEL ++ body ++
      (computeCoverTrailer P key (COVER_SENTINEL ++ body)).val) = true := by
  have width := (computeCoverTrailer P key (COVER_SENTINEL ++ body)).property
  have bodyEnd : (COVER_SENTINEL ++ body ++
      (computeCoverTrailer P key (COVER_SENTINEL ++ body)).val).length - COVER_TRAILER_LEN =
        (COVER_SENTINEL ++ body).length := by
    rw [List.length_append, width, Nat.add_sub_cancel]
  unfold isCoverPayloadAuthenticated
  rw [if_neg (by rw [List.length_append, List.length_append, width]; omega),
    if_neg (by rw [List.append_assoc, List.take_left' rfl]; exact fun differs => differs rfl)]
  simp only [bodyEnd, List.take_left', List.drop_left', decide_true]

/-- The length and the payload are read back. -/
theorem payloadBuf_spec {payload : Bytes} (small : payload.length ≤ SPHINX_MAX_USER_PAYLOAD) :
    (payloadBuf payload).length = PAYLOAD_LEN ∧
      beValue ((payloadBuf payload).take 2) = payload.length ∧
      slice (payloadBuf payload) 2 (2 + payload.length) = payload := by
  have width : (beBytes 2 payload.length).length = 2 := length_beBytes 2 _
  have fits : payload.length < 256 ^ 2 := by
    simp only [SPHINX_MAX_USER_PAYLOAD, PAYLOAD_LEN] at small
    omega
  refine ⟨?_, ?_, ?_⟩
  · rw [payloadBuf, List.length_append, List.length_append, width, length_zeros]
    simp only [SPHINX_MAX_USER_PAYLOAD, PAYLOAD_LEN] at small ⊢
    omega
  · rw [payloadBuf, List.append_assoc, List.take_left' width, beValue_beBytes fits]
  · have middle := slice_middle (beBytes 2 payload.length) payload
      (zeros (PAYLOAD_LEN - 2 - payload.length))
    rwa [width, ← List.append_assoc] at middle

/-! ## The group -/

section Group

variable {F G : Type} [Field F] [AddCommGroup G] [Module F G] [DecidableEq G] {R : Curve F G}

/-- What the encoding of points is relied on for. -/
structure Curve.Lawful (R : Curve F G) : Prop where
  decompress_compress : ∀ p, R.decompress (R.compress p) = some p
  compress_zero : AllZero (R.compress 0)
  basepoint_ne : R.basepoint ≠ 0

theorem allZero_compress (lawful : R.Lawful) (p : G) : AllZero (R.compress p) ↔ p = 0 := by
  constructor
  · intro zero
    have replicated : ∀ bytes : Octets 32, AllZero bytes → bytes.val = List.replicate 32 0 :=
      fun bytes zero => List.eq_replicate_iff.mpr ⟨bytes.property, zero⟩
    have same : R.compress p = R.compress 0 := Subtype.ext
      ((replicated _ zero).trans (replicated _ lawful.compress_zero).symm)
    have back := lawful.decompress_compress p
    rw [same, lawful.decompress_compress] at back
    exact (Option.some.inj back).symm
  · rintro rfl
    exact lawful.compress_zero

/-- What a relay makes of an assembled packet. -/
theorem peel_assemble (lawful : R.Lawful) {sk : F} {alpha : G} {mac : Octets SLOT_MAC_LEN}
    {header payload : Bytes} (point : alpha ≠ 0) (shared : sk • alpha ≠ 0)
    (full : header.length = HEADER_LEN) (filled : payload.length = PAYLOAD_LEN) {keys : HopKeys}
    (same : deriveHopKeys P (R.compress (sk • alpha)) (R.compress alpha) = keys) :
    peelSphinxLayer P R sk (assemble (R.compress alpha) mac header payload) =
      match peelHeader P MAX_HOPS keys header mac with
      | .error () => .error .AeadFail
      | .ok outcome =>
        let payload := chacha20XorInPlace P keys.payload_stream payload
        match outcome with
        | .Deliver => do
          let plen := beValue (payload.take 2)
          require (plen ≤ SPHINX_MAX_USER_PAYLOAD)
            (.Internal "destination payload length oversize")
          let user_payload := slice payload 2 (2 + plen)
          if isCoverPayloadAuthenticated P (R.compress (sk • alpha)) user_payload then
            return .Cover
          return .Deliver user_payload
        | .Forward next_hop_id next_header next_mac =>
          .ok (.Forward next_hop_id (assemble (R.compress
            (R.fromBytesModOrderWide keys.blinding_seed • alpha)) next_mac next_header payload)) := by
  subst same
  have point' : ¬ AllZero (R.compress alpha) := mt (allZero_compress lawful alpha).mp point
  have shared' : ¬ AllZero (R.compress (sk • alpha)) := mt (allZero_compress lawful _).mp shared
  unfold peelSphinxLayer
  rw [alpha_assemble, require_of point', ok_bind, lawful.decompress_compress]
  simp only [require_of shared', ok_bind, mac_assemble, header_assemble _ _ full,
    payload_assemble _ _ filled]
  rfl

/-! ## The chain of keys -/

/-- The keys of the hops, without the checks. -/
def keysOf (P : Ciphers) (R : Curve F G) (x : F) : List (SphinxHop G) → F → G → List HopKeys
  | [], _, _ => []
  | hop :: circuit, c, alpha =>
    let keys := deriveHopKeys P (R.compress ((x * c) • hop.static_pk)) (R.compress alpha)
    let b := R.fromBytesModOrderWide keys.blinding_seed
    keys :: keysOf P R x circuit (c * b) (b • alpha)

theorem length_keysOf (x : F) (circuit : List (SphinxHop G)) (c : F) (alpha : G) :
    (keysOf P R x circuit c alpha).length = circuit.length := by
  induction circuit generalizing c alpha with
  | nil => rfl
  | cons hop circuit ih => rw [keysOf, List.length_cons, List.length_cons, ih]

/-- No blinding factor is zero. -/
def Blinds (P : Ciphers) (R : Curve F G) : Prop :=
  ∀ shared alpha, R.fromBytesModOrderWide (deriveHopKeys P shared alpha).blinding_seed ≠ 0

variable (lawful : R.Lawful) (blinds : Blinds P R) {x : F} (nonzero : x ≠ 0)
include lawful blinds nonzero

theorem hopKeysLoop_eq {circuit : List (SphinxHop G)} (points : ∀ hop ∈ circuit, hop.static_pk ≠ 0)
    {c : F} (unit : c ≠ 0) (alpha : G) :
    hopKeysLoop P R x circuit c alpha = .ok (keysOf P R x circuit c alpha) := by
  induction circuit generalizing c alpha with
  | nil => rfl
  | cons hop circuit ih =>
    have shared : ¬ AllZero (R.compress ((x * c) • hop.static_pk)) := by
      rw [allZero_compress lawful]
      exact smul_ne_zero (mul_ne_zero nonzero unit) (points hop List.mem_cons_self)
    rw [hopKeysLoop, require_of shared, ok_bind]
    simp only [ih (fun hop member => points hop (List.mem_cons_of_mem _ member))
      (mul_ne_zero unit (blinds _ _)), ok_bind]
    rfl

/-- The key of the last hop, along the chain that the keys were derived on. -/
theorem finalKeyLoop_ok {circuit : List (SphinxHop G)} (some_hop : circuit ≠ [])
    (points : ∀ hop ∈ circuit, hop.static_pk ≠ 0) {c : F} (unit : c ≠ 0) (alpha : G) :
    ∃ key, finalKeyLoop P R x circuit c alpha = .ok key := by
  induction circuit generalizing c alpha with
  | nil => exact absurd rfl some_hop
  | cons hop circuit ih =>
    have shared : ¬ AllZero (R.compress ((x * c) • hop.static_pk)) := by
      rw [allZero_compress lawful]
      exact smul_ne_zero (mul_ne_zero nonzero unit) (points hop List.mem_cons_self)
    rw [finalKeyLoop, require_of shared, ok_bind]
    cases circuit with
    | nil => exact ⟨_, rfl⟩
    | cons next circuit =>
      exact ih (List.cons_ne_nil _ _)
        (fun hop member => points hop (List.mem_cons_of_mem _ member))
        (mul_ne_zero unit (blinds _ _)) _

omit lawful blinds nonzero

/-! ## The route -/

/-- Along the route, each with its secret: every hop before the last forwards to the next,
with a packet that is accepted on the wire, and the last ends in `outcome`. -/
def Delivers (P : Ciphers) (R : Curve F G) (outcome : SphinxPeelOutcome) :
    List (SphinxHop G × F) → SphinxPacket → Prop
  | [], _ => False
  | [hop], packet => peelSphinxLayer P R hop.2 packet = .ok outcome
  | hop :: next :: route, packet => ∃ next_packet,
      peelSphinxLayer P R hop.2 packet = .ok (.Forward next.1.id next_packet) ∧
      SphinxPacket.fromBytes next_packet.bytes.val = .ok next_packet ∧
      Delivers P R outcome (next :: route) next_packet

/-- What the destination makes of the payload. -/
def outcomeOf (P : Ciphers) (key : Octets 32) (payload : Bytes) : SphinxPeelOutcome :=
  if isCoverPayloadAuthenticated P key payload then .Cover else .Deliver payload

/-- The relays of a circuit: all but the last hop, with the id of the next. -/
def relaysOf (keys : List HopKeys) (circuit : List (SphinxHop G)) : List (HopKeys × Octets SLOT_ID_LEN) :=
  keys.zip (circuit.tail.map (·.id))

/-- The payload under the keys, the first hop's outermost. -/
def wrapPayload (P : Ciphers) (keys : List HopKeys) (buf : Bytes) : Bytes :=
  keys.foldr (fun keys buf => chacha20XorInPlace P keys.payload_stream buf) buf

theorem length_wrapPayload (keys : List HopKeys) (buf : Bytes) :
    (wrapPayload P keys buf).length = buf.length := by
  induction keys with
  | nil => rfl
  | cons key keys ih => exact (length_xorFrom _ _ _).trans ih

/-- The relay's shared point is the sender's. -/
theorem shared_eq {sk c : F} {pk : G} (owner : pk = sk • R.basepoint) :
    sk • ((x * c) • R.basepoint) = (x * c) • pk := by
  rw [owner, smul_smul, smul_smul, mul_comm]

/-- The next point is the sender's next. -/
theorem blinded_eq (b c : F) : b • ((x * c) • R.basepoint) = (x * (c * b)) • R.basepoint := by
  rw [smul_smul, mul_comm b, mul_assoc]

/-- The keys of a hop that the blinding has brought to `c`. -/
def keysAt (P : Ciphers) (R : Curve F G) (x c : F) (hop : SphinxHop G × F) : HopKeys :=
  deriveHopKeys P (R.compress ((x * c) • hop.1.static_pk)) (R.compress ((x * c) • R.basepoint))

/-- The blinding behind that hop. -/
def blindedBy (P : Ciphers) (R : Curve F G) (x c : F) (hop : SphinxHop G × F) : F :=
  c * R.fromBytesModOrderWide (keysAt P R x c hop).blinding_seed

def keysAlong (P : Ciphers) (R : Curve F G) (x c : F) (route : List (SphinxHop G × F)) : List HopKeys :=
  keysOf P R x (route.map Prod.fst) c ((x * c) • R.basepoint)

def relaysAlong (P : Ciphers) (R : Curve F G) (x c : F) (route : List (SphinxHop G × F)) :
    List (HopKeys × Octets SLOT_ID_LEN) :=
  relaysOf (keysAlong P R x c route) (route.map Prod.fst)

/-- The packet on its way to the first hop of `route`, around the destination's header. -/
def packetAlong (P : Ciphers) (R : Curve F G) (x c : F) (route : List (SphinxHop G × F))
    (dest : BuiltHeader) (payload : Bytes) : SphinxPacket :=
  assemble (R.compress ((x * c) • R.basepoint))
    (wrapAll P MAX_HOPS (relaysAlong P R x c route) dest).mac
    (wrapAll P MAX_HOPS (relaysAlong P R x c route) dest).header
    (wrapPayload P (keysAlong P R x c route) (payloadBuf payload))

theorem keysAlong_cons (c : F) (hop : SphinxHop G × F) (route : List (SphinxHop G × F)) :
    keysAlong P R x c (hop :: route) =
      keysAt P R x c hop :: keysAlong P R x (blindedBy P R x c hop) route := by
  rw [keysAlong, keysAlong, blindedBy, ← blinded_eq]
  rfl

theorem relaysAlong_cons (c : F) (hop next : SphinxHop G × F) (route : List (SphinxHop G × F)) :
    relaysAlong P R x c (hop :: next :: route) =
      (keysAt P R x c hop, next.1.id) :: relaysAlong P R x (blindedBy P R x c hop) (next :: route) := by
  rw [relaysAlong, keysAlong_cons]
  rfl

theorem length_relaysAlong (c : F) (route : List (SphinxHop G × F)) :
    (relaysAlong P R x c route).length = route.length - 1 := by
  rw [relaysAlong, relaysOf, List.length_zip, keysAlong, length_keysOf, List.length_map,
    List.length_map, List.length_tail, List.length_map]
  exact Nat.min_eq_right (Nat.sub_le _ _)

/-! ## One hop -/

section Hop

variable (lawful : R.Lawful) (nonzero : x ≠ 0) {c : F} (unit : c ≠ 0) {hop : SphinxHop G × F}
  (owner : hop.1.static_pk = hop.2 • R.basepoint) (point : hop.1.static_pk ≠ 0) {payload : Bytes}
  (small : payload.length ≤ SPHINX_MAX_USER_PAYLOAD) {dest : BuiltHeader}
  (full : dest.header.length = HEADER_LEN)
include lawful nonzero unit owner point small full

/-- What a hop makes of the packet for it, by what its header says: the keys are the
sender's, and the payload loses one layer. -/
theorem peel_packetAlong {route : List (SphinxHop G × F)}
    (width : (wrapAll P MAX_HOPS (relaysAlong P R x c (hop :: route)) dest).header.length =
      HEADER_LEN) :
    peelSphinxLayer P R hop.2 (packetAlong P R x c (hop :: route) dest payload) =
      match peelHeader P MAX_HOPS (keysAt P R x c hop)
        (wrapAll P MAX_HOPS (relaysAlong P R x c (hop :: route)) dest).header
        (wrapAll P MAX_HOPS (relaysAlong P R x c (hop :: route)) dest).mac with
      | .error () => .error .AeadFail
      | .ok .Deliver => do
        let buf := wrapPayload P (keysAlong P R x (blindedBy P R x c hop) route)
          (payloadBuf payload)
        let plen := beValue (buf.take 2)
        require (plen ≤ SPHINX_MAX_USER_PAYLOAD) (.Internal "destination payload length oversize")
        return outcomeOf P (R.compress ((x * c) • hop.1.static_pk)) (slice buf 2 (2 + plen))
      | .ok (.Forward next_hop next_header next_mac) =>
        .ok (.Forward next_hop (assemble
          (R.compress ((x * blindedBy P R x c hop) • R.basepoint)) next_mac next_header
          (wrapPayload P (keysAlong P R x (blindedBy P R x c hop) route) (payloadBuf payload)))) := by
  have shared : hop.2 • ((x * c) • R.basepoint) = (x * c) • hop.1.static_pk := shared_eq owner
  have shared_ne : hop.2 • ((x * c) • R.basepoint) ≠ 0 := by
    rw [shared]
    exact smul_ne_zero (mul_ne_zero nonzero unit) point
  have filled : (wrapPayload P (keysAlong P R x c (hop :: route)) (payloadBuf payload)).length =
      PAYLOAD_LEN := (length_wrapPayload _ _).trans (payloadBuf_spec small).1
  have opened : chacha20XorInPlace P (keysAt P R x c hop).payload_stream
      (wrapPayload P (keysAlong P R x c (hop :: route)) (payloadBuf payload)) =
        wrapPayload P (keysAlong P R x (blindedBy P R x c hop) route) (payloadBuf payload) := by
    rw [keysAlong_cons]
    exact xorFrom_xorFrom _ _ _
  have sameKeys : deriveHopKeys P (R.compress (hop.2 • ((x * c) • R.basepoint)))
      (R.compress ((x * c) • R.basepoint)) = keysAt P R x c hop := by rw [shared, keysAt]
  rw [packetAlong, peel_assemble lawful (smul_ne_zero (mul_ne_zero nonzero unit) lawful.basepoint_ne)
    shared_ne width filled sameKeys]
  cases peelHeader P MAX_HOPS (keysAt P R x c hop)
      (wrapAll P MAX_HOPS (relaysAlong P R x c (hop :: route)) dest).header
      (wrapAll P MAX_HOPS (relaysAlong P R x c (hop :: route)) dest).mac with
  | error _ => rfl
  | ok outcome =>
    cases outcome with
    | Deliver =>
      simp only [opened, shared, outcomeOf]
      refine bind_congr fun _ => ?_
      split
      · rfl
      · rfl
    | Forward next_hop next_header next_mac =>
      simp only [opened, blinded_eq]
      rfl

/-- The last hop reads the payload. -/
theorem peel_last {key : Octets 32}
    (last : finalKeyLoop P R x [hop.1] c ((x * c) • R.basepoint) = .ok key)
    (delivered : peelHeader P MAX_HOPS (keysAt P R x c hop) dest.header dest.mac = .ok .Deliver) :
    peelSphinxLayer P R hop.2 (packetAlong P R x c [hop] dest payload) =
      .ok (outcomeOf P key payload) := by
  obtain ⟨-, lengthBack, payloadBack⟩ := payloadBuf_spec small
  have sameKey : R.compress ((x * c) • hop.1.static_pk) = key := by
    rw [finalKeyLoop] at last
    simp only [bind_eq_ok, require_eq_ok, exists_const] at last
    obtain ⟨-, last⟩ := last
    cases last
    rfl
  have alone : wrapAll P MAX_HOPS (relaysAlong P R x c [hop]) dest = dest := rfl
  rw [peel_packetAlong lawful nonzero unit owner point small full (by rw [alone]; exact full), alone,
    delivered]
  have whole : wrapPayload P (keysAlong P R x (blindedBy P R x c hop) []) (payloadBuf payload) =
    payloadBuf payload := rfl
  simp only [whole, lengthBack, require_of small, ok_bind, payloadBack, sameKey]
  rfl

/-- A relay forwards what was wrapped behind it, unless the next id is the marker. -/
theorem peel_relay {next : SphinxHop G × F} {route : List (SphinxHop G × F)} {filler : Bytes}
    (room : filler.length + (route.length + 2) * SLOT_LEN ≤ headerLen MAX_HOPS)
    (ends : fillerBehind P MAX_HOPS (relaysAlong P R x c (hop :: next :: route)) filler <:+
      dest.header) :
    (next.1.id ≠ DESTINATION_MARKER →
      peelSphinxLayer P R hop.2 (packetAlong P R x c (hop :: next :: route) dest payload) =
        .ok (.Forward next.1.id
          (packetAlong P R x (blindedBy P R x c hop) (next :: route) dest payload))) ∧
    (next.1.id = DESTINATION_MARKER → ∀ id packet,
      peelSphinxLayer P R hop.2 (packetAlong P R x c (hop :: next :: route) dest payload) ≠
        .ok (.Forward id packet)) := by
  have counted := length_relaysAlong (P := P) (R := R) (x := x) c (hop :: next :: route)
  rw [List.length_cons, List.length_cons, Nat.add_sub_cancel] at counted
  have width := (suffix_wrapAll full (by rw [counted]; simp only [Nat.add_mul] at room ⊢; omega)
    ends).1
  have header := peel_packetAlong (P := P) lawful nonzero unit owner point small full width
  have behind := length_relaysAlong (P := P) (R := R) (x := x) (blindedBy P R x c hop) (next :: route)
  rw [relaysAlong_cons] at ends header
  rw [List.length_cons, Nat.add_sub_cancel] at behind
  have unwraps := peelHeader_wrapAll (P := P) full
    (by rw [behind]; simp only [Nat.add_mul] at room ⊢; omega) ends
  rw [unwraps] at header
  refine ⟨fun routed => ?_, fun marked id packet forwards => ?_⟩
  · rw [if_neg routed] at header
    exact header
  · rw [if_pos marked] at header
    rw [header] at forwards
    simp only [bind_eq_ok, require_eq_ok, exists_const, outcomeOf] at forwards
    obtain ⟨-, delivers⟩ := forwards
    split at delivers
    · cases delivers
    · cases delivers

end Hop

/-- **A packet that is wrapped for the rest of a circuit goes to its end.** The filler is
what the relays in front have grown; the destination's header ends in it, carried on. -/
theorem delivers_of_chain (lawful : R.Lawful) (blinds : Blinds P R) (nonzero : x ≠ 0)
    {payload : Bytes} (small : payload.length ≤ SPHINX_MAX_USER_PAYLOAD) {dest : BuiltHeader}
    (full : dest.header.length = HEADER_LEN) {key : Octets 32} (route : List (SphinxHop G × F))
    (owners : ∀ hop ∈ route, hop.1.static_pk = hop.2 • R.basepoint)
    (points : ∀ hop ∈ route, hop.1.static_pk ≠ 0)
    (routed : ∀ hop ∈ route.tail, hop.1.id ≠ DESTINATION_MARKER) {c : F} (unit : c ≠ 0)
    {filler : Bytes} (room : filler.length + route.length * SLOT_LEN ≤ HEADER_LEN)
    (last : finalKeyLoop P R x (route.map Prod.fst) c ((x * c) • R.basepoint) = .ok key)
    (ends : fillerBehind P MAX_HOPS (relaysAlong P R x c route) filler <:+ dest.header)
    (delivered : ∀ keys, (keysAlong P R x c route).getLast? = some keys →
      peelHeader P MAX_HOPS keys dest.header dest.mac = .ok .Deliver) :
    Delivers P R (outcomeOf P key payload) route (packetAlong P R x c route dest payload) := by
  induction route generalizing c filler with
  | nil => cases last
  | cons hop route ih =>
    have owner := owners hop List.mem_cons_self
    have point := points hop List.mem_cons_self
    cases route with
    | nil => exact peel_last lawful nonzero unit owner point small full last (delivered _ rfl)
    | cons next route =>
      have unit' : blindedBy P R x c hop ≠ 0 := mul_ne_zero unit (blinds _ _)
      rw [List.length_cons, List.length_cons] at room
      refine ⟨_, (peel_relay lawful nonzero unit owner point small full room ends).1
        (routed next List.mem_cons_self), fromBytes_assemble _ _, ?_⟩
      rw [relaysAlong_cons] at ends
      have behind := @ih (fun hop member => owners hop (List.mem_cons_of_mem _ member))
        (fun hop member => points hop (List.mem_cons_of_mem _ member))
        (fun hop member => routed hop (List.mem_cons_of_mem _ member)) _ unit'
        (grow (P.chacha20 (keysAt P R x c hop).header_stream) HEADER_LEN SLOT_LEN filler)
      refine behind ?_ ?_ ends ?_
      · rw [length_grow, List.length_cons]
        simp only [Nat.add_mul, Nat.one_mul] at room ⊢
        omega
      · rw [List.map_cons, finalKeyLoop] at last
        simp only [bind_eq_ok, require_eq_ok, exists_const] at last
        rw [blindedBy, ← blinded_eq]
        exact last.2
      · intro keys isLast
        refine delivered keys ?_
        rw [keysAlong_cons, List.getLast?_cons_of_ne_nil ?_]
        · exact isLast
        · intro none_left
          rw [none_left] at isLast
          cases isLast

/-! ## What the sender builds -/

theorem zip_append_take (keys : List HopKeys) (ids rest : List (Octets SLOT_ID_LEN))
    (enough : ids.length ≤ keys.length) :
    (keys.zip (ids ++ rest)).take ids.length = keys.zip ids := by
  induction ids generalizing keys with
  | nil => simp
  | cons id ids ih =>
    cases keys with
    | nil => simp at enough
    | cons key keys =>
      rw [List.cons_append, List.zip_cons_cons, List.zip_cons_cons, List.length_cons,
        List.take_succ_cons, ih keys (Nat.le_of_succ_le_succ enough)]

/-- The header is built for the relays around the destination. -/
theorem buildHeader_circuit {keys : List HopKeys} {circuit : List (SphinxHop G)} {random_pad : Bytes}
    {dest_keys : HopKeys} (isLast : keys.getLast? = some dest_keys)
    (sized : keys.length = circuit.length) (few : circuit.length ≤ MAX_HOPS)
    (padded : random_pad.length = HEADER_LEN - SLOT_LEN - (circuit.length - 1) * SLOT_LEN) :
    buildHeader P MAX_HOPS keys ((circuit.drop 1).map (·.id) ++ [DESTINATION_MARKER]) random_pad =
      .ok (wrapAll P MAX_HOPS (relaysOf keys circuit)
        (destinationHeader P MAX_HOPS dest_keys random_pad
          (fillerBehind P MAX_HOPS (relaysOf keys circuit) []))) := by
  have some_length : 0 < keys.length := by
    refine List.length_pos_iff.mpr ?_
    rintro rfl
    cases isLast
  have ids : (circuit.drop 1).map (·.id) = circuit.tail.map (·.id) := by rw [List.drop_one]
  have width : (circuit.tail.map (·.id)).length = keys.length - 1 := by
    rw [List.length_map, List.length_tail, sized]
  have relays : relaysFor keys (circuit.tail.map (·.id) ++ [DESTINATION_MARKER]) =
      relaysOf keys circuit := by
    rw [relaysFor, ← width, zip_append_take keys _ _ (by omega)]
    rfl
  rw [ids, ← relays]
  exact buildHeader_eq (by rw [List.length_append, width, List.length_singleton]; omega) isLast
    (by omega) (by rw [sized]; exact padded)

theorem static_pk_ne {hop : SphinxHop G} {pk : Octets 32}
    (accepted : SphinxHop.new R hop.id pk = .ok hop) : hop.static_pk ≠ 0 := by
  unfold SphinxHop.new at accepted
  split at accepted
  · cases accepted
  · split at accepted
    · cases accepted
    · rename_i some_point
      have same := congrArg SphinxHop.static_pk (Except.ok.inj accepted)
      exact fun zero => some_point (same.trans zero)

/-- What is built is the packet for the whole route, around a header that ends in the
filler of the relays. -/
theorem build_eq (lawful : R.Lawful) (blinds : Blinds P R) {σ : Type}
    (fill : (n : Nat) → σ → Octets n × σ) (rng : σ) (nonzero : x ≠ 0)
    {route : List (SphinxHop G × F)} (some_hop : route ≠ []) (few : route.length ≤ MAX_HOPS)
    (points : ∀ hop ∈ route, hop.1.static_pk ≠ 0) {payload : Bytes}
    (small : payload.length ≤ SPHINX_MAX_USER_PAYLOAD) :
    ∃ dest rng', buildSphinxOnion P R fill x (route.map Prod.fst) payload rng =
        .ok (packetAlong P R x 1 route dest payload, rng') ∧
      dest.header.length = HEADER_LEN ∧
      fillerBehind P MAX_HOPS (relaysAlong P R x 1 route) [] <:+ dest.header ∧
      ∀ keys, (keysAlong P R x 1 route).getLast? = some keys →
        peelHeader P MAX_HOPS keys dest.header dest.mac = .ok .Deliver := by
  have some_hop' : route.map Prod.fst ≠ [] := fun none_left => some_hop (List.map_eq_nil_iff.mp none_left)
  have points' : ∀ hop ∈ route.map Prod.fst, hop.static_pk ≠ 0 := by
    intro hop member
    obtain ⟨entry, there, rfl⟩ := List.mem_map.mp member
    exact points entry there
  have few' : (route.map Prod.fst).length ≤ MAX_HOPS := by rwa [List.length_map]
  have first : x • R.basepoint = (x * 1) • R.basepoint := by rw [mul_one]
  have loop : hopKeysLoop P R x (route.map Prod.fst) 1 (x • R.basepoint) =
      .ok (keysAlong P R x 1 route) := by
    rw [keysAlong, ← first, hopKeysLoop_eq lawful blinds nonzero points' one_ne_zero]
  have sized : (keysAlong P R x 1 route).length = (route.map Prod.fst).length := length_keysOf ..
  have behind := @length_fillerBehind P MAX_HOPS (relaysAlong P R x 1 route) []
  rw [length_relaysAlong, List.length_nil, Nat.zero_add] at behind
  obtain ⟨dest_keys, isLast⟩ : ∃ dest_keys, (keysAlong P R x 1 route).getLast? = some dest_keys := by
    refine ⟨_, List.getLast?_eq_some_getLast (List.length_pos_iff.mp ?_)⟩
    rw [sized, List.length_map]
    exact List.length_pos_iff.mpr some_hop
  cases drawn : fill (HEADER_LEN - SLOT_LEN - ((route.map Prod.fst).length - 1) * SLOT_LEN) rng with
  | mk random_pad rng' =>
    have header := buildHeader_circuit (P := P) isLast sized few' random_pad.property
    have width : SLOT_LEN + random_pad.val.length +
        (fillerBehind P MAX_HOPS (relaysAlong P R x 1 route) []).length = HEADER_LEN := by
      have some_length := List.length_pos_iff.mpr some_hop
      rw [random_pad.property, behind, List.length_map]
      simp only [MAX_HOPS, HEADER_LEN, headerLen, SLOT_LEN] at few ⊢
      omega
    obtain ⟨full, ends, delivers⟩ := destinationHeader_spec (P := P) dest_keys width
    refine ⟨_, rng', ?_, full, ends, fun keys here => ?_⟩
    · unfold buildSphinxOnion
      rw [require_of some_hop', ok_bind, require_of few', ok_bind, require_of small, ok_bind]
      simp only
      rw [loop, ok_bind, drawn]
      simp only
      rw [header, ok_bind, List.foldl_reverse, packetAlong, ← first]
      rfl
    · cases isLast.symm.trans here
      exact delivers

/-- A packet is built, and goes along the route. -/
theorem build_delivers (lawful : R.Lawful) (blinds : Blinds P R) {σ : Type}
    (fill : (n : Nat) → σ → Octets n × σ) (rng : σ) (nonzero : x ≠ 0)
    {route : List (SphinxHop G × F)} (some_hop : route ≠ []) (few : route.length ≤ MAX_HOPS)
    (owners : ∀ hop ∈ route, hop.1.static_pk = hop.2 • R.basepoint)
    (points : ∀ hop ∈ route, hop.1.static_pk ≠ 0)
    (routed : ∀ hop ∈ route.tail, hop.1.id ≠ DESTINATION_MARKER) {key : Octets 32}
    (last : finalKeyLoop P R x (route.map Prod.fst) 1 (x • R.basepoint) = .ok key)
    {payload : Bytes} (small : payload.length ≤ SPHINX_MAX_USER_PAYLOAD) :
    ∃ packet rng', buildSphinxOnion P R fill x (route.map Prod.fst) payload rng =
        .ok (packet, rng') ∧
      SphinxPacket.fromBytes packet.bytes.val = .ok packet ∧
      Delivers P R (outcomeOf P key payload) route packet := by
  have first : x • R.basepoint = (x * 1) • R.basepoint := by rw [mul_one]
  obtain ⟨dest, rng', builds, full, ends, delivered⟩ :=
    build_eq lawful blinds fill rng nonzero some_hop few points small
  refine ⟨_, rng', builds, fromBytes_assemble _ _, ?_⟩
  refine delivers_of_chain lawful blinds nonzero small full route owners points routed
    one_ne_zero (show ([] : Bytes).length + _ ≤ _ from ?_) (first ▸ last) ends delivered
  simp only [MAX_HOPS, HEADER_LEN, headerLen, SLOT_LEN, List.length_nil] at few ⊢
  omega

/-- A hop with the all-zero id behind the first is not forwarded to: what the sender builds
for the route ends at the hop in front of it. -/
theorem marker_not_forwarded (lawful : R.Lawful) (blinds : Blinds P R) {σ : Type}
    (fill : (n : Nat) → σ → Octets n × σ) (rng : σ) (nonzero : x ≠ 0)
    {hop next : SphinxHop G × F} {route : List (SphinxHop G × F)}
    (few : (hop :: next :: route).length ≤ MAX_HOPS)
    (owner : hop.1.static_pk = hop.2 • R.basepoint)
    (points : ∀ other ∈ hop :: next :: route, other.1.static_pk ≠ 0)
    (marked : next.1.id = DESTINATION_MARKER) {payload : Bytes}
    (small : payload.length ≤ SPHINX_MAX_USER_PAYLOAD) :
    ∃ packet rng', buildSphinxOnion P R fill x ((hop :: next :: route).map Prod.fst) payload rng =
        .ok (packet, rng') ∧
      ∀ id behind, peelSphinxLayer P R hop.2 packet ≠ .ok (.Forward id behind) := by
  obtain ⟨dest, rng', builds, full, ends, -⟩ :=
    build_eq lawful blinds fill rng nonzero (List.cons_ne_nil _ _) few points small
  refine ⟨_, rng', builds, (peel_relay lawful nonzero one_ne_zero owner
    (points hop List.mem_cons_self) small full (show ([] : Bytes).length + _ ≤ _ from ?_) ends).2 marked⟩
  simp only [MAX_HOPS, headerLen, SLOT_LEN, List.length_cons, List.length_nil] at few ⊢
  omega

/-- **Sphinx packets reach exactly the chosen destination**, for a circuit whose hops behind
the first do not have the all-zero id: with the payload, or as cover where the payload is
the cover payload of this circuit. -/
theorem sphinx_delivers (lawful : R.Lawful) (blinds : Blinds P R) {σ : Type}
    (fill : (n : Nat) → σ → Octets n × σ) (rng : σ) (nonzero : x ≠ 0)
    (route : List (SphinxHop G × F)) (some_hop : route ≠ []) (few : route.length ≤ MAX_HOPS)
    (accepted : ∀ hop ∈ route, ∃ pk, SphinxHop.new R hop.1.id pk = .ok hop.1)
    (owners : ∀ hop ∈ route, hop.1.static_pk = hop.2 • R.basepoint)
    (routed : ∀ hop ∈ route.tail, hop.1.id ≠ DESTINATION_MARKER) :
    ∃ key, computeFinalHopSharedKey P R x (route.map Prod.fst) = .ok key ∧
      (∀ payload : Bytes, payload.length ≤ SPHINX_MAX_USER_PAYLOAD → ∃ packet rng',
        buildSphinxOnion P R fill x (route.map Prod.fst) payload rng = .ok (packet, rng') ∧
        SphinxPacket.fromBytes packet.bytes.val = .ok packet ∧
        Delivers P R (outcomeOf P key payload) route packet) ∧
      ∀ cover_size, COVER_PAYLOAD_MIN ≤ cover_size →
        COVER_SENTINEL.length + cover_size + COVER_TRAILER_LEN ≤ SPHINX_MAX_USER_PAYLOAD →
        ∃ packet rng', buildCoverPacket P R fill x (route.map Prod.fst) cover_size rng =
          .ok (packet, rng') ∧
        SphinxPacket.fromBytes packet.bytes.val = .ok packet ∧
        Delivers P R .Cover route packet := by
  have points : ∀ hop ∈ route, hop.1.static_pk ≠ 0 := by
    intro hop member
    obtain ⟨pk, here⟩ := accepted hop member
    exact static_pk_ne here
  have some_hop' : route.map Prod.fst ≠ [] := fun none_left => some_hop (List.map_eq_nil_iff.mp none_left)
  have few' : (route.map Prod.fst).length ≤ MAX_HOPS := by rwa [List.length_map]
  obtain ⟨key, last⟩ := finalKeyLoop_ok lawful blinds nonzero some_hop' (by
    intro hop member
    obtain ⟨entry, there, rfl⟩ := List.mem_map.mp member
    exact points entry there) one_ne_zero (x • R.basepoint)
  have key_eq : computeFinalHopSharedKey P R x (route.map Prod.fst) = .ok key := by
    unfold computeFinalHopSharedKey
    rw [require_of some_hop', ok_bind, require_of few', ok_bind, last]
  refine ⟨key, key_eq, fun payload small => ?_, fun cover_size large fits => ?_⟩
  · exact build_delivers lawful blinds fill rng nonzero some_hop few owners points routed last small
  · have width := (fill cover_size rng).1.property
    have whole : (COVER_SENTINEL ++ (fill cover_size rng).1.val ++ (computeCoverTrailer P key
        (COVER_SENTINEL ++ (fill cover_size rng).1.val)).val).length ≤ SPHINX_MAX_USER_PAYLOAD := by
      rw [List.length_append, List.length_append, width, (computeCoverTrailer _ _ _).property]
      exact fits
    obtain ⟨packet, rng', builds, wire, delivers⟩ := build_delivers lawful blinds fill
      (fill cover_size rng).2 nonzero some_hop few owners points routed last whole
    refine ⟨packet, rng', ?_, wire, ?_⟩
    · unfold buildCoverPacket
      rw [require_of large, ok_bind, require_of some_hop', ok_bind, key_eq, ok_bind]
      exact builds
    · rwa [outcomeOf, if_pos (isCover_trailer key _)] at delivers

end Group

/-! ## Toy instance -/

instance prime_seven : Fact (Nat.Prime 7) := ⟨by norm_num⟩

def toyCompress (p : ZMod 7) : Octets 32 := ⟨UInt8.ofNat p.val :: zeros 31, by simp⟩

/-- The integers modulo 7, with themselves as scalars. -/
def toyCurve : Curve (ZMod 7) (ZMod 7) where
  basepoint := 1
  compress := toyCompress
  decompress bytes :=
    let p : ZMod 7 := (bytes.val.getD 0 0).toNat
    if bytes = toyCompress p then some p else none
  fromBytesModOrderWide seed := if (seed.val.getD 0 0).toNat % 2 = 0 then 3 else 5

theorem toyCurve_lawful : toyCurve.Lawful where
  decompress_compress p := by
    have back : (((toyCurve.compress p).val.getD 0 0).toNat : ZMod 7) = p := by
      have small : p.val < 2 ^ 8 := lt_trans (ZMod.val_lt p) (by decide)
      show (((UInt8.ofNat p.val).toNat : Nat) : ZMod 7) = p
      rw [UInt8.toNat_ofNat_of_lt' small, ZMod.natCast_zmod_val]
    show (if toyCurve.compress p = toyCompress _ then some _ else none) = some p
    rw [back]
    exact if_pos rfl
  compress_zero := by
    intro byte member
    exact List.eq_of_mem_replicate (n := 32) member
  basepoint_ne := by decide

theorem toy_blinds : Blinds toyCiphers toyCurve := by
  intro shared alpha
  show (if _ then (3 : ZMod 7) else 5) ≠ 0
  split
  · decide
  · decide

def toyFill (n : Nat) (drawn : Nat) : Octets n × Nat :=
  (filled n (UInt8.ofNat drawn), drawn + 1)

def toyHop (id : UInt8) (secret : ZMod 7) : SphinxHop (ZMod 7) × ZMod 7 :=
  (⟨toyId id, secret⟩, secret)

theorem toyHop_accepted (id : UInt8) {secret : ZMod 7} (nonzero : secret ≠ 0) :
    SphinxHop.new toyCurve (toyHop id secret).1.id (toyCurve.compress secret) =
      .ok (toyHop id secret).1 := by
  unfold SphinxHop.new
  rw [toyCurve_lawful.decompress_compress]
  exact if_neg nonzero

/-- Three bytes reach the second of two hops. -/
theorem sphinx_delivers_toy : ∃ packet rng',
    buildSphinxOnion toyCiphers toyCurve toyFill 4 [(toyHop 1 2).1, (toyHop 2 3).1] [1, 2, 3] 0 =
      .ok (packet, rng') ∧
    Delivers toyCiphers toyCurve (.Deliver [1, 2, 3]) [toyHop 1 2, toyHop 2 3] packet := by
  obtain ⟨key, -, delivers, -⟩ := sphinx_delivers toyCurve_lawful toy_blinds toyFill 0
    (x := 4) (by decide) [toyHop 1 2, toyHop 2 3] (by decide) (by decide)
    (List.forall_mem_cons.mpr ⟨⟨_, toyHop_accepted 1 (by decide)⟩,
      List.forall_mem_singleton.mpr ⟨_, toyHop_accepted 2 (by decide)⟩⟩)
    (List.forall_mem_cons.mpr ⟨(mul_one _).symm, List.forall_mem_singleton.mpr (mul_one _).symm⟩)
    (List.forall_mem_singleton.mpr fun same =>
      absurd (congrArg (fun id => id.val.head?) same) (by decide))
  obtain ⟨packet, rng', builds, -, arrives⟩ := delivers [1, 2, 3] (by decide)
  exact ⟨packet, rng', builds, arrives⟩

/-- The hop in front of an all-zero id forwards nothing, although that hop is accepted; and a
payload that is the cover payload of its circuit is not delivered. -/
theorem destination_missed : toyCurve.Lawful ∧ Blinds toyCiphers toyCurve ∧
    (∀ hop ∈ [toyHop 1 2, toyHop 0 3],
      ∃ pk, SphinxHop.new toyCurve hop.1.id pk = .ok hop.1) ∧
    (∃ packet rng', buildSphinxOnion toyCiphers toyCurve toyFill 4
        [(toyHop 1 2).1, (toyHop 0 3).1] [1, 2, 3] 0 = .ok (packet, rng') ∧
      ∀ id next, peelSphinxLayer toyCiphers toyCurve (toyHop 1 2).2 packet ≠
        .ok (.Forward id next)) ∧
    ∃ payload packet rng', payload.length ≤ SPHINX_MAX_USER_PAYLOAD ∧
      buildSphinxOnion toyCiphers toyCurve toyFill 4 [(toyHop 1 2).1] payload 0 =
        .ok (packet, rng') ∧
      peelSphinxLayer toyCiphers toyCurve (toyHop 1 2).2 packet = .ok .Cover := by
  refine ⟨toyCurve_lawful, toy_blinds, List.forall_mem_cons.mpr ⟨⟨_, toyHop_accepted 1
    (by decide)⟩, List.forall_mem_singleton.mpr ⟨_, toyHop_accepted 0 (by decide)⟩⟩, ?_, ?_⟩
  · have points : ∀ hop ∈ [toyHop 1 2, toyHop 0 3], hop.1.static_pk ≠ 0 := by decide
    have few : [toyHop 1 2, toyHop 0 3].length ≤ MAX_HOPS := by decide
    have small : ([1, 2, 3] : Bytes).length ≤ SPHINX_MAX_USER_PAYLOAD := by decide
    exact marker_not_forwarded toyCurve_lawful toy_blinds toyFill 0
      (by decide : (4 : ZMod 7) ≠ 0) few (mul_one _).symm points rfl small
  · obtain ⟨key, last⟩ := finalKeyLoop_ok toyCurve_lawful toy_blinds (by decide : (4 : ZMod 7) ≠ 0)
      (List.cons_ne_nil (toyHop 1 2).1 []) (by decide) one_ne_zero (4 • toyCurve.basepoint)
    have width : (COVER_SENTINEL ++ [] ++
        (computeCoverTrailer toyCiphers key (COVER_SENTINEL ++ [])).val).length ≤
          SPHINX_MAX_USER_PAYLOAD := by
      rw [List.length_append, (computeCoverTrailer _ _ _).property]
      decide
    obtain ⟨packet, rng', builds, -, covers⟩ := build_delivers toyCurve_lawful toy_blinds toyFill 0
      (by decide : (4 : ZMod 7) ≠ 0) (List.cons_ne_nil (toyHop 1 2) []) (by decide)
      (by decide) (by decide) (by decide) last width
    rw [outcomeOf, if_pos (isCover_trailer key [])] at covers
    exact ⟨_, packet, rng', width, builds, covers⟩

end OneLink.Sphinx
