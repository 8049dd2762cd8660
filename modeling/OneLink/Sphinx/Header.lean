/-
# Sphinx.Header -- the routing header, wrapped hop by hop

Every hop sees a header of `HEADER_LEN` bytes: its own slot with the next hop's id and MAC,
and what is left for the hops behind it.  A relay takes its slot off and lets the header
run on into its keystream; the sender has put that end there before, as the filler
(`buildFiller_eq`), so each relay arrives at the very header that the next MAC was computed
over (`peelHeader_wrapStep`).

The hashes and the stream cipher are parameters, and so is the maximum of hops: the
constants of the source are the functions here at `MAX_HOPS`.
-/
import OneLink.Library.StreamHeader
import OneLink.Onion.Packet

namespace OneLink.Sphinx

set_option autoImplicit false

open Library
open Onion (Octets OnionError PROTOCOL_DOMAIN)

def SLOT_LEN : Nat := 48

def SLOT_ID_LEN : Nat := 32

def SLOT_MAC_LEN : Nat := 16

def MAX_HOPS : Nat := 5

/-- The length of the header when there are at most so many hops. -/
def headerLen (max_hops : Nat) : Nat := max_hops * SLOT_LEN

abbrev HEADER_LEN : Nat := headerLen MAX_HOPS

def PAYLOAD_LEN : Nat := 1024

def headerKeystreamLen (max_hops : Nat) : Nat := headerLen max_hops + SLOT_LEN

/-- BLAKE3 and ChaCha20. -/
structure Ciphers where
  hash : Bytes → Octets 32
  xof : Bytes → (n : Nat) → Octets n
  /-- `Hasher::new_keyed`. -/
  keyedHash : (key : Octets 32) → Bytes → Octets 32
  /-- `blake3::derive_key`. -/
  deriveKey : (context : String) → (material : Octets 32) → Octets 32
  /-- The keystream under the all-zero nonce, byte by byte. -/
  chacha20 : (key : Octets 32) → Nat → UInt8

variable (P : Ciphers) (max_hops : Nat)

/-! ## Primitives -/

structure HopKeys where
  header_stream : Octets 32
  payload_stream : Octets 32
  mac_key : Octets 32
  blinding_seed : Octets 64

def subkeyInput (shared alpha : Octets 32) (tag : String) : Bytes :=
  PROTOCOL_DOMAIN ++ utf8 "-" ++ utf8 tag ++ shared.val ++ alpha.val

def deriveHopKeys (shared alpha : Octets 32) : HopKeys where
  header_stream := P.hash (subkeyInput shared alpha "sphinx-header-stream-v1")
  payload_stream := P.hash (subkeyInput shared alpha "sphinx-payload-stream-v1")
  mac_key := P.hash (subkeyInput shared alpha "sphinx-mac-v1")
  blinding_seed := P.xof (subkeyInput shared alpha "sphinx-blind-v2") 64

def headerMac (key : Octets 32) (header : Bytes) : Octets SLOT_MAC_LEN :=
  ⟨(P.keyedHash key header).val.take SLOT_MAC_LEN,
    List.length_take_of_le (by rw [(P.keyedHash key header).property]; decide)⟩

def verifyHeaderMac (key : Octets 32) (header : Bytes) (expected : Octets SLOT_MAC_LEN) : Bool :=
  headerMac P key header = expected

def chacha20XorInPlace (key : Octets 32) (buf : Bytes) : Bytes := xorFrom (P.chacha20 key) 0 buf

/-- `chacha20_keystream_into` a buffer of zeros. -/
def chacha20Keystream (key : Octets 32) (len : Nat) : Bytes := xorFrom (P.chacha20 key) 0 (zeros len)

def xorInPlace (buf keystream : Bytes) : Bytes := List.zipWith (· ^^^ ·) buf keystream

/-- The loop of `build_filler`: the filler is allocated at its final length, and each key
adds the end of its keystream to one more slot of it. -/
def fillerLoop : (streams : List (Octets 32)) → (i : Nat) → (filler : Bytes) → Bytes
  | [], _, filler => filler
  | key :: streams, i, filler =>
    let new_len := (i + 1) * SLOT_LEN
    let keystream := chacha20Keystream P key (headerKeystreamLen max_hops)
    let tail_start := headerKeystreamLen max_hops - new_len
    fillerLoop streams (i + 1)
      (xorInPlace (filler.take new_len) (slice keystream tail_start (tail_start + new_len)) ++
        filler.drop new_len)

def buildFiller (relay_header_streams : List (Octets 32)) : Bytes :=
  fillerLoop P max_hops relay_header_streams 0 (zeros (relay_header_streams.length * SLOT_LEN))

/-! ## Building and peeling -/

def DESTINATION_MARKER : Octets SLOT_ID_LEN := ⟨zeros SLOT_ID_LEN, length_zeros _⟩

structure BuiltHeader where
  header : Bytes
  mac : Octets SLOT_MAC_LEN

/-- One pass of the loop over the relays. -/
def wrapStep (relay : HopKeys × Octets SLOT_ID_LEN) (below : BuiltHeader) : BuiltHeader :=
  let pre := (relay.2.val ++ below.mac.val) ++ below.header.take (headerLen max_hops - SLOT_LEN)
  let header := chacha20XorInPlace P relay.1.header_stream pre
  ⟨header, headerMac P relay.1.mac_key header⟩

/-- The destination's header: only what stands before the filler is encrypted. -/
def destinationHeader (dest_keys : HopKeys) (random_pad filler : Bytes) : BuiltHeader :=
  let header := zeros SLOT_LEN ++ random_pad ++ filler
  let visible_end := headerLen max_hops - filler.length
  let header := chacha20XorInPlace P dest_keys.header_stream (header.take visible_end) ++
    header.drop visible_end
  ⟨header, headerMac P dest_keys.mac_key header⟩

def buildHeader (hop_keys : List HopKeys) (next_hop_ids : List (Octets SLOT_ID_LEN))
    (random_pad : Bytes) : Except OnionError BuiltHeader := do
  require (hop_keys ≠ []) .EmptyCircuit
  require (hop_keys.length ≤ max_hops) (.TooManyHops hop_keys.length max_hops)
  require (hop_keys.length = next_hop_ids.length)
    (.InvalidParameter "hop_keys and next_hop_ids lengths differ")
  let n_relays := hop_keys.length - 1
  let pad_len := headerLen max_hops - SLOT_LEN - n_relays * SLOT_LEN
  require (random_pad.length = pad_len) (.BadFrameSize random_pad.length pad_len)
  let filler := buildFiller P max_hops ((hop_keys.take n_relays).map (·.header_stream))
  match hop_keys.getLast? with
  | none => throw .EmptyCircuit
  | some dest_keys =>
    return ((hop_keys.zip next_hop_ids).take n_relays).reverse.foldl
      (fun below relay => wrapStep P max_hops relay below)
      (destinationHeader P max_hops dest_keys random_pad filler)

inductive HeaderPeelOutcome where
  | Forward (next_hop_id : Octets SLOT_ID_LEN) (next_header : Bytes) (next_mac : Octets SLOT_MAC_LEN)
  | Deliver

/-- `copy_from_slice` into `n` bytes, for a slice of that length; else the code panics. -/
def fit (n : Nat) (bytes : Bytes) : Octets n :=
  ⟨(bytes ++ zeros n).take n, List.length_take_of_le (by simp)⟩

/-- `decrypted[..SLOT_ID_LEN]`. -/
def slotId (decrypted : Bytes) : Octets SLOT_ID_LEN := fit SLOT_ID_LEN (decrypted.take SLOT_ID_LEN)

/-- `decrypted[SLOT_ID_LEN..SLOT_LEN]`. -/
def slotMac (decrypted : Bytes) : Octets SLOT_MAC_LEN :=
  fit SLOT_MAC_LEN (slice decrypted SLOT_ID_LEN SLOT_LEN)

def peelHeader (keys : HopKeys) (received_header : Bytes) (received_mac : Octets SLOT_MAC_LEN) :
    Except Unit HeaderPeelOutcome :=
  if received_header.length = headerLen max_hops then
    if verifyHeaderMac P keys.mac_key received_header received_mac then
      let keystream := chacha20Keystream P keys.header_stream (headerKeystreamLen max_hops)
      let decrypted := xorInPlace received_header keystream
      if slotId decrypted = DESTINATION_MARKER then .ok .Deliver
      else .ok (.Forward (slotId decrypted)
        (decrypted.drop SLOT_LEN ++
          slice keystream (headerLen max_hops) (headerLen max_hops + SLOT_LEN))
        (slotMac decrypted))
    else .error ()
  else .error ()

theorem fit_val {n : Nat} {bytes : Bytes} (width : bytes.length = n) : (fit n bytes).val = bytes :=
  List.take_left' width

variable {P max_hops}

/-! ## The filler -/

theorem fillerLoop_eq (streams : List (Octets 32)) (i : Nat) (filler : Bytes)
    (width : filler.length = i * SLOT_LEN) (few : i + streams.length ≤ max_hops) :
    fillerLoop P max_hops streams i (filler ++ zeros (streams.length * SLOT_LEN)) =
      streams.foldl (fun filler key => grow (P.chacha20 key) (headerLen max_hops) SLOT_LEN filler)
        filler := by
  induction streams generalizing i filler with
  | nil => simp [fillerLoop, zeros]
  | cons key streams ih =>
    rw [List.length_cons] at few
    have space : zeros ((streams.length + 1) * SLOT_LEN) =
        zeros SLOT_LEN ++ zeros (streams.length * SLOT_LEN) := by
      rw [zeros, zeros, zeros, List.replicate_append_replicate, Nat.add_mul, Nat.one_mul,
        Nat.add_comm]
    have front : (filler ++ zeros SLOT_LEN).length = (i + 1) * SLOT_LEN := by
      rw [List.length_append, length_zeros, width, Nat.add_mul, Nat.one_mul]
    have start : headerKeystreamLen max_hops - (i + 1) * SLOT_LEN =
        headerLen max_hops - filler.length := by
      rw [width, headerKeystreamLen, Nat.add_mul, Nat.one_mul, Nat.add_sub_add_right]
    have inside : headerKeystreamLen max_hops - (i + 1) * SLOT_LEN + (i + 1) * SLOT_LEN ≤
        headerKeystreamLen max_hops := by
      rw [headerKeystreamLen, headerLen]
      have := Nat.mul_le_mul_right SLOT_LEN (show i + 1 ≤ max_hops by omega)
      omega
    rw [fillerLoop, List.length_cons, space, ← List.append_assoc, List.take_left' front,
      List.drop_left' front, chacha20Keystream, slice_stream _ _ inside, Nat.add_sub_cancel_left,
      xorInPlace, zipWith_xor_stream _ _ _ (Nat.le_of_eq front), start]
    exact ih _ _ (by rw [length_xorFrom, front]) (by omega)

theorem buildFiller_eq {streams : List (Octets 32)} (few : streams.length ≤ max_hops) :
    buildFiller P max_hops streams =
      streams.foldl (fun filler key => grow (P.chacha20 key) (headerLen max_hops) SLOT_LEN filler) [] :=
  fillerLoop_eq streams 0 [] (Nat.zero_mul _).symm (by omega)

/-! ## One hop -/

theorem peelHeader_of_unwrap {keys : HopKeys} {header next : Bytes} {id : Octets SLOT_ID_LEN}
    {mac : Octets SLOT_MAC_LEN} (full : header.length = headerLen max_hops)
    (unwraps : unwrap (P.chacha20 keys.header_stream) (headerLen max_hops) SLOT_LEN header =
      (id.val ++ mac.val, next)) :
    peelHeader P max_hops keys header (headerMac P keys.mac_key header) =
      if id = DESTINATION_MARKER then .ok .Deliver else .ok (.Forward id next mac) := by
  obtain ⟨slot, rest⟩ := Prod.mk.inj unwraps
  have decrypted : xorInPlace header
      (chacha20Keystream P keys.header_stream (headerKeystreamLen max_hops)) =
        xorFrom (P.chacha20 keys.header_stream) 0 header :=
    zipWith_xor_stream _ _ _ (by rw [full, headerKeystreamLen]; omega)
  have front : (xorFrom (P.chacha20 keys.header_stream) 0 header).take SLOT_ID_LEN = id.val := by
    rw [← @List.take_left' _ id.val mac.val _ id.property, ← slot, List.take_take]
    rfl
  have back : slice (xorFrom (P.chacha20 keys.header_stream) 0 header) SLOT_ID_LEN SLOT_LEN =
      mac.val := by
    rw [slice, slot, List.drop_left' id.property]
  have sameId : slotId (xorFrom (P.chacha20 keys.header_stream) 0 header) = id :=
    Subtype.ext (by rw [slotId, front, fit_val id.property])
  have sameMac : slotMac (xorFrom (P.chacha20 keys.header_stream) 0 header) = mac :=
    Subtype.ext (by rw [slotMac, back, fit_val mac.property])
  have tail : slice (chacha20Keystream P keys.header_stream (headerKeystreamLen max_hops))
      (headerLen max_hops) (headerLen max_hops + SLOT_LEN) =
        xorFrom (P.chacha20 keys.header_stream) (headerLen max_hops) (zeros SLOT_LEN) := by
    have part := slice_stream (P.chacha20 keys.header_stream) (headerLen max_hops)
      (Nat.le_refl (headerLen max_hops + SLOT_LEN))
    rwa [Nat.add_sub_cancel_left] at part
  have verified : verifyHeaderMac P keys.mac_key header (headerMac P keys.mac_key header) = true :=
    decide_eq_true rfl
  unfold peelHeader
  rw [if_pos full, if_pos verified]
  simp only [decrypted, sameId, sameMac, tail, rest]

theorem wrapStep_header (relay : HopKeys × Octets SLOT_ID_LEN) (below : BuiltHeader) :
    (wrapStep P max_hops relay below).header = wrap (P.chacha20 relay.1.header_stream)
      (headerLen max_hops) (relay.2.val ++ below.mac.val) below.header := by
  rw [wrap, List.length_append, relay.2.property, below.mac.property]
  rfl

/-- A relay gets back what was wrapped for it, if that ends in the relay's stream. -/
theorem peelHeader_wrapStep {relay : HopKeys × Octets SLOT_ID_LEN} {below : BuiltHeader}
    {filler : Bytes} (full : below.header.length = headerLen max_hops)
    (room : filler.length + SLOT_LEN ≤ headerLen max_hops)
    (ends : grow (P.chacha20 relay.1.header_stream) (headerLen max_hops) SLOT_LEN filler <:+
      below.header) :
    peelHeader P max_hops relay.1 (wrapStep P max_hops relay below).header
        (wrapStep P max_hops relay below).mac =
      if relay.2 = DESTINATION_MARKER then .ok .Deliver
      else .ok (.Forward relay.2 below.header below.mac) := by
  have width : (relay.2.val ++ below.mac.val).length = SLOT_LEN := by
    rw [List.length_append, relay.2.property, below.mac.property]
    rfl
  refine peelHeader_of_unwrap ?_ ?_
  · rw [wrapStep_header]
    exact length_wrap full (by rw [width]; omega)
  · rw [wrapStep_header]
    exact unwrap_wrap full width room ends

/-- The header of a suffix of the relays, around the destination's. -/
def wrapAll (P : Ciphers) (max_hops : Nat) (relays : List (HopKeys × Octets SLOT_ID_LEN))
    (dest : BuiltHeader) : BuiltHeader :=
  relays.foldr (wrapStep P max_hops) dest

/-- The filler behind these relays, in front of which `filler` had been grown. -/
def fillerBehind (P : Ciphers) (max_hops : Nat) (relays : List (HopKeys × Octets SLOT_ID_LEN))
    (filler : Bytes) : Bytes :=
  relays.foldl (fun filler relay =>
    grow (P.chacha20 relay.1.header_stream) (headerLen max_hops) SLOT_LEN filler) filler

theorem length_fillerBehind (relays : List (HopKeys × Octets SLOT_ID_LEN)) (filler : Bytes) :
    (fillerBehind P max_hops relays filler).length = filler.length + relays.length * SLOT_LEN := by
  induction relays generalizing filler with
  | nil => rw [List.length_nil, Nat.zero_mul]; rfl
  | cons relay relays ih =>
    rw [fillerBehind, List.foldl_cons]
    exact (ih _).trans (by rw [length_grow, List.length_cons, Nat.add_mul, Nat.one_mul]; omega)

/-- **If the destination's header ends in the filler of the relays, every header on the way
ends in the filler up to there.** -/
theorem suffix_wrapAll {relays : List (HopKeys × Octets SLOT_ID_LEN)} {dest : BuiltHeader}
    {filler : Bytes} (full : dest.header.length = headerLen max_hops)
    (room : filler.length + relays.length * SLOT_LEN ≤ headerLen max_hops)
    (ends : fillerBehind P max_hops relays filler <:+ dest.header) :
    (wrapAll P max_hops relays dest).header.length = headerLen max_hops ∧
      filler <:+ (wrapAll P max_hops relays dest).header := by
  induction relays generalizing filler with
  | nil => exact ⟨full, ends⟩
  | cons relay relays ih =>
    rw [List.length_cons, Nat.add_mul, Nat.one_mul] at room
    obtain ⟨fullBelow, endsBelow⟩ := ih (by rw [length_grow]; omega) ends
    have width : (relay.2.val ++ (wrapAll P max_hops relays dest).mac.val).length = SLOT_LEN := by
      rw [List.length_append, relay.2.property, (wrapAll P max_hops relays dest).mac.property]
      rfl
    show (wrapStep P max_hops relay (wrapAll P max_hops relays dest)).header.length = _ ∧
      _ <:+ (wrapStep P max_hops relay (wrapAll P max_hops relays dest)).header
    rw [wrapStep_header]
    exact ⟨length_wrap fullBelow (by rw [width]; omega),
      suffix_wrap fullBelow width (by omega) endsBelow⟩

theorem peelHeader_wrapAll {relay : HopKeys × Octets SLOT_ID_LEN}
    {relays : List (HopKeys × Octets SLOT_ID_LEN)} {dest : BuiltHeader} {filler : Bytes}
    (full : dest.header.length = headerLen max_hops)
    (room : filler.length + (relays.length + 1) * SLOT_LEN ≤ headerLen max_hops)
    (ends : fillerBehind P max_hops (relay :: relays) filler <:+ dest.header) :
    peelHeader P max_hops relay.1 (wrapAll P max_hops (relay :: relays) dest).header
        (wrapAll P max_hops (relay :: relays) dest).mac =
      if relay.2 = DESTINATION_MARKER then .ok .Deliver
      else .ok (.Forward relay.2 (wrapAll P max_hops relays dest).header
        (wrapAll P max_hops relays dest).mac) := by
  rw [Nat.add_mul, Nat.one_mul] at room
  have grown : (grow (P.chacha20 relay.1.header_stream) (headerLen max_hops) SLOT_LEN filler).length +
      relays.length * SLOT_LEN ≤ headerLen max_hops := by
    rw [length_grow]
    omega
  obtain ⟨fullBelow, endsBelow⟩ := suffix_wrapAll full grown ends
  exact peelHeader_wrapStep fullBelow (by omega) endsBelow

/-! ## The destination -/

theorem destinationHeader_spec (dest_keys : HopKeys) {random_pad filler : Bytes}
    (width : SLOT_LEN + random_pad.length + filler.length = headerLen max_hops) :
    (destinationHeader P max_hops dest_keys random_pad filler).header.length =
        headerLen max_hops ∧
      filler <:+ (destinationHeader P max_hops dest_keys random_pad filler).header ∧
      peelHeader P max_hops dest_keys (destinationHeader P max_hops dest_keys random_pad filler).header
        (destinationHeader P max_hops dest_keys random_pad filler).mac = .ok .Deliver := by
  have visible : (zeros SLOT_LEN ++ random_pad).length = headerLen max_hops - filler.length := by
    rw [List.length_append, length_zeros]
    omega
  have header : (destinationHeader P max_hops dest_keys random_pad filler).header =
      xorFrom (P.chacha20 dest_keys.header_stream) 0 (zeros SLOT_LEN ++ random_pad) ++ filler := by
    rw [destinationHeader]
    simp only [List.take_left' visible, List.drop_left' visible]
    rfl
  have full : (destinationHeader P max_hops dest_keys random_pad filler).header.length =
      headerLen max_hops := by
    rw [header, List.length_append, length_xorFrom, visible]
    omega
  refine ⟨full, ⟨_, header.symm⟩, ?_⟩
  -- the destination's own slot is all zeros, which is the marker
  have slot : (xorFrom (P.chacha20 dest_keys.header_stream) 0
      (destinationHeader P max_hops dest_keys random_pad filler).header).take SLOT_LEN = zeros SLOT_LEN := by
    rw [header, ← xorFrom_take, List.take_append_of_le_length (by
      rw [length_xorFrom, List.length_append, length_zeros]; omega), ← xorFrom_take,
      xorFrom_xorFrom, List.take_left' (length_zeros _)]
  have peels := @peelHeader_of_unwrap P max_hops dest_keys _ _ DESTINATION_MARKER
    ⟨zeros SLOT_MAC_LEN, length_zeros _⟩ full (by rw [unwrap, slot]; rfl)
  rwa [if_pos rfl] at peels

/-! ## The whole way -/

/-- All hops but the last, each with the id it forwards to. -/
def relaysFor (hop_keys : List HopKeys) (next_hop_ids : List (Octets SLOT_ID_LEN)) :
    List (HopKeys × Octets SLOT_ID_LEN) :=
  (hop_keys.zip next_hop_ids).take (hop_keys.length - 1)

section Route

variable {hop_keys : List HopKeys} {next_hop_ids : List (Octets SLOT_ID_LEN)}
  (sized : hop_keys.length = next_hop_ids.length)

include sized

theorem length_relaysFor : (relaysFor hop_keys next_hop_ids).length = hop_keys.length - 1 := by
  rw [relaysFor, List.length_take, List.length_zip]
  omega

theorem relaysFor_keys :
    (relaysFor hop_keys next_hop_ids).map Prod.fst = hop_keys.take (hop_keys.length - 1) := by
  rw [relaysFor, List.map_take, List.map_fst_zip (Nat.le_of_eq sized)]

theorem buildFiller_relays (few : hop_keys.length ≤ max_hops) :
    buildFiller P max_hops ((hop_keys.take (hop_keys.length - 1)).map (·.header_stream)) =
      fillerBehind P max_hops (relaysFor hop_keys next_hop_ids) [] := by
  rw [buildFiller_eq (by rw [List.length_map, List.length_take]; omega), ← relaysFor_keys sized,
    fillerBehind, List.map_map, List.foldl_map]
  rfl

/-- The header is built around the destination's, which ends in the filler of the relays. -/
theorem buildHeader_eq {random_pad : Bytes} {dest_keys : HopKeys}
    (isLast : hop_keys.getLast? = some dest_keys) (few : hop_keys.length ≤ max_hops)
    (padded : random_pad.length =
      headerLen max_hops - SLOT_LEN - (hop_keys.length - 1) * SLOT_LEN) :
    buildHeader P max_hops hop_keys next_hop_ids random_pad =
      .ok (wrapAll P max_hops (relaysFor hop_keys next_hop_ids)
        (destinationHeader P max_hops dest_keys random_pad
          (fillerBehind P max_hops (relaysFor hop_keys next_hop_ids) []))) := by
  have some_keys : hop_keys ≠ [] := by
    rintro rfl
    cases isLast
  unfold buildHeader
  rw [require_of some_keys, ok_bind, require_of few, ok_bind, require_of sized, ok_bind]
  simp only
  rw [require_of padded, ok_bind, buildFiller_relays sized few, isLast]
  show Except.ok (List.foldl _ _ _) = _
  rw [List.foldl_reverse]
  rfl

end Route

/-- Peel under one key after the other: what a hop forwards is what the next one receives. -/
def peelAlong (P : Ciphers) (max_hops : Nat) :
    List HopKeys → Bytes → Octets SLOT_MAC_LEN → List (Except Unit HeaderPeelOutcome)
  | [], _, _ => []
  | keys :: rest, header, mac =>
    match peelHeader P max_hops keys header mac with
    | .ok (.Forward id next next_mac) =>
      .ok (.Forward id next next_mac) :: peelAlong P max_hops rest next next_mac
    | final => [final]

/-- What the loop of `build_header` holds for hop `i`: the header after the passes for the
relays from `i` on, with its MAC. -/
def builtFor (P : Ciphers) (max_hops : Nat) (hop_keys : List HopKeys)
    (next_hop_ids : List (Octets SLOT_ID_LEN)) (random_pad : Bytes) (dest_keys : HopKeys)
    (i : Nat) : BuiltHeader :=
  ((relaysFor hop_keys next_hop_ids).drop i).reverse.foldl
    (fun below relay => wrapStep P max_hops relay below)
    (destinationHeader P max_hops dest_keys random_pad (buildFiller P max_hops
      ((hop_keys.take (hop_keys.length - 1)).map (·.header_stream))))

/-- Every relay on the way forwards the header of those behind it, down to the destination:
an induction along the relays, whose filler has been grown under those in front of them. -/
theorem peelAlong_wrapAll {relays : List (HopKeys × Octets SLOT_ID_LEN)} {dest : BuiltHeader}
    {dest_keys : HopKeys} {filler : Bytes} (full : dest.header.length = headerLen max_hops)
    (delivers : peelHeader P max_hops dest_keys dest.header dest.mac = .ok .Deliver)
    (routed : ∀ relay ∈ relays, relay.2 ≠ DESTINATION_MARKER)
    (room : filler.length + relays.length * SLOT_LEN ≤ headerLen max_hops)
    (ends : fillerBehind P max_hops relays filler <:+ dest.header)
    {peels : List (Except Unit HeaderPeelOutcome)}
    (ran : peelAlong P max_hops (relays.map Prod.fst ++ [dest_keys])
      (wrapAll P max_hops relays dest).header (wrapAll P max_hops relays dest).mac = peels) :
    (∀ i relay, relays[i]? = some relay →
      (wrapAll P max_hops (relays.drop (i + 1)) dest).header.length = headerLen max_hops ∧
      peels[i]? = some (.ok (.Forward relay.2 (wrapAll P max_hops (relays.drop (i + 1)) dest).header
        (wrapAll P max_hops (relays.drop (i + 1)) dest).mac))) ∧
    peels[relays.length]? = some (.ok .Deliver) := by
  subst ran
  induction relays generalizing filler with
  | nil =>
    have alone : peelAlong P max_hops [dest_keys] dest.header dest.mac = [.ok .Deliver] := by
      rw [peelAlong, delivers]
    refine ⟨fun i relay here => absurd here (by simp), ?_⟩
    rw [List.map_nil, List.nil_append, wrapAll, List.foldr_nil, alone]
    rfl
  | cons relay relays ih =>
    rw [List.length_cons, Nat.add_mul, Nat.one_mul] at room
    have grown : (grow (P.chacha20 relay.1.header_stream) (headerLen max_hops) SLOT_LEN
        filler).length + relays.length * SLOT_LEN ≤ headerLen max_hops := by
      rw [length_grow]
      omega
    obtain ⟨fullBelow, -⟩ := suffix_wrapAll full grown ends
    obtain ⟨forwards, last⟩ := ih (fun other member => routed other (List.mem_cons_of_mem _ member))
      grown ends
    have peeled := peelHeader_wrapAll full (by rw [Nat.add_mul, Nat.one_mul]; omega) ends
    rw [if_neg (routed relay List.mem_cons_self)] at peeled
    have first : peelAlong P max_hops ((relay :: relays).map Prod.fst ++ [dest_keys])
        (wrapAll P max_hops (relay :: relays) dest).header
        (wrapAll P max_hops (relay :: relays) dest).mac =
          .ok (.Forward relay.2 (wrapAll P max_hops relays dest).header
            (wrapAll P max_hops relays dest).mac) ::
          peelAlong P max_hops (relays.map Prod.fst ++ [dest_keys])
            (wrapAll P max_hops relays dest).header (wrapAll P max_hops relays dest).mac := by
      rw [List.map_cons, List.cons_append, peelAlong, peeled]
    rw [first]
    refine ⟨fun i other here => ?_, last⟩
    cases i with
    | zero =>
      cases here
      exact ⟨fullBelow, rfl⟩
    | succ i => exact forwards i other here

/-- **The filler is right, for any maximum of hops.**  Under the keys in order, every relay
verifies the MAC and forwards to its id the very header that was computed for the next hop;
the last hop delivers. -/
theorem filler_right (P : Ciphers) (max_hops : Nat) (hop_keys : List HopKeys)
    (next_hop_ids : List (Octets SLOT_ID_LEN)) (random_pad : Bytes) {dest_keys : HopKeys}
    (isLast : hop_keys.getLast? = some dest_keys) (few : hop_keys.length ≤ max_hops)
    (sized : hop_keys.length = next_hop_ids.length)
    (routed : ∀ id ∈ next_hop_ids.take (hop_keys.length - 1), id ≠ DESTINATION_MARKER)
    (padded : random_pad.length =
      headerLen max_hops - SLOT_LEN - (hop_keys.length - 1) * SLOT_LEN) :
    ∃ built, buildHeader P max_hops hop_keys next_hop_ids random_pad = .ok built ∧
      (∀ i id, i + 1 < hop_keys.length → next_hop_ids[i]? = some id →
        let next := builtFor P max_hops hop_keys next_hop_ids random_pad dest_keys (i + 1)
        next.header.length = headerLen max_hops ∧
        (peelAlong P max_hops hop_keys built.header built.mac)[i]? =
          some (.ok (.Forward id next.header next.mac))) ∧
      (peelAlong P max_hops hop_keys built.header built.mac)[hop_keys.length - 1]? =
        some (.ok .Deliver) := by
  have some_keys : hop_keys ≠ [] := by
    rintro rfl
    cases isLast
  have some_length := List.length_pos_iff.mpr some_keys
  have behind := @length_fillerBehind P max_hops (relaysFor hop_keys next_hop_ids) []
  rw [length_relaysFor sized, List.length_nil, Nat.zero_add] at behind
  have whole : SLOT_LEN + (hop_keys.length - 1) * SLOT_LEN ≤ headerLen max_hops := by
    have most := Nat.mul_le_mul_right SLOT_LEN few
    rwa [show hop_keys.length = hop_keys.length - 1 + 1 by omega, Nat.succ_mul, Nat.add_comm]
      at most
  obtain ⟨full, ends, delivers⟩ := destinationHeader_spec (P := P) dest_keys
    (show SLOT_LEN + random_pad.length + _ = headerLen max_hops by rw [behind, padded]; omega)
  have keys : (relaysFor hop_keys next_hop_ids).map Prod.fst ++ [dest_keys] = hop_keys := by
    rw [relaysFor_keys sized, ← List.dropLast_eq_take]
    obtain ⟨front, rfl⟩ := List.getLast?_eq_some_iff.mp isLast
    rw [List.dropLast_concat]
  have ids : ∀ relay ∈ relaysFor hop_keys next_hop_ids, relay.2 ≠ DESTINATION_MARKER := by
    intro relay member
    refine routed relay.2 ?_
    rw [← List.map_snd_zip (Nat.le_of_eq sized.symm), ← List.map_take]
    exact List.mem_map_of_mem member
  have room : ([] : Bytes).length + (relaysFor hop_keys next_hop_ids).length * SLOT_LEN ≤
      headerLen max_hops := by
    rw [length_relaysFor sized, List.length_nil]
    omega
  obtain ⟨forwards, last⟩ := peelAlong_wrapAll full delivers ids room ends rfl
  rw [keys, length_relaysFor sized] at last
  refine ⟨_, buildHeader_eq sized isLast few padded, fun i id inside here => ?_, last⟩
  have relay : (relaysFor hop_keys next_hop_ids)[i]? = some (hop_keys[i], id) := by
    rw [relaysFor, List.getElem?_take_of_lt (by omega), List.getElem?_zip_eq_some]
    exact ⟨List.getElem?_eq_getElem _, here⟩
  have header : builtFor P max_hops hop_keys next_hop_ids random_pad dest_keys (i + 1) =
      wrapAll P max_hops ((relaysFor hop_keys next_hop_ids).drop (i + 1))
        (destinationHeader P max_hops dest_keys random_pad
          (fillerBehind P max_hops (relaysFor hop_keys next_hop_ids) [])) := by
    rw [builtFor, List.foldl_reverse, buildFiller_relays sized few]
    rfl
  obtain ⟨sizedNext, forwarded⟩ := forwards i _ relay
  rw [keys] at forwarded
  simp only [header]
  exact ⟨sizedNext, forwarded⟩

/-! ## Toy instance -/

def toyCiphers : Ciphers where
  hash input := filled 32 (UInt8.ofNat input.length)
  xof input n := filled n (UInt8.ofNat input.length)
  keyedHash key input :=
    filled 32 (key.val.getD 0 0 + UInt8.ofNat input.length)
  deriveKey context material := ⟨material.val.map (· + UInt8.ofNat context.length), by
    rw [List.length_map, material.property]⟩
  chacha20 key position := key.val.getD 0 0 + UInt8.ofNat position

def toyId (b : UInt8) : Octets SLOT_ID_LEN := filled SLOT_ID_LEN b

def toyKeys (b : UInt8) : HopKeys where
  header_stream := filled 32 b
  payload_stream := filled 32 b
  mac_key := filled 32 b
  blinding_seed := filled 64 b

/-- Two hops, with room for no more. -/
theorem filler_right_toy : ∃ built,
    buildHeader toyCiphers 2 [toyKeys 1, toyKeys 2] [toyId 3, DESTINATION_MARKER] [] = .ok built ∧
    (peelAlong toyCiphers 2 [toyKeys 1, toyKeys 2] built.header built.mac)[1]? =
      some (.ok .Deliver) := by
  obtain ⟨built, builds, -, last⟩ := filler_right toyCiphers 2 [toyKeys 1, toyKeys 2]
    [toyId 3, DESTINATION_MARKER] [] rfl (by decide) rfl (by decide) (by decide)
  exact ⟨built, builds, last⟩

end OneLink.Sphinx
