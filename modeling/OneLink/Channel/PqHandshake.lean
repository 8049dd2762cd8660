/-
# Channel.PqHandshake -- the two flights of the post-quantum handshake

HELLO offers one to eight suites, REPLY selects one; both carry two public keys,
a nonce and the KEM's public key or ciphertext behind a magic and a version, and
end in a signature over all bytes in front of it.  Encoder and parser each make
their own checks.  They meet exactly (`parsePqHello_eq_ok`, `parsePqReply_eq_ok`):
a parser returns some fields for the bytes that the encoder writes for them, with
a signature of 64 bytes behind, and for no other bytes.
-/
import Mathlib.Data.List.Dedup
import Mathlib.Data.List.Sort
import OneLink.Library.ByteReader
import OneLink.Library.Checked

namespace OneLink.Channel.PqHandshake

set_option autoImplicit false

open Library

/-! ## The flights -/

inductive HandshakeError where
  | valueError (text : String)
  | runtimeError (text : String)
deriving DecidableEq, Repr

/-- `PQ_HANDSHAKE_MAGIC`. -/
def handshakeMagic : Bytes := ascii "OLPQ"

/-- `PQ_HANDSHAKE_VERSION`. -/
def handshakeVersion : UInt8 := 3

/-- `PQ_MAX_OFFERED_SUITES`. -/
def maxOfferedSuites : Nat := 8

/-- `NONCE_LEN`. -/
def nonceLen : Nat := 16

/-- `PQ_KEM_PUBLIC_KEY_LEN`. -/
def kemPublicKeyLen : Nat := 1216

/-- `PQ_KEM_CIPHERTEXT_LEN`. -/
def kemCiphertextLen : Nat := 1120

/-- `_PQHello`. -/
structure PQHello where
  offeredSuites : List Int
  initiatorEd : Bytes
  initiatorX25519 : Bytes
  nonce : Bytes
  kemPublicKey : Bytes
  signature : Bytes
  unsigned : Bytes
deriving DecidableEq, Repr

/-- `_PQReply`. -/
structure PQReply where
  selectedSuite : Int
  helloHash : Bytes
  responderEd : Bytes
  responderX25519 : Bytes
  nonce : Bytes
  kemCiphertext : Bytes
  signature : Bytes
  unsigned : Bytes
deriving DecidableEq, Repr

/-- `tuple(sorted(set(suites)))`. -/
def sortedSet (suites : List Int) : List Int := suites.dedup.insertionSort (· ≤ ·)

/-- `struct.pack(">H", suite)`, for a suite in range. -/
def packSuite (suite : Int) : Bytes := beBytes 2 suite.toNat

/-- `struct.unpack(">H", bytes)[0]`. -/
def unpackSuite (bytes : Bytes) : Int := beValue bytes

/-- `_encode_pq_hello_unsigned`. -/
def encodePqHelloUnsigned (offeredSuites : List Int)
    (initiatorEd initiatorX25519 nonce kemPublicKey : Bytes) : Except HandshakeError Bytes := do
  require (¬ (offeredSuites = [] ∨ maxOfferedSuites < offeredSuites.length))
    (.valueError "PQ HELLO must offer between 1 and 8 suites")
  require (offeredSuites = sortedSet offeredSuites)
    (.valueError "PQ HELLO suites must be unique and canonically sorted")
  require (∀ suite ∈ offeredSuites, 0 < suite ∧ suite ≤ 0xFFFF)
    (.valueError "PQ HELLO suite identifiers must be non-zero u16 values")
  require (initiatorEd.length = 32 ∧ initiatorX25519.length = 32)
    (.valueError "PQ HELLO identity and X25519 public keys must be 32 bytes")
  require (nonce.length = nonceLen) (.valueError s!"PQ HELLO nonce must be {nonceLen} bytes")
  require (kemPublicKey.length = kemPublicKeyLen)
    (.valueError s!"PQ HELLO ML-KEM hybrid public key must be {kemPublicKeyLen} bytes")
  let suiteBytes := (offeredSuites.map packSuite).flatten
  .ok (handshakeMagic ++ [handshakeVersion, UInt8.ofNat offeredSuites.length] ++ suiteBytes ++
    initiatorEd ++ initiatorX25519 ++ nonce ++ kemPublicKey)

/-- The suites offered in a frame, `count` of them behind the first six bytes. -/
def unpackSuites (raw : Bytes) (count : Nat) : List Int :=
  (List.range count).map fun index => unpackSuite (slice raw (6 + 2 * index) (6 + 2 * index + 2))

/-- `_parse_pq_hello`. -/
def parsePqHello (raw : Bytes) : Except HandshakeError PQHello := do
  let minimum := 4 + 1 + 1 + 2 + 32 + 32 + nonceLen + kemPublicKeyLen + 64
  require (minimum ≤ raw.length) (.runtimeError s!"bad PQ HELLO length: {raw.length}")
  require (slice raw 0 4 = handshakeMagic) (.runtimeError "bad PQ HELLO magic")
  require (raw.getD 4 0 = handshakeVersion)
    (.runtimeError s!"unsupported PQ handshake version: {raw.getD 4 0}")
  let suiteCount := (raw.getD 5 0).toNat
  require (0 < suiteCount ∧ suiteCount ≤ maxOfferedSuites)
    (.runtimeError "invalid PQ HELLO suite count")
  let expected := 4 + 1 + 1 + 2 * suiteCount + 32 + 32 + nonceLen + kemPublicKeyLen + 64
  require (raw.length = expected)
    (.runtimeError s!"bad PQ HELLO length: {raw.length} (expected {expected})")
  let offered := unpackSuites raw suiteCount
  require (¬ (offered ≠ sortedSet offered ∨ 0 ∈ offered))
    (.runtimeError "PQ HELLO suite offer is not canonical")
  let offset := 6 + 2 * suiteCount
  .ok {
    offeredSuites := offered
    initiatorEd := slice raw offset (offset + 32)
    initiatorX25519 := slice raw (offset + 32) (offset + 64)
    nonce := slice raw (offset + 64) (offset + 64 + nonceLen)
    kemPublicKey := slice raw (offset + 64 + nonceLen) (offset + 64 + nonceLen + kemPublicKeyLen)
    signature := slice raw (offset + 64 + nonceLen + kemPublicKeyLen)
      (offset + 64 + nonceLen + kemPublicKeyLen + 64)
    unsigned := raw.take (raw.length - 64) }

/-- `_encode_pq_reply_unsigned`. -/
def encodePqReplyUnsigned (selectedSuite : Int)
    (helloHash responderEd responderX25519 nonce kemCiphertext : Bytes) :
    Except HandshakeError Bytes := do
  require (0 < selectedSuite ∧ selectedSuite ≤ 0xFFFF)
    (.valueError "PQ REPLY selected suite must be a non-zero u16")
  require (helloHash.length = 32) (.valueError "PQ REPLY hello hash must be 32 bytes")
  require (responderEd.length = 32 ∧ responderX25519.length = 32)
    (.valueError "PQ REPLY identity and X25519 public keys must be 32 bytes")
  require (nonce.length = nonceLen) (.valueError s!"PQ REPLY nonce must be {nonceLen} bytes")
  require (kemCiphertext.length = kemCiphertextLen)
    (.valueError s!"PQ REPLY ML-KEM hybrid ciphertext must be {kemCiphertextLen} bytes")
  .ok (handshakeMagic ++ [handshakeVersion] ++ packSuite selectedSuite ++ helloHash ++
    responderEd ++ responderX25519 ++ nonce ++ kemCiphertext)

/-- `_parse_pq_reply`. -/
def parsePqReply (raw : Bytes) : Except HandshakeError PQReply := do
  let expected := 4 + 1 + 2 + 32 + 32 + 32 + nonceLen + kemCiphertextLen + 64
  require (raw.length = expected) (.runtimeError
    (if raw.length = 32 + 32 + nonceLen + 64 then
      "PQ REPLY signature invalid (legacy/classical reply rejected as a downgrade)"
    else s!"bad PQ REPLY length: {raw.length} (expected {expected})"))
  require (slice raw 0 4 = handshakeMagic) (.runtimeError "bad PQ REPLY magic")
  require (raw.getD 4 0 = handshakeVersion)
    (.runtimeError s!"unsupported PQ handshake version: {raw.getD 4 0}")
  let selectedSuite := unpackSuite (slice raw 5 7)
  require (selectedSuite ≠ 0) (.runtimeError "PQ REPLY selected an invalid zero suite")
  .ok {
    selectedSuite
    helloHash := slice raw 7 39
    responderEd := slice raw 39 71
    responderX25519 := slice raw 71 103
    nonce := slice raw 103 (103 + nonceLen)
    kemCiphertext := slice raw (103 + nonceLen) (103 + nonceLen + kemCiphertextLen)
    signature := slice raw (103 + nonceLen + kemCiphertextLen)
      (103 + nonceLen + kemCiphertextLen + 64)
    unsigned := raw.take (raw.length - 64) }

/-! ## Lengths -/

theorem nonceLen_eq : nonceLen = 16 := rfl

theorem kemPublicKeyLen_eq : kemPublicKeyLen = 1216 := rfl

theorem kemCiphertextLen_eq : kemCiphertextLen = 1120 := rfl

theorem maxOfferedSuites_eq : maxOfferedSuites = 8 := rfl

theorem length_handshakeMagic : handshakeMagic.length = 4 := rfl

attribute [local irreducible] nonceLen kemPublicKeyLen kemCiphertextLen maxOfferedSuites
  handshakeMagic

/-! ## Suites -/

/-- The canonical offers are the strictly increasing ones. -/
theorem eq_sortedSet_iff {suites : List Int} :
    suites = sortedSet suites ↔ suites.Pairwise (· < ·) := by
  constructor
  · intro same
    have sorted : (sortedSet suites).Pairwise (· ≤ ·) := List.pairwise_insertionSort _ _
    have distinct : (sortedSet suites).Nodup :=
      (List.perm_insertionSort _ _).nodup_iff.2 (List.nodup_dedup suites)
    rw [← same] at sorted distinct
    exact sorted.imp₂ (fun _ _ below differs => lt_of_le_of_ne below differs) distinct
  · intro increasing
    have distinct : suites.Nodup := increasing.imp fun below => ne_of_lt below
    have sorted : suites.Pairwise (· ≤ ·) := increasing.imp fun below => le_of_lt below
    rw [sortedSet, distinct.dedup, sorted.insertionSort_eq]

theorem length_packSuite (suite : Int) : (packSuite suite).length = 2 := length_beBytes 2 _

theorem unpackSuite_packSuite {suite : Int} (inRange : 0 < suite ∧ suite ≤ 0xFFFF) :
    unpackSuite (packSuite suite) = suite := by
  rw [unpackSuite, packSuite, beValue_beBytes (by omega)]
  exact Int.toNat_of_nonneg (by omega)

theorem packSuite_unpackSuite {bytes : Bytes} (two : bytes.length = 2) :
    packSuite (unpackSuite bytes) = bytes := by
  have back := beBytes_beValue bytes
  rwa [two] at back

theorem unpackSuite_range {bytes : Bytes} (two : bytes.length = 2) :
    0 ≤ unpackSuite bytes ∧ unpackSuite bytes ≤ 0xFFFF := by
  have bound := beValue_lt bytes
  rw [two] at bound
  rw [unpackSuite]
  omega

theorem length_packSuites (suites : List Int) :
    (suites.map packSuite).flatten.length = 2 * suites.length := by
  induction suites with
  | nil => rfl
  | cons suite rest ih =>
    rw [List.map_cons, List.flatten_cons, List.length_append, length_packSuite, ih, List.length_cons]
    omega

/-- The suites read out of a frame are written as the bytes they were read from. -/
theorem packSuites_unpackSuites {raw : Bytes} {count : Nat} (room : 6 + 2 * count ≤ raw.length) :
    ((unpackSuites raw count).map packSuite).flatten = slice raw 6 (6 + 2 * count) := by
  induction count with
  | zero => rw [slice, Nat.mul_zero, Nat.add_zero, List.drop_eq_nil_of_le (by simp)]; rfl
  | succ count ih =>
    have last : (slice raw (6 + 2 * count) (6 + 2 * count + 2)).length = 2 := by
      rw [length_slice (by omega)]
      omega
    have front := ih (by omega)
    rw [unpackSuites] at front ⊢
    rw [List.range_succ, List.map_append, List.map_append, List.flatten_append, front]
    simp only [List.map_singleton, List.flatten_singleton]
    rw [packSuite_unpackSuite last, slice_append_slice _ (by omega) (by omega)]
    rfl

/-- Packed suites are read out again. -/
theorem unpackSuites_packSuites {raw : Bytes} {suites : List Int}
    (inRange : ∀ suite ∈ suites, 0 < suite ∧ suite ≤ 0xFFFF)
    (packed : slice raw 6 (6 + 2 * suites.length) = (suites.map packSuite).flatten) :
    unpackSuites raw suites.length = suites := by
  refine List.ext_getElem (by simp [unpackSuites]) fun index inside inside' => ?_
  have bound : index < (suites.map packSuite).length := by rwa [List.length_map]
  have part : slice raw (6 + 2 * index) (6 + 2 * index + 2) = packSuite suites[index] := by
    have here : slice (suites.map packSuite).flatten (2 * index) (2 * index + 2) =
        (suites.map packSuite)[index] := by
      refine slice_flatten _ bound ?_ ?_
      · rw [← List.map_take, length_packSuites, List.length_take, Nat.min_eq_left (by omega)]
      · rw [List.getElem_map, length_packSuite]
    rwa [← packed, slice_slice raw (by omega), List.getElem_map] at here
  simp only [unpackSuites, List.getElem_map, List.getElem_range]
  rw [part, unpackSuite_packSuite (inRange _ (List.getElem_mem inside'))]

/-! ## HELLO -/

/-- The bytes a signature is made over, as the encoder writes them for these fields. -/
def PQHello.encode (hello : PQHello) : Except HandshakeError Bytes :=
  encodePqHelloUnsigned hello.offeredSuites hello.initiatorEd hello.initiatorX25519 hello.nonce
    hello.kemPublicKey

theorem encodePqHelloUnsigned_eq_ok {suites : List Int} {ed x25519 nonce kem unsigned : Bytes} :
    encodePqHelloUnsigned suites ed x25519 nonce kem = .ok unsigned ↔
      (suites ≠ [] ∧ suites.length ≤ maxOfferedSuites) ∧ suites.Pairwise (· < ·) ∧
      (∀ suite ∈ suites, 0 < suite ∧ suite ≤ 0xFFFF) ∧ (ed.length = 32 ∧ x25519.length = 32) ∧
      nonce.length = nonceLen ∧ kem.length = kemPublicKeyLen ∧
      unsigned = [handshakeMagic, [handshakeVersion, UInt8.ofNat suites.length],
        (suites.map packSuite).flatten, ed, x25519, nonce, kem].flatten := by
  simp only [encodePqHelloUnsigned, bind_eq_ok, require_eq_ok, exists_const, Except.ok.injEq,
    not_or, Nat.not_lt, eq_sortedSet_iff, List.flatten_cons, List.flatten_nil, List.append_nil,
    List.append_assoc, @eq_comm _ unsigned]

/-- The magic, the version and the byte behind it, read off the front of a frame. -/
theorem header_eq {raw : Bytes} (long : 6 ≤ raw.length) (magic : slice raw 0 4 = handshakeMagic)
    (version : raw.getD 4 0 = handshakeVersion) :
    handshakeMagic ++ [handshakeVersion, raw.getD 5 0] = slice raw 0 6 := by
  rw [← magic, ← version, ← slice_two (by omega), slice_append_slice _ (by omega) (by omega)]

theorem PQHello.encode_of_parse {raw : Bytes} {hello : PQHello}
    (parsed : parsePqHello raw = .ok hello) :
    hello.encode = .ok hello.unsigned ∧ hello.signature.length = 64 ∧
      raw = hello.unsigned ++ hello.signature := by
  simp only [parsePqHello, bind_eq_ok, require_eq_ok, exists_const, Except.ok.injEq, not_or,
    not_not] at parsed
  obtain ⟨long, magic, version, counted, length, ⟨canonical, nonzero⟩, rfl⟩ := parsed
  simp only [PQHello.encode]
  revert counted length canonical nonzero
  generalize suiteCount : (raw.getD 5 0).toNat = count
  intro counted length canonical nonzero
  have nonceIs := nonceLen_eq
  have kemIs := kemPublicKeyLen_eq
  have suites : (unpackSuites raw count).length = count := by simp [unpackSuites]
  have byte : UInt8.ofNat count = raw.getD 5 0 := by rw [← suiteCount, UInt8.ofNat_toNat]
  have inRange : ∀ suite ∈ unpackSuites raw count, 0 < suite ∧ suite ≤ 0xFFFF := by
    intro suite mem
    obtain ⟨index, within, rfl⟩ := List.mem_map.1 mem
    rw [List.mem_range] at within
    have two : (slice raw (6 + 2 * index) (6 + 2 * index + 2)).length = 2 := by
      rw [length_slice (by omega)]
      omega
    have range := unpackSuite_range two
    have positive : unpackSuite (slice raw (6 + 2 * index) (6 + 2 * index + 2)) ≠ 0 := fun zero =>
      nonzero (zero ▸ mem)
    omega
  have parts : ∀ start stop, stop ≤ raw.length → (slice raw start stop).length = stop - start :=
    fun start stop inside => length_slice inside
  refine ⟨encodePqHelloUnsigned_eq_ok.2 ⟨⟨?_, ?_⟩, eq_sortedSet_iff.1 canonical, inRange, ⟨?_, ?_⟩,
    ?_, ?_, ?_⟩, ?_, ?_⟩
  · intro empty
    rw [empty] at suites
    simp only [List.length_nil] at suites
    omega
  · rw [suites]
    exact counted.2
  · rw [parts _ _ (by omega)]; omega
  · rw [parts _ _ (by omega)]; omega
  · rw [parts _ _ (by omega)]; omega
  · rw [parts _ _ (by omega)]; omega
  · have front := header_eq (by omega) magic version
    simp only [List.flatten_cons, List.flatten_nil, List.append_nil]
    rw [suites, byte, ← List.append_assoc, front, packSuites_unpackSuites (by omega),
      slice_append_slice _ (by omega) (by omega), slice_append_slice _ (by omega) (by omega),
      slice_append_slice _ (by omega) (by omega), slice_append_slice _ (by omega) (by omega),
      slice_append_slice _ (by omega) (by omega), slice, List.drop_zero]
    congr 1
    omega
  · rw [parts _ _ (by omega)]; omega
  · have behind : slice raw (6 + 2 * count + 64 + nonceLen + kemPublicKeyLen)
        (6 + 2 * count + 64 + nonceLen + kemPublicKeyLen + 64) = raw.drop (raw.length - 64) := by
      rw [slice, List.take_of_length_le (by omega)]
      congr 1
      omega
    rw [behind, List.take_append_drop]

theorem PQHello.parse_of_encode {hello : PQHello} (encoded : hello.encode = .ok hello.unsigned)
    (signed : hello.signature.length = 64) :
    parsePqHello (hello.unsigned ++ hello.signature) = .ok hello := by
  obtain ⟨suites, ed, x25519, nonce, kem, signature, unsigned⟩ := hello
  obtain ⟨⟨nonempty, few⟩, increasing, inRange, ⟨edLength, xLength⟩, nonceLength, kemLength, written⟩ :=
    encodePqHelloUnsigned_eq_ok.1 encoded
  simp only at signed nonempty few written edLength xLength nonceLength kemLength inRange ⊢
  generalize fieldsAre : [handshakeMagic, [handshakeVersion, UInt8.ofNat suites.length],
    (suites.map packSuite).flatten, ed, x25519, nonce, kem, signature] = fields
  generalize rawIs : unsigned ++ signature = raw
  have whole : raw = fields.flatten := by
    rw [← rawIs, written, ← fieldsAre]
    simp
  have counted : 0 < suites.length := List.length_pos_iff.2 nonempty
  have maxIs := maxOfferedSuites_eq
  have magicLength := length_handshakeMagic
  have suitesLength := length_packSuites suites
  have unsignedLength : unsigned.length = raw.length - 64 := by
    rw [← rawIs, List.length_append, signed, Nat.add_sub_cancel]
  have length : raw.length =
      4 + 1 + 1 + 2 * suites.length + 32 + 32 + nonceLen + kemPublicKeyLen + 64 := by
    rw [whole, ← fieldsAre]
    simp only [List.flatten_cons, List.flatten_nil, List.length_append, List.length_nil,
      List.length_cons, magicLength, suitesLength, edLength, xLength, nonceLength, kemLength, signed]
    ring
  have twoKeys (offset : Nat) : offset + 32 + 32 = offset + 64 := rfl
  -- every field is the slice between the lengths in front of it and behind it
  have parts := slices_flatten [] fields
  rw [List.nil_append, ← whole, ← fieldsAre] at parts
  simp only [slices, List.map_cons, List.map_nil, List.length_cons, List.length_nil, Nat.zero_add,
    Nat.reduceAdd, twoKeys, magicLength, suitesLength, edLength, xLength, nonceLength,
    kemLength, signed, List.cons.injEq, and_true] at parts
  obtain ⟨magic, header, packed, edIs, xIs, nonceIs, kemIs, signatureIs⟩ := parts
  rw [slice_two (by omega)] at header
  simp only [List.cons.injEq, and_true] at header
  obtain ⟨version, count⟩ := header
  have countIs : (raw.getD 5 0).toNat = suites.length := by
    rw [count, UInt8.toNat_ofNat', Nat.mod_eq_of_lt (by omega)]
  have offered : unpackSuites raw suites.length = suites := unpackSuites_packSuites inRange packed
  have canonical : ¬ (suites ≠ sortedSet suites ∨ 0 ∈ suites) := by
    rintro (differs | zero)
    · exact differs (eq_sortedSet_iff.2 increasing)
    · exact absurd (inRange 0 zero).1 (by decide)
  have front : raw.take (raw.length - 64) = unsigned := by
    rw [← unsignedLength, ← rawIs, List.take_left' rfl]
  rw [parsePqHello]
  simp only [countIs]
  rw [require_of (by omega), ok_bind, require_of magic, ok_bind, require_of version, ok_bind,
    require_of ⟨counted, few⟩, ok_bind, require_of length, ok_bind, offered, require_of canonical,
    ok_bind, edIs, xIs, nonceIs, kemIs, signatureIs, front]

/-- **HELLO is canonical.**  The parser returns the fields of a frame exactly if the frame is what the
encoder writes for them, a signature of 64 bytes behind. -/
theorem parsePqHello_eq_ok {raw : Bytes} {hello : PQHello} :
    parsePqHello raw = .ok hello ↔ hello.encode = .ok hello.unsigned ∧
      hello.signature.length = 64 ∧ raw = hello.unsigned ++ hello.signature := by
  constructor
  · intro parsed
    exact PQHello.encode_of_parse parsed
  · rintro ⟨encoded, signed, rfl⟩
    exact PQHello.parse_of_encode encoded signed

/-! ## REPLY -/

/-- The bytes a signature is made over, as the encoder writes them for these fields. -/
def PQReply.encode (reply : PQReply) : Except HandshakeError Bytes :=
  encodePqReplyUnsigned reply.selectedSuite reply.helloHash reply.responderEd reply.responderX25519
    reply.nonce reply.kemCiphertext

theorem encodePqReplyUnsigned_eq_ok {suite : Int} {hash ed x25519 nonce kem unsigned : Bytes} :
    encodePqReplyUnsigned suite hash ed x25519 nonce kem = .ok unsigned ↔
      (0 < suite ∧ suite ≤ 0xFFFF) ∧ hash.length = 32 ∧ (ed.length = 32 ∧ x25519.length = 32) ∧
      nonce.length = nonceLen ∧ kem.length = kemCiphertextLen ∧
      unsigned = [handshakeMagic, [handshakeVersion], packSuite suite, hash, ed, x25519, nonce,
        kem].flatten := by
  simp only [encodePqReplyUnsigned, bind_eq_ok, require_eq_ok, exists_const, Except.ok.injEq,
    List.flatten_cons, List.flatten_nil, List.append_nil, List.append_assoc, @eq_comm _ unsigned]

theorem PQReply.encode_of_parse {raw : Bytes} {reply : PQReply}
    (parsed : parsePqReply raw = .ok reply) :
    reply.encode = .ok reply.unsigned ∧ reply.signature.length = 64 ∧
      raw = reply.unsigned ++ reply.signature := by
  simp only [parsePqReply, bind_eq_ok, require_eq_ok, exists_const, Except.ok.injEq] at parsed
  obtain ⟨length, magic, version, nonzero, rfl⟩ := parsed
  simp only [PQReply.encode]
  have nonceIs := nonceLen_eq
  have kemIs := kemCiphertextLen_eq
  have two : (slice raw 5 7).length = 2 := by rw [length_slice (by omega)]
  have range := unpackSuite_range two
  have parts : ∀ start stop, stop ≤ raw.length → (slice raw start stop).length = stop - start :=
    fun start stop inside => length_slice inside
  refine ⟨encodePqReplyUnsigned_eq_ok.2 ⟨⟨?_, range.2⟩, ?_, ⟨?_, ?_⟩, ?_, ?_, ?_⟩, ?_, ?_⟩
  · exact lt_of_le_of_ne range.1 (Ne.symm nonzero)
  · rw [parts _ _ (by omega)]
  · rw [parts _ _ (by omega)]
  · rw [parts _ _ (by omega)]
  · rw [parts _ _ (by omega)]; omega
  · rw [parts _ _ (by omega)]; omega
  · have versionIs : [handshakeVersion] = slice raw 4 5 := by
      rw [slice_one (by omega), version]
    simp only [List.flatten_cons, List.flatten_nil, List.append_nil]
    rw [← magic, versionIs, packSuite_unpackSuite two, slice_append_slice _ (by omega) (by omega),
      slice_append_slice _ (by omega) (by omega), slice_append_slice _ (by omega) (by omega),
      slice_append_slice _ (by omega) (by omega), slice_append_slice _ (by omega) (by omega),
      slice_append_slice _ (by omega) (by omega), slice_append_slice _ (by omega) (by omega), slice,
      List.drop_zero]
    congr 1
    omega
  · rw [parts _ _ (by omega)]; omega
  · have behind : slice raw (103 + nonceLen + kemCiphertextLen)
        (103 + nonceLen + kemCiphertextLen + 64) = raw.drop (raw.length - 64) := by
      rw [slice, List.take_of_length_le (by omega)]
      congr 1
      omega
    rw [behind, List.take_append_drop]

theorem PQReply.parse_of_encode {reply : PQReply} (encoded : reply.encode = .ok reply.unsigned)
    (signed : reply.signature.length = 64) :
    parsePqReply (reply.unsigned ++ reply.signature) = .ok reply := by
  obtain ⟨suite, hash, ed, x25519, nonce, kem, signature, unsigned⟩ := reply
  obtain ⟨inRange, hashLength, ⟨edLength, xLength⟩, nonceLength, kemLength, written⟩ :=
    encodePqReplyUnsigned_eq_ok.1 encoded
  simp only at signed written inRange hashLength edLength xLength nonceLength kemLength ⊢
  generalize fieldsAre : [handshakeMagic, [handshakeVersion], packSuite suite, hash, ed, x25519,
    nonce, kem, signature] = fields
  generalize rawIs : unsigned ++ signature = raw
  have whole : raw = fields.flatten := by
    rw [← rawIs, written, ← fieldsAre]
    simp
  have magicLength := length_handshakeMagic
  have suiteLength := length_packSuite suite
  have unsignedLength : unsigned.length = raw.length - 64 := by
    rw [← rawIs, List.length_append, signed, Nat.add_sub_cancel]
  have length : raw.length = 4 + 1 + 2 + 32 + 32 + 32 + nonceLen + kemCiphertextLen + 64 := by
    rw [whole, ← fieldsAre]
    simp only [List.flatten_cons, List.flatten_nil, List.length_append, List.length_nil,
      List.length_cons, magicLength, suiteLength, hashLength, edLength, xLength, nonceLength,
      kemLength, signed]
    ring
  -- every field is the slice between the lengths in front of it and behind it
  have parts := slices_flatten [] fields
  rw [List.nil_append, ← whole, ← fieldsAre] at parts
  simp only [slices, List.map_cons, List.map_nil, List.length_cons, List.length_nil, Nat.zero_add,
    Nat.reduceAdd, magicLength, suiteLength, hashLength, edLength, xLength, nonceLength, kemLength,
    signed, List.cons.injEq, and_true] at parts
  obtain ⟨magic, versionIs, suiteIs, hashIs, edIs, xIs, nonceIs, kemIs, signatureIs⟩ := parts
  rw [slice_one (by omega)] at versionIs
  simp only [List.cons.injEq, and_true] at versionIs
  have selected : unpackSuite (packSuite suite) ≠ 0 := by
    rw [unpackSuite_packSuite inRange]
    omega
  have front : raw.take (raw.length - 64) = unsigned := by
    rw [← unsignedLength, ← rawIs, List.take_left' rfl]
  rw [parsePqReply]
  simp only [suiteIs]
  rw [require_of length, ok_bind, require_of magic, ok_bind, require_of versionIs, ok_bind,
    require_of selected, ok_bind, unpackSuite_packSuite inRange, hashIs, edIs, xIs, nonceIs, kemIs,
    signatureIs, front]

/-- **REPLY is canonical.**  The parser returns the fields of a frame exactly if the frame is what the
encoder writes for them, a signature of 64 bytes behind. -/
theorem parsePqReply_eq_ok {raw : Bytes} {reply : PQReply} :
    parsePqReply raw = .ok reply ↔ reply.encode = .ok reply.unsigned ∧
      reply.signature.length = 64 ∧ raw = reply.unsigned ++ reply.signature := by
  constructor
  · intro parsed
    exact PQReply.encode_of_parse parsed
  · rintro ⟨encoded, signed, rfl⟩
    exact PQReply.parse_of_encode encoded signed

/-! ## Both frames -/

/-- The fields a HELLO may have: one to eight suites, increasing and not zero, and the lengths of the
keys and the nonce. -/
structure PQHello.InRange (hello : PQHello) : Prop where
  offered : 1 ≤ hello.offeredSuites.length ∧ hello.offeredSuites.length ≤ 8
  increasing : hello.offeredSuites.Pairwise (· < ·)
  suites : ∀ suite ∈ hello.offeredSuites, 0 < suite ∧ suite ≤ 0xFFFF
  keys : hello.initiatorEd.length = 32 ∧ hello.initiatorX25519.length = 32
  nonceLength : hello.nonce.length = 16
  kemLength : hello.kemPublicKey.length = 1216

structure PQReply.InRange (reply : PQReply) : Prop where
  suite : 0 < reply.selectedSuite ∧ reply.selectedSuite ≤ 0xFFFF
  hashLength : reply.helloHash.length = 32
  keys : reply.responderEd.length = 32 ∧ reply.responderX25519.length = 32
  nonceLength : reply.nonce.length = 16
  kemLength : reply.kemCiphertext.length = 1120

theorem PQHello.encode_iff_inRange {hello : PQHello} :
    (∃ unsigned, hello.encode = .ok unsigned) ↔ hello.InRange := by
  constructor
  · rintro ⟨unsigned, encoded⟩
    obtain ⟨⟨nonempty, few⟩, increasing, suites, keys, nonce, kem, -⟩ :=
      encodePqHelloUnsigned_eq_ok.1 encoded
    exact ⟨⟨List.length_pos_iff.2 nonempty, few.trans_eq maxOfferedSuites_eq⟩, increasing, suites,
      keys, nonce.trans nonceLen_eq, kem.trans kemPublicKeyLen_eq⟩
  · rintro ⟨⟨some_, few⟩, increasing, suites, keys, nonce, kem⟩
    exact ⟨_, encodePqHelloUnsigned_eq_ok.2 ⟨⟨List.length_pos_iff.1 some_,
      few.trans_eq maxOfferedSuites_eq.symm⟩, increasing, suites, keys, nonce.trans nonceLen_eq.symm,
      kem.trans kemPublicKeyLen_eq.symm, rfl⟩⟩

theorem PQReply.encode_iff_inRange {reply : PQReply} :
    (∃ unsigned, reply.encode = .ok unsigned) ↔ reply.InRange := by
  constructor
  · rintro ⟨unsigned, encoded⟩
    obtain ⟨suite, hash, keys, nonce, kem, -⟩ := encodePqReplyUnsigned_eq_ok.1 encoded
    exact ⟨suite, hash, keys, nonce.trans nonceLen_eq, kem.trans kemCiphertextLen_eq⟩
  · rintro ⟨suite, hash, keys, nonce, kem⟩
    exact ⟨_, encodePqReplyUnsigned_eq_ok.2 ⟨suite, hash, keys, nonce.trans nonceLen_eq.symm,
      kem.trans kemCiphertextLen_eq.symm, rfl⟩⟩

/-- **Both flights are bijective encodings.**  Fields in range and a signature of 64 bytes come back
from their frame, with the bytes the signature is over; and an accepted frame is the encoding of its
fields, followed by its signature and nothing else. -/
theorem flights_bijective :
    (∀ hello : PQHello, hello.InRange → hello.signature.length = 64 →
      ∃ unsigned, hello.encode = .ok unsigned ∧
        parsePqHello (unsigned ++ hello.signature) = .ok { hello with unsigned }) ∧
    (∀ raw hello, parsePqHello raw = .ok hello → hello.InRange ∧
      hello.encode = .ok hello.unsigned ∧ hello.signature.length = 64 ∧
      raw = hello.unsigned ++ hello.signature) ∧
    (∀ reply : PQReply, reply.InRange → reply.signature.length = 64 →
      ∃ unsigned, reply.encode = .ok unsigned ∧
        parsePqReply (unsigned ++ reply.signature) = .ok { reply with unsigned }) ∧
    ∀ raw reply, parsePqReply raw = .ok reply → reply.InRange ∧
      reply.encode = .ok reply.unsigned ∧ reply.signature.length = 64 ∧
      raw = reply.unsigned ++ reply.signature := by
  refine ⟨?_, ?_, ?_, ?_⟩
  · intro hello inRange signed
    obtain ⟨unsigned, encoded⟩ := PQHello.encode_iff_inRange.2 inRange
    exact ⟨unsigned, encoded, parsePqHello_eq_ok.2 ⟨encoded, signed, rfl⟩⟩
  · intro raw hello parsed
    have back := parsePqHello_eq_ok.1 parsed
    exact ⟨PQHello.encode_iff_inRange.1 ⟨_, back.1⟩, back⟩
  · intro reply inRange signed
    obtain ⟨unsigned, encoded⟩ := PQReply.encode_iff_inRange.2 inRange
    exact ⟨unsigned, encoded, parsePqReply_eq_ok.2 ⟨encoded, signed, rfl⟩⟩
  · intro raw reply parsed
    have back := parsePqReply_eq_ok.1 parsed
    exact ⟨PQReply.encode_iff_inRange.1 ⟨_, back.1⟩, back⟩

end OneLink.Channel.PqHandshake
