/-
# DoubleRatchet.Ratchet — the state of one side, `encrypt` and `decrypt`

`encrypt` seals a message at the head of the sending chain.  `decrypt` opens a
frame with a stashed key, or at the head of the receiving chain, after a DH
ratchet when the frame carries a new public key.  The receiving chain stashes
the message keys it passes over; the stash and the replay table are bounded
and evict their oldest entry first.

X25519, HKDF, HMAC and the AEAD's encryption are imported by the module: they
are the fields of `Primitives`.  The AEAD's decryption is the ideal one: it
opens what has been sealed (`aeadDecrypt`), and nothing else.  `Key` stands for
the 32-byte outputs of the key derivation, so `len(shared_secret) != 32` has no
counterpart here.
-/
import OneLink.Library.BoundedDict
import OneLink.Library.Checked
import OneLink.Library.Framing
import Mathlib.Logic.Function.Iterate

namespace OneLink.DoubleRatchet

open Library

set_option autoImplicit false

def maxSkipKeys : Nat := 1000
def maxMsgPerChain : Nat := 2 ^ 32

/-- What the module raises, with the numbers the message texts carry. -/
inductive RatchetError where
  | peerPubLength (got : Nat)
  | smallOrderPoint
  | zeroSharedSecret
  | dhLength
  /-- `struct.error`: a field does not fit its 32 bits. -/
  | structError
  | initLength
  | notReadyToSend
  | sendChainExhausted
  | replayed
  | tooManySkippedPrior (gap : Nat)
  | priorChainPast
  | tooManySkipped (gap : Nat)
  | recvChainPast
  | messageLost (n recvN : Nat)
  | recvChainNotInitialized
  /-- `InvalidTag`. -/
  | invalidTag
  deriving DecidableEq, Repr

/-- The imported primitives.  `hkdfRoot salt material` is the 64-byte HKDF output
under `HKDF_LABEL_ROOT`, cut in two; `hmac key tag` is HMAC-SHA256 of one byte. -/
structure Primitives (Key Priv : Type) where
  publicBytes : Priv → Bytes
  exchange : Priv → Bytes → Key
  zeroKey : Key
  hkdfRoot : (salt material : Key) → Key × Key
  hmac : Key → UInt8 → Key
  aeadEncrypt : (key : Key) → (nonce plaintext aad : Bytes) → Bytes

/-- `(header.dh, header.n)`. -/
abbrev MessageId := Bytes × Nat

scoped instance lawfulMessageId : LawfulBEq MessageId := inferInstance

/-! ## Small-order points -/

/-- The 32 bytes of each point, as `bytes.fromhex` reads them: a big-endian numeral. -/
def x25519SmallOrderPoints : List Bytes :=
  [0x0000000000000000000000000000000000000000000000000000000000000000,
   0x0100000000000000000000000000000000000000000000000000000000000000,
   0xe0eb7a7c3b41b8ae1656e3faf19fc46ada098deb9c32b1fd866205165f49b800,
   0x5f9c95bca3508c24b1d0b1559c83ef5b04445cc4581c8e86d8224eddd09f1157,
   0xecffffffffffffffffffffffffffffffffffffffffffffffffffffffffffff7f,
   0xedffffffffffffffffffffffffffffffffffffffffffffffffffffffffffff7f,
   0xeeffffffffffffffffffffffffffffffffffffffffffffffffffffffffffff7f,
   0x00000000000000000000000000000000000000000000000000000000000000ff,
   0x010000000000000000000000000000000000000000000000000000000000ff7f,
   0x010000000000000000000000000000000000000000000000000000000000ffff,
   0xe0eb7a7c3b41b8ae1656e3faf19fc46ada098deb9c32b1fd866205165f49b880,
   0x5f9c95bca3508c24b1d0b1559c83ef5b04445cc4581c8e86d8224eddd09f11d7,
   0xecffffffffffffffffffffffffffffffffffffffffffffffffffffffffffffff].map
    (beBytes 32)

def isSmallOrderX25519 (pub : Bytes) : Bool :=
  pub.length ≠ 32 || x25519SmallOrderPoints.any (pub == ·)

/-! ## Header -/

structure Header where
  v : Nat
  flags : Nat
  dh : Bytes
  pn : Nat
  n : Nat
  deriving DecidableEq, Repr

def Header.id (header : Header) : MessageId := (header.dh, header.n)

/-- `struct.pack(">BB32sII", v & 0xFF, flags & 0xFF, dh, pn, n)`, where it does not raise. -/
def Header.pack (header : Header) : Bytes :=
  [UInt8.ofNat header.v, UInt8.ofNat header.flags] ++
    (header.dh ++ (beBytes 4 header.pn ++ beBytes 4 header.n))

def Header.encode (header : Header) : Except RatchetError Bytes := do
  require (header.dh.length = 32) .dhLength
  require (header.pn < 2 ^ 32 ∧ header.n < 2 ^ 32) .structError
  return header.pack

/-! ## AEAD -/

/-- One call of the AEAD's encryption. -/
structure Box (Key : Type) where
  key : Key
  nonce : Bytes
  aad : Bytes
  plaintext : Bytes
  ciphertext : Bytes
  deriving DecidableEq

def aeadNonce (messageNumber : Nat) : Bytes :=
  [0, 0, 0, 0] ++ beBytes 8 (messageNumber % 2 ^ 64)

variable {Key Priv : Type}

section Aead

variable [DecidableEq Key]

/-- The ideal AEAD: a ciphertext opens under a key, a nonce and associated data
exactly when it has been sealed under them. -/
def aeadDecrypt (boxes : List (Box Key)) (key : Key) (nonce ciphertext aad : Bytes) :
    Except RatchetError Bytes :=
  match boxes.find? fun box => box.key = key ∧ box.nonce = nonce ∧ box.aad = aad ∧
      box.ciphertext = ciphertext with
  | some box => .ok box.plaintext
  | none => .error .invalidTag

theorem aeadDecrypt_eq_ok {boxes : List (Box Key)} {key : Key}
    {nonce ciphertext aad plaintext : Bytes}
    (opened : aeadDecrypt boxes key nonce ciphertext aad = .ok plaintext) :
    ∃ box ∈ boxes, box.key = key ∧ box.nonce = nonce ∧ box.aad = aad ∧
      box.ciphertext = ciphertext ∧ box.plaintext = plaintext := by
  unfold aeadDecrypt at opened
  split at opened
  · rename_i box found
    have matching := List.find?_some found
    simp only [decide_eq_true_eq] at matching
    obtain ⟨sameKey, sameNonce, sameAad, sameCiphertext⟩ := matching
    exact ⟨box, List.mem_of_find?_eq_some found, sameKey, sameNonce, sameAad, sameCiphertext,
      by simpa using opened⟩
  · cases opened

/-- A box opens, if no other box has its key and associated data. -/
theorem aeadDecrypt_box {boxes : List (Box Key)} {box : Box Key} (member : box ∈ boxes)
    (alone : ∀ other ∈ boxes, other.key = box.key → other.aad = box.aad →
      other.plaintext = box.plaintext) :
    aeadDecrypt boxes box.key box.nonce box.ciphertext box.aad = .ok box.plaintext := by
  unfold aeadDecrypt
  split
  · rename_i other found
    have matching := List.find?_some found
    simp only [decide_eq_true_eq] at matching
    rw [alone other (List.mem_of_find?_eq_some found) matching.1 matching.2.2.1]
  · rename_i missed
    have := List.find?_eq_none.mp missed box member
    simp at this

end Aead

/-! ## State -/

abbrev Skipped (Key : Type) := OrderedDict MessageId Key

structure RatchetState (Key Priv : Type) where
  rootKey : Key
  dhSend : Priv
  dhSendPub : Bytes
  dhRecvPub : Option Bytes
  sendChainKey : Option Key := none
  recvChainKey : Option Key := none
  sendN : Nat := 0
  recvN : Nat := 0
  prevSendN : Nat := 0
  skipped : Skipped Key := .empty
  decryptedSeen : OrderedDict MessageId Bool := .empty

/-- Pop the oldest entry while more than `MAX_SKIP_KEYS` are left. -/
def evictSkippedIfFull (skipped : Skipped Key) : Skipped Key :=
  skipped.dropFirst (skipped.size - maxSkipKeys)

/-- Record a message as consumed; the oldest records beyond `MAX_SKIP_KEYS * 4` go. -/
def RatchetState.markSeen (s : RatchetState Key Priv) (id : MessageId) : RatchetState Key Priv :=
  let seen := s.decryptedSeen.set id true
  { s with decryptedSeen := seen.dropFirst (seen.size - maxSkipKeys * 4) }

variable (P : Primitives Key Priv)

def kdfRoot (rootKey dhOutput : Key) : Key × Key := P.hkdfRoot rootKey dhOutput

def nextChain (chainKey : Key) : Key := P.hmac chainKey 0x02
def messageKey (chainKey : Key) : Key := P.hmac chainKey 0x01

def kdfChain (chainKey : Key) : Key × Key := (nextChain P chainKey, messageKey P chainKey)

section Dh

variable [DecidableEq Key]

def x25519Dh (priv : Priv) (peerPub : Bytes) : Except RatchetError Key := do
  require (peerPub.length = 32) (.peerPubLength peerPub.length)
  require (isSmallOrderX25519 peerPub = false) .smallOrderPoint
  require (P.exchange priv peerPub ≠ P.zeroKey) .zeroSharedSecret
  return P.exchange priv peerPub

/-- `init_alice`; `fresh` is the key pair that `x25519_keypair` draws. -/
def initAlice (sharedSecret : Key) (peerPub : Bytes) (fresh : Priv) :
    Except RatchetError (RatchetState Key Priv) := do
  require (peerPub.length = 32) .initLength
  let dhOut ← x25519Dh P fresh peerPub
  let (newRoot, newSendChain) := kdfRoot P sharedSecret dhOut
  return {
    rootKey := newRoot
    dhSend := fresh
    dhSendPub := P.publicBytes fresh
    dhRecvPub := some peerPub
    sendChainKey := some newSendChain }

def initBob (sharedSecret : Key) (dhPriv : Priv) : RatchetState Key Priv where
  rootKey := sharedSecret
  dhSend := dhPriv
  dhSendPub := P.publicBytes dhPriv
  dhRecvPub := none

/-- `init_pair`; the two key pairs are those that `x25519_keypair` draws. -/
def initPair (sharedSecret : Key) (bobKey aliceKey : Priv) :
    Except RatchetError (RatchetState Key Priv × RatchetState Key Priv) := do
  let alice ← initAlice P sharedSecret (P.publicBytes bobKey) aliceKey
  return (alice, initBob P sharedSecret bobKey)

end Dh

/-! ## Skipping -/

/-- `count` rounds of the skip loop, from chain key `chain` at message number `n`. -/
def stashKeys (pastBound : RatchetError) (dh : Bytes) :
    Nat → Key → Nat → Skipped Key → Except RatchetError (Key × Skipped Key)
  | 0, chain, _, skipped => return (chain, skipped)
  | count + 1, chain, n, skipped => do
    require (n < maxMsgPerChain) pastBound
    let (next, mk) := kdfChain P chain
    stashKeys pastBound dh count next (n + 1) (evictSkippedIfFull (skipped.set (dh, n) mk))

/-- The loop of `_skip_recv_keys`, and of the first part of `_dh_ratchet`. -/
def skipKeys (tooMany : Nat → RatchetError) (pastBound : RatchetError)
    (s : RatchetState Key Priv) (stop : Nat) : Except RatchetError (RatchetState Key Priv) :=
  match s.recvChainKey, s.dhRecvPub with
  | some chain, some pub => do
    require (stop ≤ s.recvN + maxSkipKeys) (tooMany (stop - s.recvN))
    let (chain, skipped) ← stashKeys P pastBound pub (stop - s.recvN) chain s.recvN s.skipped
    return { s with
      recvChainKey := some chain
      recvN := max s.recvN stop
      skipped := skipped }
  | _, _ => return s

def skipRecvKeys : RatchetState Key Priv → Nat → Except RatchetError (RatchetState Key Priv) :=
  skipKeys P .tooManySkipped .recvChainPast

def skipPriorKeys : RatchetState Key Priv → Nat → Except RatchetError (RatchetState Key Priv) :=
  skipKeys P .tooManySkippedPrior .priorChainPast

variable [DecidableEq Key]

/-- `_dh_ratchet`; `fresh` is the key pair that `x25519_keypair` draws. -/
def dhRatchet (s : RatchetState Key Priv) (header : Header) (fresh : Priv) :
    Except RatchetError (RatchetState Key Priv) := do
  let s ← skipPriorKeys P s header.pn
  let dhOut ← x25519Dh P s.dhSend header.dh
  let (newRoot, newRecvChain) := kdfRoot P s.rootKey dhOut
  let dhOut2 ← x25519Dh P fresh header.dh
  let (newRoot2, newSendChain) := kdfRoot P newRoot dhOut2
  return { s with
    rootKey := newRoot2
    dhSend := fresh
    dhSendPub := P.publicBytes fresh
    dhRecvPub := some header.dh
    sendChainKey := some newSendChain
    recvChainKey := some newRecvChain
    sendN := 0
    recvN := 0
    prevSendN := s.sendN }

/-! ## `encrypt` -/

def RatchetState.sendHeader (s : RatchetState Key Priv) : Header where
  v := 1
  flags := 0
  dh := s.dhSendPub
  pn := s.prevSendN
  n := s.sendN

/-- What the AEAD seals for a message at the head of a sending chain. -/
def sealBox (chain : Key) (header : Header) (encoded plaintext ad : Bytes) : Box Key where
  key := messageKey P chain
  nonce := aeadNonce header.n
  aad := encoded ++ ad
  plaintext := plaintext
  ciphertext := P.aeadEncrypt (messageKey P chain) (aeadNonce header.n) plaintext (encoded ++ ad)

/-- `encrypt`, with the state it leaves.  The chain key has already moved when
`header.encode` raises, and `send_n` has not. -/
def encrypt (s : RatchetState Key Priv) (plaintext ad : Bytes) :
    Except RatchetError (Header × Box Key) × RatchetState Key Priv :=
  match s.sendChainKey with
  | none => (.error .notReadyToSend, s)
  | some chain =>
    if maxMsgPerChain ≤ s.sendN then (.error .sendChainExhausted, s)
    else
      let stepped := { s with sendChainKey := some (nextChain P chain) }
      match s.sendHeader.encode with
      | .error err => (.error err, stepped)
      | .ok encoded =>
        (.ok (s.sendHeader, sealBox P chain s.sendHeader encoded plaintext ad),
          { stepped with sendN := s.sendN + 1 })

/-! ## `decrypt` -/

section Decrypt

variable (boxes : List (Box Key))

/-- `_aead_for(msg_key).decrypt(nonce, ciphertext, header.encode() + ad)`. -/
def openUnder (msgKey : Key) (header : Header) (ciphertext ad : Bytes) :
    Except RatchetError Bytes := do
  let encoded ← header.encode
  aeadDecrypt boxes msgKey (aeadNonce header.n) ciphertext (encoded ++ ad)

def trySkipped (s : RatchetState Key Priv) (header : Header) (ciphertext ad : Bytes) :
    Except RatchetError (Option (Bytes × RatchetState Key Priv)) :=
  match s.skipped.get? header.id with
  | none => return none
  | some msgKey =>
    if header.id ∈ s.decryptedSeen.keys then return none
    else do
      let plaintext ← openUnder boxes msgKey header ciphertext ad
      let consumed := { s with skipped := s.skipped.erase header.id }
      return some (plaintext, consumed.markSeen header.id)

def ratchetIfNew (s : RatchetState Key Priv) (header : Header) (fresh : Priv) :
    Except RatchetError (RatchetState Key Priv) :=
  if s.dhRecvPub ≠ some header.dh then dhRatchet P s header fresh else return s

def advanceTo (s : RatchetState Key Priv) (n : Nat) :
    Except RatchetError (RatchetState Key Priv) :=
  if s.recvN < n then skipRecvKeys P s n
  else if n < s.recvN then throw (.messageLost n s.recvN)
  else return s

/-- The end of `decrypt`: open at the head of the receiving chain and step it. -/
def openHead (s : RatchetState Key Priv) (header : Header) (ciphertext ad : Bytes) :
    Except RatchetError (Bytes × RatchetState Key Priv) :=
  match s.recvChainKey with
  | none => throw .recvChainNotInitialized
  | some chain => do
    let (next, msgKey) := kdfChain P chain
    let plaintext ← openUnder boxes msgKey header ciphertext ad
    let stepped := { s with recvChainKey := some next, recvN := s.recvN + 1 }
    return (plaintext, stepped.markSeen header.id)

/-- `decrypt`.  Every failure leaves the state as it was: before the `try` nothing
has been written, inside it the snapshot is restored. -/
def decrypt (s : RatchetState Key Priv) (header : Header) (ciphertext ad : Bytes)
    (fresh : Priv) : Except RatchetError (Bytes × RatchetState Key Priv) := do
  require (header.id ∉ s.decryptedSeen.keys) .replayed
  match ← trySkipped boxes s header ciphertext ad with
  | some result => return result
  | none =>
    let ratcheted ← ratchetIfNew P s header fresh
    let advanced ← advanceTo P ratcheted header.n
    openHead P boxes advanced header ciphertext ad

end Decrypt

/-! ## What a header binds -/

theorem Header.encode_eq_ok {header : Header} {encoded : Bytes} :
    header.encode = .ok encoded ↔
      header.dh.length = 32 ∧ (header.pn < 2 ^ 32 ∧ header.n < 2 ^ 32) ∧
        header.pack = encoded := by
  simp only [Header.encode, bind_eq_ok, require_eq_ok, exists_const, pure_eq_ok_iff]

/-- The associated data determines the key, the counters and the caller's data. -/
theorem Header.encode_append_inj {header header' : Header} {x x' ad ad' : Bytes}
    (encoded : header.encode = .ok x) (encoded' : header'.encode = .ok x')
    (same : x ++ ad = x' ++ ad') :
    header.dh = header'.dh ∧ header.pn = header'.pn ∧ header.n = header'.n ∧ ad = ad' := by
  obtain ⟨dhLen, ⟨pnSmall, nSmall⟩, rfl⟩ := Header.encode_eq_ok.mp encoded
  obtain ⟨dhLen', ⟨pnSmall', nSmall'⟩, rfl⟩ := Header.encode_eq_ok.mp encoded'
  simp only [Header.pack, List.append_assoc] at same
  obtain ⟨-, same⟩ := List.append_inj same rfl
  obtain ⟨sameDh, same⟩ := List.append_inj same (by omega)
  obtain ⟨samePn, same⟩ := List.append_inj same (by simp)
  obtain ⟨sameN, sameAd⟩ := List.append_inj same (by simp)
  exact ⟨sameDh, beBytes_inj pnSmall pnSmall' samePn, beBytes_inj nSmall nSmall' sameN, sameAd⟩

/-! ## One lemma for each operation -/

theorem isSmallOrderX25519_length {pub : Bytes} (accepted : isSmallOrderX25519 pub = false) :
    pub.length = 32 := by
  by_contra wrong
  simp [isSmallOrderX25519, wrong] at accepted

theorem x25519Dh_eq_ok {priv : Priv} {peerPub : Bytes} {out : Key} :
    x25519Dh P priv peerPub = .ok out ↔
      isSmallOrderX25519 peerPub = false ∧ P.exchange priv peerPub ≠ P.zeroKey ∧
        P.exchange priv peerPub = out := by
  simp only [x25519Dh, bind_eq_ok, require_eq_ok, exists_const, pure_eq_ok_iff]
  constructor
  · rintro ⟨-, rest⟩
    exact rest
  · intro rest
    exact ⟨isSmallOrderX25519_length rest.1, rest⟩

section Skip

variable {P} {pastBound : RatchetError} {dh : Bytes} {base : Key}

omit [DecidableEq Key] in
theorem nextChain_iterate (n : Nat) (chain : Key) :
    nextChain P ((nextChain P)^[n] chain) = (nextChain P)^[n + 1] chain :=
  (Function.iterate_succ_apply' _ _ _).symm

omit [DecidableEq Key] in
theorem stashKeys_isOk (count : Nat) (chain : Key) (n : Nat) (skipped : Skipped Key)
    (small : ∀ m < count, n + m < maxMsgPerChain) :
    ∃ result, stashKeys P pastBound dh count chain n skipped = .ok result := by
  induction count generalizing chain n skipped with
  | zero => exact ⟨_, rfl⟩
  | succ count ih =>
    have here : n < maxMsgPerChain := small 0 (by omega)
    simp only [stashKeys, require_of here, ok_bind]
    refine ih _ _ _ fun m bound => ?_
    have := small (m + 1) (by omega)
    omega

/-- The message numbers a skip loop stashes, as keys of the stash. -/
def stashedIds (dh : Bytes) (n count : Nat) : List MessageId :=
  (List.range' n count).map fun m => (dh, m)

omit [DecidableEq Key] in
/-- The skip loop steps the chain and pushes the keys it passes over, in order. -/
theorem stashKeys_eq_ok {count n : Nat} {skipped skipped' : Skipped Key} {chain' : Key}
    {history : List MessageId} {gone : MessageId → Prop}
    (stashed : stashKeys P pastBound dh count ((nextChain P)^[n] base) n skipped =
      .ok (chain', skipped'))
    (window : skipped.Window maxSkipKeys history gone)
    (distinct : (history ++ stashedIds dh n count).Nodup) :
    chain' = (nextChain P)^[n + count] base ∧
      skipped'.Window maxSkipKeys (history ++ stashedIds dh n count) gone ∧
      ∀ id key, skipped'.get? id = some key → skipped.get? id = some key ∨
        ∃ m, n ≤ m ∧ m < n + count ∧ id = (dh, m) ∧
          key = messageKey P ((nextChain P)^[m] base) := by
  induction count generalizing n skipped history with
  | zero =>
    cases stashed
    exact ⟨rfl, by simpa [stashedIds] using window, fun id key present => .inl present⟩
  | succ count ih =>
    have unrolled : stashedIds dh n (count + 1) = (dh, n) :: stashedIds dh (n + 1) count := by
      simp [stashedIds, List.range'_succ]
    rw [unrolled] at distinct ⊢
    simp only [stashKeys, bind_eq_ok, require_eq_ok, exists_const, kdfChain] at stashed
    obtain ⟨-, stashed⟩ := stashed
    rw [nextChain_iterate] at stashed
    have fresh : (dh, n) ∉ history := by
      intro member
      exact (List.nodup_append.mp distinct).2.2 _ member _ (by simp) rfl
    have window' : (evictSkippedIfFull (skipped.set (dh, n)
        (messageKey P ((nextChain P)^[n] base)))).Window maxSkipKeys (history ++ [(dh, n)]) gone :=
      window.push fresh (List.nodup_append.mp distinct).1 _
    have reassociate : history ++ (dh, n) :: stashedIds dh (n + 1) count =
        history ++ [(dh, n)] ++ stashedIds dh (n + 1) count := by simp
    rw [reassociate] at distinct ⊢
    obtain ⟨rfl, windowed, entries⟩ := ih stashed window' distinct
    refine ⟨by rw [Nat.add_right_comm, Nat.add_assoc], windowed, ?_⟩
    intro id key present
    rcases entries id key present with old | ⟨m, low, high, rfl, rfl⟩
    · rcases OrderedDict.get?_push old with ⟨rfl, rfl⟩ | older
      · exact .inr ⟨n, Nat.le_refl _, by omega, rfl, rfl⟩
      · exact .inl older
    · exact .inr ⟨m, by omega, by omega, rfl, rfl⟩

variable {tooMany : Nat → RatchetError} {s s' : RatchetState Key Priv} {stop : Nat}

omit [DecidableEq Key] in
theorem skipKeys_of_none (noChain : s.recvChainKey = none) :
    skipKeys P tooMany pastBound s stop = .ok s := by
  unfold skipKeys
  rw [noChain]
  rfl

omit [DecidableEq Key] in
theorem skipKeys_isOk (near : s.recvChainKey ≠ none → stop ≤ s.recvN + maxSkipKeys)
    (small : stop ≤ maxMsgPerChain) : ∃ s', skipKeys P tooMany pastBound s stop = .ok s' := by
  unfold skipKeys
  split
  · rename_i chain pub hasChain _
    obtain ⟨⟨chain', skipped'⟩, stashed⟩ : ∃ result, stashKeys P pastBound pub (stop - s.recvN)
        chain s.recvN s.skipped = .ok result :=
      stashKeys_isOk _ _ _ _ (by omega)
    have inReach : stop ≤ s.recvN + maxSkipKeys := near (by simp [hasChain])
    simp only [require_of inReach, ok_bind, stashed]
    exact ⟨_, rfl⟩
  · exact ⟨s, rfl⟩

omit [DecidableEq Key] in
/-- Skipping moves the receiving chain and pushes the keys in between; nothing else. -/
theorem skipKeys_eq_ok {history : List MessageId} {gone : MessageId → Prop}
    (skips : skipKeys P tooMany pastBound s stop = .ok s')
    (onChain : s.recvChainKey = some ((nextChain P)^[s.recvN] base))
    (peer : s.dhRecvPub = some dh)
    (window : s.skipped.Window maxSkipKeys history gone)
    (distinct : (history ++ stashedIds dh s.recvN (stop - s.recvN)).Nodup) :
    ∃ skipped : Skipped Key,
      s' = { s with
        recvChainKey := some ((nextChain P)^[max s.recvN stop] base)
        recvN := max s.recvN stop
        skipped := skipped } ∧
      skipped.Window maxSkipKeys (history ++ stashedIds dh s.recvN (stop - s.recvN)) gone ∧
      ∀ id key, skipped.get? id = some key → s.skipped.get? id = some key ∨
        ∃ m, s.recvN ≤ m ∧ m < stop ∧ id = (dh, m) ∧
          key = messageKey P ((nextChain P)^[m] base) := by
  unfold skipKeys at skips
  rw [onChain, peer] at skips
  simp only [bind_eq_ok, require_eq_ok, exists_const, pure_eq_ok_iff] at skips
  obtain ⟨-, ⟨chain, skipped⟩, stashed, rfl⟩ := skips
  obtain ⟨rfl, windowed, entries⟩ := stashKeys_eq_ok stashed window distinct
  have reached : s.recvN + (stop - s.recvN) = max s.recvN stop := by omega
  rw [reached]
  refine ⟨skipped, by rw [peer], windowed, ?_⟩
  intro id key present
  rcases entries id key present with old | ⟨m, low, high, rest⟩
  · exact .inl old
  · exact .inr ⟨m, low, by omega, rest⟩

omit [DecidableEq Key] in
/-- Skipping touches the receiving chain and the stash only. -/
theorem skipKeys_frame (skips : skipKeys P tooMany pastBound s stop = .ok s') :
    ∃ chain n skipped, s' = { s with
      recvChainKey := chain
      recvN := n
      skipped := skipped } := by
  unfold skipKeys at skips
  split at skips
  · simp only [bind_eq_ok, require_eq_ok, exists_const, pure_eq_ok_iff] at skips
    obtain ⟨-, ⟨chain, skipped⟩, -, rfl⟩ := skips
    exact ⟨_, _, _, rfl⟩
  · cases skips
    exact ⟨_, _, _, rfl⟩

omit [DecidableEq Key] in
theorem stashKeys_chain {count n : Nat} {chain chain' : Key} {skipped skipped' : Skipped Key}
    (stashed : stashKeys P pastBound dh count chain n skipped = .ok (chain', skipped')) :
    chain' = (nextChain P)^[count] chain := by
  induction count generalizing chain n skipped with
  | zero =>
    cases stashed
    rfl
  | succ count ih =>
    simp only [stashKeys, bind_eq_ok, require_eq_ok, exists_const, kdfChain] at stashed
    exact ih stashed.2

omit [DecidableEq Key] in
theorem skipKeys_chain (skips : skipKeys P tooMany pastBound s stop = .ok s')
    (onChain : s.recvChainKey = some ((nextChain P)^[s.recvN] base))
    (peer : s.dhRecvPub = some dh) (ahead : s.recvN ≤ stop) :
    s'.recvChainKey = some ((nextChain P)^[stop] base) := by
  unfold skipKeys at skips
  rw [onChain, peer] at skips
  simp only [bind_eq_ok, require_eq_ok, exists_const, pure_eq_ok_iff] at skips
  obtain ⟨-, ⟨chain, skipped⟩, stashed, rfl⟩ := skips
  show some chain = _
  rw [stashKeys_chain stashed, ← Function.iterate_add_apply]
  congr 2
  omega

omit [DecidableEq Key] in
/-- `decrypt` skips up to the frame's number, and refuses a number already passed. -/
theorem advanceTo_eq_ok {n : Nat} :
    advanceTo P s n = .ok s' ↔ s.recvN ≤ n ∧ skipRecvKeys P s n = .ok s' := by
  unfold advanceTo
  split
  · rename_i less
    exact ⟨fun advances => ⟨less.le, advances⟩, And.right⟩
  · split
    · rename_i passed
      constructor
      · intro advances
        cases advances
      · rintro ⟨low, -⟩
        omega
    · have here : n = s.recvN := by omega
      have stays : skipRecvKeys P s n = .ok s := by
        unfold skipRecvKeys skipKeys
        split
        · rename_i chain pub hasChain hasPub
          rw [here, require_of (Nat.le_add_right _ _), Nat.sub_self]
          simp only [ok_bind, stashKeys, pure, Except.pure, Nat.max_self]
          rw [← hasChain]
        · rfl
      rw [stays]
      exact ⟨fun stay => ⟨by omega, stay⟩, And.right⟩

end Skip

/-- The state after the two root steps of `_dh_ratchet`. -/
def RatchetState.ratcheted (s : RatchetState Key Priv) (dh : Bytes) (fresh : Priv) :
    RatchetState Key Priv :=
  let recvStep := kdfRoot P s.rootKey (P.exchange s.dhSend dh)
  let sendStep := kdfRoot P recvStep.1 (P.exchange fresh dh)
  { s with
    rootKey := sendStep.1
    dhSend := fresh
    dhSendPub := P.publicBytes fresh
    dhRecvPub := some dh
    sendChainKey := some sendStep.2
    recvChainKey := some recvStep.2
    sendN := 0
    recvN := 0
    prevSendN := s.sendN }

theorem dhRatchet_eq_ok {s s' : RatchetState Key Priv} {header : Header} {fresh : Priv} :
    dhRatchet P s header fresh = .ok s' ↔
      ∃ mid, skipPriorKeys P s header.pn = .ok mid ∧
        isSmallOrderX25519 header.dh = false ∧
        P.exchange mid.dhSend header.dh ≠ P.zeroKey ∧
        P.exchange fresh header.dh ≠ P.zeroKey ∧
        mid.ratcheted P header.dh fresh = s' := by
  simp only [dhRatchet, bind_eq_ok, x25519Dh_eq_ok, pure_eq_ok_iff]
  constructor
  · rintro ⟨mid, skips, out, ⟨accepted, nonzero, rfl⟩, out', ⟨-, nonzero', rfl⟩, rfl⟩
    exact ⟨mid, skips, accepted, nonzero, nonzero', rfl⟩
  · rintro ⟨mid, skips, accepted, nonzero, nonzero', rfl⟩
    exact ⟨mid, skips, _, ⟨accepted, nonzero, rfl⟩, _, ⟨accepted, nonzero', rfl⟩, rfl⟩

omit [DecidableEq Key] in
/-- `encrypt` fails and changes nothing, or steps the chain key and then seals or fails. -/
theorem encrypt_cases (s : RatchetState Key Priv) (plaintext ad : Bytes) :
    (∃ err, encrypt P s plaintext ad = (.error err, s)) ∨
      ∃ chain, s.sendChainKey = some chain ∧ s.sendN < maxMsgPerChain ∧
        ((∃ err, s.sendHeader.encode = .error err ∧ encrypt P s plaintext ad =
            (.error err, { s with sendChainKey := some (nextChain P chain) })) ∨
          ∃ encoded, s.sendHeader.encode = .ok encoded ∧ encrypt P s plaintext ad =
            (.ok (s.sendHeader, sealBox P chain s.sendHeader encoded plaintext ad),
              { s with
                sendChainKey := some (nextChain P chain)
                sendN := s.sendN + 1 })) := by
  unfold encrypt
  cases hasChain : s.sendChainKey with
  | none => exact .inl ⟨_, rfl⟩
  | some chain =>
    by_cases exhausted : maxMsgPerChain ≤ s.sendN
    · exact .inl ⟨.sendChainExhausted, by simp only [if_pos exhausted]⟩
    · refine .inr ⟨chain, rfl, by omega, ?_⟩
      simp only [if_neg exhausted]
      cases s.sendHeader.encode with
      | error err => exact .inl ⟨err, rfl, rfl⟩
      | ok encoded => exact .inr ⟨encoded, rfl, rfl⟩

omit [DecidableEq Key] in
theorem encrypt_of_ready {s : RatchetState Key Priv} {chain : Key} {encoded plaintext ad : Bytes}
    (hasChain : s.sendChainKey = some chain) (room : s.sendN < maxMsgPerChain)
    (encodes : s.sendHeader.encode = .ok encoded) :
    encrypt P s plaintext ad =
      (.ok (s.sendHeader, sealBox P chain s.sendHeader encoded plaintext ad),
        { s with
          sendChainKey := some (nextChain P chain)
          sendN := s.sendN + 1 }) := by
  simp only [encrypt, hasChain, if_neg (Nat.not_le.mpr room), encodes]

section Open

variable {P} {boxes : List (Box Key)} {s s' : RatchetState Key Priv} {header : Header}
  {ciphertext ad plaintext : Bytes} {fresh : Priv}

theorem openUnder_eq_ok {msgKey : Key} :
    openUnder boxes msgKey header ciphertext ad = .ok plaintext ↔
      ∃ encoded, header.encode = .ok encoded ∧
        aeadDecrypt boxes msgKey (aeadNonce header.n) ciphertext (encoded ++ ad) =
          .ok plaintext := by
  simp only [openUnder, bind_eq_ok]

/-- `decrypt` opened with a stashed key. -/
def OpensLate (boxes : List (Box Key)) (s : RatchetState Key Priv) (header : Header)
    (ciphertext ad plaintext : Bytes) (s' : RatchetState Key Priv) : Prop :=
  ∃ msgKey, s.skipped.get? header.id = some msgKey ∧
    openUnder boxes msgKey header ciphertext ad = .ok plaintext ∧
    { s with skipped := s.skipped.erase header.id }.markSeen header.id = s'

/-- `decrypt` opened at the head of the receiving chain, ratcheting and skipping first. -/
def OpensAhead (P : Primitives Key Priv) (boxes : List (Box Key)) (s : RatchetState Key Priv)
    (header : Header) (ciphertext ad : Bytes) (fresh : Priv) (plaintext : Bytes)
    (s' : RatchetState Key Priv) : Prop :=
  s.skipped.get? header.id = none ∧
    ∃ ratcheted advanced chain, ratchetIfNew P s header fresh = .ok ratcheted ∧
      advanceTo P ratcheted header.n = .ok advanced ∧
      advanced.recvChainKey = some chain ∧
      openUnder boxes (messageKey P chain) header ciphertext ad = .ok plaintext ∧
      { advanced with
        recvChainKey := some (nextChain P chain)
        recvN := advanced.recvN + 1 }.markSeen header.id = s'

theorem trySkipped_eq_ok (unseen : header.id ∉ s.decryptedSeen.keys)
    {result : Option (Bytes × RatchetState Key Priv)} :
    trySkipped boxes s header ciphertext ad = .ok result ↔
      (result = none ∧ s.skipped.get? header.id = none) ∨
        ∃ plaintext s', result = some (plaintext, s') ∧
          OpensLate boxes s header ciphertext ad plaintext s' := by
  unfold trySkipped OpensLate
  cases stashed : s.skipped.get? header.id with
  | none => simp [pure, Except.pure, eq_comm]
  | some msgKey =>
    simp only [if_neg unseen, bind_eq_ok, pure_eq_ok_iff, Option.some.injEq, reduceCtorEq,
      and_false, false_or]
    constructor
    · rintro ⟨plaintext, opened, rfl⟩
      exact ⟨plaintext, _, rfl, msgKey, rfl, opened, rfl⟩
    · rintro ⟨plaintext, s', rfl, key, rfl, opened, rfl⟩
      exact ⟨plaintext, opened, rfl⟩

theorem openHead_eq_ok :
    openHead P boxes s header ciphertext ad = .ok (plaintext, s') ↔
      ∃ chain, s.recvChainKey = some chain ∧
        openUnder boxes (messageKey P chain) header ciphertext ad = .ok plaintext ∧
        { s with
          recvChainKey := some (nextChain P chain)
          recvN := s.recvN + 1 }.markSeen header.id = s' := by
  unfold openHead
  cases s.recvChainKey with
  | none => simp [throw, throwThe, MonadExceptOf.throw]
  | some chain =>
    simp only [kdfChain, bind_eq_ok, pure_eq_ok_iff, Prod.mk.injEq, Option.some.injEq]
    constructor
    · rintro ⟨opened, openedOk, rfl, rfl⟩
      exact ⟨chain, rfl, openedOk, rfl⟩
    · rintro ⟨_, rfl, openedOk, rfl⟩
      exact ⟨plaintext, openedOk, rfl, rfl⟩

/-- A `decrypt` that returns opened the frame in one of two ways. -/
theorem decrypt_eq_ok :
    decrypt P boxes s header ciphertext ad fresh = .ok (plaintext, s') ↔
      header.id ∉ s.decryptedSeen.keys ∧
        (OpensLate boxes s header ciphertext ad plaintext s' ∨
          OpensAhead P boxes s header ciphertext ad fresh plaintext s') := by
  simp only [decrypt, bind_eq_ok, require_eq_ok, exists_const]
  refine and_congr_right fun unseen => ?_
  simp only [trySkipped_eq_ok unseen]
  constructor
  · rintro ⟨result, ⟨rfl, unstashed⟩ | ⟨plaintext', s'', rfl, late⟩, rest⟩
    · simp only [bind_eq_ok, openHead_eq_ok] at rest
      obtain ⟨ratcheted, ratchets, advanced, advances, chain, hasChain, opened, rfl⟩ := rest
      exact .inr ⟨unstashed, ratcheted, advanced, chain, ratchets, advances, hasChain, opened,
        rfl⟩
    · simp only [pure_eq_ok_iff, Prod.mk.injEq] at rest
      obtain ⟨rfl, rfl⟩ := rest
      exact .inl late
  · rintro (late | ⟨unstashed, ratcheted, advanced, chain, ratchets, advances, hasChain, opened,
      rfl⟩)
    · exact ⟨_, .inr ⟨plaintext, s', rfl, late⟩, rfl⟩
    · refine ⟨none, .inl ⟨rfl, unstashed⟩, ?_⟩
      simp only [bind_eq_ok, openHead_eq_ok]
      exact ⟨ratcheted, ratchets, advanced, advances, chain, hasChain, opened, rfl⟩

end Open

end OneLink.DoubleRatchet
