/-
# GroupsCrypto.Chain — sender chains and receiving chains

`encrypt_message` seals one message at the head of a hash chain and steps it;
`decrypt_message` opens a frame below, at or above the head of the receiving
chain, stashing the message keys of the counters it passes over.

A returned `decrypt_message` did one of two things, `openLate` or `openAhead`,
after passing every check; `decryptMessage_eq_ok` says so once, and the
results about runs read from it.

HMAC, the AEAD and Ed25519 are imported by the module: they are the fields of
`Primitives`.
-/
import OneLink.GroupsCrypto.Wire
import Mathlib.Data.Finset.Card
import Mathlib.Logic.Function.Iterate

namespace OneLink.GroupsCrypto

open Library

set_option autoImplicit false

structure Primitives where
  hmacSha256 : (key info : Bytes) → Bytes
  /-- `ChaCha20Poly1305(key).encrypt(nonce, plaintext, aad)` -/
  aeadEncrypt : (key nonce plaintext aad : Bytes) → Bytes
  /-- `ChaCha20Poly1305(key).decrypt(nonce, ciphertext, aad)`; `none` is `InvalidTag`. -/
  aeadDecrypt : (key nonce ciphertext aad : Bytes) → Option Bytes
  /-- `private_key.public_key().public_bytes_raw()` -/
  ed25519Public : (privateKey : Bytes) → Bytes
  ed25519Sign : (privateKey message : Bytes) → Bytes
  ed25519Verify : (pubkey signature message : Bytes) → Bool

structure SenderChain where
  groupId : Bytes
  senderPubkey : Bytes
  epoch : Nat
  chainKey : Bytes
  counter : Nat
  deriving DecidableEq

structure ReceivingChain where
  groupId : Bytes
  senderPubkey : Bytes
  epoch : Nat
  chainKey : Bytes
  counter : Nat
  seenCounters : Finset Nat
  skipped : OrderedDict Nat Bytes
  deriving DecidableEq

variable (P : Primitives)

/-! ## Chain primitives -/

def deriveMessageKey (chainKey : Bytes) : Except CryptoError Bytes := do
  require (chainKey.length = chainKeyBytes) (.chainKeyLength chainKey.length)
  return P.hmacSha256 chainKey (ascii "msg")

def advanceChainKey (chainKey : Bytes) : Except CryptoError Bytes := do
  require (chainKey.length = chainKeyBytes) (.chainKeyLength chainKey.length)
  return P.hmacSha256 chainKey (ascii "next")

def encryptWithMsgKey (msgKey plaintext groupId senderPubkey : Bytes) (epoch counter : Nat)
    (nonceSalt : Bytes) : Except CryptoError Bytes := do
  require (msgKey.length = chainKeyBytes) .msgKeyLength
  require (plaintext.length ≤ maxMessagePlaintextBytes) .plaintextTooLarge
  let nonce ← buildNonceV3 nonceSalt
  let aad ← aadV3 groupId senderPubkey epoch counter nonceSalt
  return P.aeadEncrypt msgKey nonce plaintext aad

def decryptWithMsgKey (msgKey : Bytes) (f : Frame) : Except CryptoError Bytes := do
  let (nonce, aad) ← nonceAndAad f.version f.groupId f.senderPubkey f.epoch f.counter f.nonceSalt
  match P.aeadDecrypt msgKey nonce f.ciphertext aad with
  | some plaintext => return plaintext
  | none => throw .authenticationFailed

/-! ## Validation -/

def validateGroupAndSender (groupId senderPubkey : Bytes) : Except CryptoError Unit := do
  require (groupId.length = 16) .groupIdLength
  require (senderPubkey.length = 32) .senderPubkeyLength

def validateChainCoordinates (chain : SenderChain) : Except CryptoError Unit := do
  validateGroupAndSender chain.groupId chain.senderPubkey
  require (0 < chain.epoch ∧ chain.epoch ≤ uint32Max) .epochNotPositiveU32
  require (chain.counter ≤ uint32Max) .counterNotU32

def validateReceivingChain (chain : ReceivingChain) : Except CryptoError Unit := do
  validateGroupAndSender chain.groupId chain.senderPubkey
  require (chain.chainKey.length = chainKeyBytes) (.chainKeyLength chain.chainKey.length)
  require (0 < chain.epoch ∧ chain.epoch ≤ uint32Max) .epochNotPositiveU32
  require (chain.counter ≤ uint32Max) .counterNotU32
  require (chain.seenCounters.card ≤ maxSkipKeysGroup) .seenWindowExceeds
  require (chain.skipped.size ≤ maxSkipKeysGroup) .skippedWindowExceeds
  require (∀ counter ∈ chain.seenCounters, counter < chain.counter) .seenWindowMalformed
  require (∀ entry ∈ chain.skipped.items,
    entry.1 < chain.counter ∧ entry.2.length = chainKeyBytes) .skippedWindowMalformed

/-! ## Epochs -/

/-- `begin_new_epoch`; `freshKey` is the chain key drawn from the OS. -/
def beginNewEpoch (groupId senderPubkey : Bytes) (newEpoch : Nat) (freshKey : Bytes) :
    Except CryptoError SenderChain := do
  require (0 < newEpoch ∧ newEpoch ≤ uint32Max) .epochNotPositiveU32
  validateGroupAndSender groupId senderPubkey
  return { groupId, senderPubkey, epoch := newEpoch, chainKey := freshKey, counter := 0 }

def receiveNewEpoch (groupId senderPubkey : Bytes) (epoch : Nat) (chainKey : Bytes) :
    Except CryptoError ReceivingChain := do
  require (chainKey.length = chainKeyBytes) (.chainKeyLength chainKey.length)
  validateGroupAndSender groupId senderPubkey
  require (0 < epoch ∧ epoch ≤ uint32Max) .epochNotPositiveU32
  return { groupId, senderPubkey, epoch, chainKey, counter := 0, seenCounters := ∅,
           skipped := .empty }

/-! ## `encrypt_message` -/

/-- The frame `encrypt_message` emits, but for its signature. -/
def SenderChain.frame (chain : SenderChain) (nonceSalt ciphertext : Bytes) : Frame where
  version := .v3
  groupId := chain.groupId
  senderPubkey := chain.senderPubkey
  epoch := chain.epoch
  counter := chain.counter
  ciphertext := ciphertext
  signature := []
  nonceSalt := some nonceSalt

/-- The wire dict of a version 3 frame, in the order `encrypt_message` writes it. -/
def wireOf (f : Frame) (nonceSalt : Bytes) : Wire :=
  ⟨[("v", .str "OL-GROUP-MSG-3"),
    ("group_id_b64", .str (Base64Url.encode f.groupId)),
    ("sender_pubkey_b64", .str (Base64Url.encode f.senderPubkey)),
    ("epoch", .int f.epoch),
    ("counter", .int f.counter),
    ("nonce_salt_b64", .str (Base64Url.encode nonceSalt)),
    ("ciphertext_b64", .str (Base64Url.encode f.ciphertext)),
    ("signature_b64", .str (Base64Url.encode f.signature))], by simp⟩

/-- `encrypt_message`; `nonceSalt` is the salt drawn from the OS. -/
def encryptMessage (plaintext : Bytes) (chain : SenderChain) (privateKey nonceSalt : Bytes) :
    Except CryptoError (Wire × SenderChain) := do
  require (plaintext.length ≠ 0) .emptyPlaintext
  require (plaintext.length ≤ maxMessagePlaintextBytes) .plaintextTooLarge
  validateChainCoordinates chain
  require (P.ed25519Public privateKey = chain.senderPubkey) .privateKeyMismatch
  require (chain.counter ≠ uint32Max) .senderCounterExhausted
  let msgKey ← deriveMessageKey P chain.chainKey
  let ciphertext ← encryptWithMsgKey P msgKey plaintext chain.groupId chain.senderPubkey
    chain.epoch chain.counter nonceSalt
  let frame := chain.frame nonceSalt ciphertext
  let signature := P.ed25519Sign privateKey frame.sigInput
  let nextKey ← advanceChainKey P chain.chainKey
  return (wireOf { frame with signature } nonceSalt,
    { chain with chainKey := nextKey, counter := chain.counter + 1 })

/-! ## `decrypt_message` -/

def parseNonceSalt (version : WireVersion) (wire : Wire) : Except CryptoError (Option Bytes) :=
  match version with
  | .v1 => .ok none
  | .v2 => some <$> decodeExactB64 "nonce_salt_b64" legacyNonceSaltBytes (wire.get? "nonce_salt_b64")
  | .v3 => some <$> decodeExactB64 "nonce_salt_b64" nonceSaltBytes (wire.get? "nonce_salt_b64")

/-- Field checks and field decoding of `decrypt_message`. -/
def parseFrame (chain : ReceivingChain) (wire : Wire) : Except CryptoError Frame := do
  match WireVersion.ofValue? (wire.get? "v") with
  | none => throw .unsupportedVersion
  | some version =>
    let missing := version.fields.filter (· ∉ wire.keys)
    require (missing = []) (.missingFields (missing.insertionSort (· ≤ ·)))
    let extra := wire.keys.filter (· ∉ version.fields)
    require (extra = []) (.unknownFields (extra.insertionSort (· ≤ ·)))
    let groupId ← decodeExactB64 "group_id_b64" 16 (wire.get? "group_id_b64")
    require (groupId = chain.groupId) .groupIdMismatch
    let senderPubkey ← decodeExactB64 "sender_pubkey_b64" 32 (wire.get? "sender_pubkey_b64")
    require (senderPubkey = chain.senderPubkey) .senderPubkeyMismatch
    let epoch ← requireInt "epoch" (wire.get? "epoch")
    let counter ← requireInt "counter" (wire.get? "counter")
    require (0 < epoch ∧ epoch ≤ uint32Max) .epochNotPositiveU32
    require (0 ≤ counter ∧ counter ≤ uint32Max) .counterNotU32
    let text ← requireStr "ciphertext_b64" (wire.get? "ciphertext_b64")
    let ciphertext ← b64d "ciphertext_b64" maxMessageCiphertextBytes text
    require (tagBytes < ciphertext.length ∧ ciphertext.length ≤ maxMessageCiphertextBytes)
      .ciphertextLength
    let signature ← decodeExactB64 "signature_b64" 64 (wire.get? "signature_b64")
    let nonceSalt ← parseNonceSalt version wire
    return { version, groupId, senderPubkey, epoch := epoch.toNat, counter := counter.toNat,
             ciphertext, signature, nonceSalt }

/-- The loop over `range(chain.counter, counter)`: stash a key, step the chain. -/
def stashKeys : (gap counter : Nat) → (chainKey : Bytes) → OrderedDict Nat Bytes →
    Except CryptoError (Bytes × OrderedDict Nat Bytes)
  | 0, _, chainKey, skipped => .ok (chainKey, skipped)
  | gap + 1, counter, chainKey, skipped => do
    let stashed ← deriveMessageKey P chainKey
    let nextKey ← advanceChainKey P chainKey
    stashKeys gap (counter + 1) nextKey (skipped.set counter stashed)

/-- What opening a frame yields before the windows are pruned. -/
structure Opened where
  plaintext : Bytes
  nextChainKey : Bytes
  nextCounter : Nat
  skipped : OrderedDict Nat Bytes

/-- The branch `counter < chain.counter`. -/
def openLate (chain : ReceivingChain) (f : Frame) : Except CryptoError Opened := do
  match chain.skipped.get? f.counter with
  | none => throw (.outOfWindow f.counter chain.counter)
  | some msgKey =>
    let plaintext ← decryptWithMsgKey P msgKey f
    return { plaintext, nextChainKey := chain.chainKey, nextCounter := chain.counter,
             skipped := chain.skipped.erase f.counter }

/-- The branch `counter >= chain.counter`. -/
def openAhead (chain : ReceivingChain) (f : Frame) : Except CryptoError Opened := do
  let gap := f.counter - chain.counter
  require (gap ≤ maxSkipKeysGroup) (.tooManySkipped gap)
  let (chainKey, skipped) ← stashKeys P gap chain.counter chain.chainKey chain.skipped
  let msgKey ← deriveMessageKey P chainKey
  let plaintext ← decryptWithMsgKey P msgKey f
  let nextChainKey ← advanceChainKey P chainKey
  return { plaintext, nextChainKey, nextCounter := f.counter + 1, skipped }

def openFrame (chain : ReceivingChain) (f : Frame) : Except CryptoError Opened :=
  if f.counter < chain.counter then openLate P chain f else openAhead P chain f

def popOldest (skipped : OrderedDict Nat Bytes) : OrderedDict Nat Bytes :=
  match skipped.keys.min? with
  | none => skipped
  | some oldest => skipped.erase oldest

/-- `while len(skipped) > MAX_SKIP_KEYS_GROUP`: one entry goes each turn. -/
def boundSkipped (skipped : OrderedDict Nat Bytes) : OrderedDict Nat Bytes :=
  popOldest^[skipped.size - maxSkipKeysGroup] skipped

/-- The chain `decrypt_message` returns, windows pruned. -/
def ReceivingChain.settle (chain : ReceivingChain) (counter : Nat) (opened : Opened) :
    ReceivingChain :=
  { chain with
    chainKey := opened.nextChainKey
    counter := opened.nextCounter
    seenCounters := insert counter (chain.seenCounters.filter fun seen =>
      opened.nextCounter - maxSkipKeysGroup ≤ seen ∧ seen < opened.nextCounter)
    skipped := boundSkipped opened.skipped }

def decryptMessage (wire : Wire) (chain : ReceivingChain) :
    Except CryptoError (Bytes × ReceivingChain) := do
  validateReceivingChain chain
  let f ← parseFrame chain wire
  require (f.epoch = chain.epoch) (.epochMismatch chain.epoch f.epoch)
  require (f.counter ∉ chain.seenCounters) (.replay f.counter)
  require (P.ed25519Verify f.senderPubkey f.signature f.sigInput = true) .signatureDoesNotVerify
  let opened ← openFrame P chain f
  return (opened.plaintext, chain.settle f.counter opened)

/-! ## The hash chain -/

/-- The chain key after `n` steps from `k`. -/
def chainKeyAt (k : Bytes) (n : Nat) : Bytes := (fun key => P.hmacSha256 key (ascii "next"))^[n] k

/-- The message key at counter `n` of the chain from `k`. -/
def messageKeyAt (k : Bytes) (n : Nat) : Bytes := P.hmacSha256 (chainKeyAt P k n) (ascii "msg")

theorem chainKeyAt_succ (k : Bytes) (n : Nat) :
    chainKeyAt P k (n + 1) = P.hmacSha256 (chainKeyAt P k n) (ascii "next") :=
  Function.iterate_succ_apply' _ n k

theorem deriveMessageKey_eq_ok {chainKey key : Bytes} :
    deriveMessageKey P chainKey = .ok key ↔
      chainKey.length = chainKeyBytes ∧ P.hmacSha256 chainKey (ascii "msg") = key := by
  simp only [deriveMessageKey, bind_eq_ok, require_eq_ok, pure_eq_ok_iff, exists_const]

theorem advanceChainKey_eq_ok {chainKey key : Bytes} :
    advanceChainKey P chainKey = .ok key ↔
      chainKey.length = chainKeyBytes ∧ P.hmacSha256 chainKey (ascii "next") = key := by
  simp only [advanceChainKey, bind_eq_ok, require_eq_ok, pure_eq_ok_iff, exists_const]

/-- What the stash loop leaves: the chain stepped `gap` times, and the message
keys of the counters it stepped over. -/
theorem stashKeys_spec {k : Bytes} {gap counter : Nat} {skipped : OrderedDict Nat Bytes}
    {result : Bytes × OrderedDict Nat Bytes}
    (returned : stashKeys P gap counter (chainKeyAt P k counter) skipped = .ok result) :
    result.1 = chainKeyAt P k (counter + gap) ∧
      ∀ c, result.2.get? c =
        if counter ≤ c ∧ c < counter + gap then some (messageKeyAt P k c) else skipped.get? c := by
  induction gap generalizing counter skipped with
  | zero =>
    simp only [stashKeys, Except.ok.injEq] at returned
    subst returned
    refine ⟨rfl, fun c => ?_⟩
    rw [if_neg (by omega)]
  | succ gap ih =>
    simp only [stashKeys, bind_eq_ok, deriveMessageKey_eq_ok, advanceChainKey_eq_ok] at returned
    obtain ⟨stashed, ⟨-, rfl⟩, next, ⟨-, rfl⟩, rest⟩ := returned
    rw [← chainKeyAt_succ] at rest
    obtain ⟨key, entries⟩ := ih rest
    refine ⟨by rw [key]; congr 1; omega, fun c => ?_⟩
    rw [entries c, OrderedDict.get?_set]
    by_cases here : counter = c
    · subst here
      rw [if_neg (by omega), if_pos rfl, if_pos (by omega)]
      rfl
    · rw [if_neg here]
      by_cases inside : counter + 1 ≤ c ∧ c < counter + 1 + gap
      · rw [if_pos inside, if_pos (by omega)]
      · rw [if_neg inside, if_neg (by omega)]

/-- The loop runs through on any chain key of the right length. -/
theorem stashKeys_returns (long : ∀ key info, (P.hmacSha256 key info).length = chainKeyBytes)
    (gap counter : Nat) {chainKey : Bytes} (skipped : OrderedDict Nat Bytes)
    (valid : chainKey.length = chainKeyBytes) :
    ∃ result, stashKeys P gap counter chainKey skipped = .ok result := by
  induction gap generalizing counter chainKey skipped with
  | zero => exact ⟨_, rfl⟩
  | succ gap ih =>
    obtain ⟨result, rest⟩ : ∃ result, stashKeys P gap (counter + 1)
        (P.hmacSha256 chainKey (ascii "next"))
        (skipped.set counter (P.hmacSha256 chainKey (ascii "msg"))) = .ok result :=
      ih _ _ (long _ _)
    refine ⟨result, ?_⟩
    simp only [stashKeys, bind_eq_ok, deriveMessageKey_eq_ok, advanceChainKey_eq_ok]
    exact ⟨_, ⟨valid, rfl⟩, _, ⟨valid, rfl⟩, rest⟩

/-! ## The skipped window -/

theorem get?_popOldest {skipped : OrderedDict Nat Bytes} {c : Nat} {key : Bytes}
    (kept : (popOldest skipped).get? c = some key) : skipped.get? c = some key := by
  unfold popOldest at kept
  split at kept
  · exact kept
  · rw [OrderedDict.get?_erase] at kept
    split at kept
    · simp at kept
    · exact kept

theorem get?_boundSkipped {skipped : OrderedDict Nat Bytes} {c : Nat} {key : Bytes}
    (kept : (boundSkipped skipped).get? c = some key) : skipped.get? c = some key := by
  unfold boundSkipped at kept
  generalize skipped.size - maxSkipKeysGroup = turns at kept
  induction turns with
  | zero => exact kept
  | succ turns ih =>
    rw [Function.iterate_succ_apply'] at kept
    exact ih (get?_popOldest kept)

theorem size_popOldest {skipped : OrderedDict Nat Bytes} :
    (popOldest skipped).size = skipped.size - 1 := by
  unfold popOldest
  cases oldest : skipped.keys.min? with
  | none =>
    have empty : skipped.keys = [] := by simpa using oldest
    have := skipped.length_keys
    simp [empty] at this
    simp [← this]
  | some c =>
    have := skipped.size_erase_of_mem (List.min?_mem oldest)
    simp only
    omega

theorem size_boundSkipped (skipped : OrderedDict Nat Bytes) :
    (boundSkipped skipped).size ≤ maxSkipKeysGroup := by
  have turns : ∀ n, (popOldest^[n] skipped).size = skipped.size - n := by
    intro n
    induction n with
    | zero => rfl
    | succ n ih =>
      rw [Function.iterate_succ_apply', size_popOldest, ih]
      omega
  rw [boundSkipped, turns]
  omega

/-! ## What a returned call did -/

theorem validateReceivingChain_eq_ok {chain : ReceivingChain} :
    validateReceivingChain chain = .ok () ↔
      chain.groupId.length = 16 ∧ chain.senderPubkey.length = 32 ∧
      chain.chainKey.length = chainKeyBytes ∧ (0 < chain.epoch ∧ chain.epoch ≤ uint32Max) ∧
      chain.counter ≤ uint32Max ∧ chain.seenCounters.card ≤ maxSkipKeysGroup ∧
      chain.skipped.size ≤ maxSkipKeysGroup ∧
      (∀ counter ∈ chain.seenCounters, counter < chain.counter) ∧
      ∀ entry ∈ chain.skipped.items, entry.1 < chain.counter ∧ entry.2.length = chainKeyBytes := by
  simp only [validateReceivingChain, validateGroupAndSender, bind_eq_ok, require_eq_ok,
    exists_const, and_assoc]

/-- A parsed frame is what the wire dict says, with coordinates in range. -/
theorem parseFrame_eq_ok {chain : ReceivingChain} {wire : Wire} {f : Frame}
    (parsed : parseFrame chain wire = .ok f) :
    wire.get? "v" = some (.str f.version.text) ∧ wire.get? "epoch" = some (.int f.epoch) ∧
      wire.get? "counter" = some (.int f.counter) ∧ f.groupId = chain.groupId ∧
      f.senderPubkey = chain.senderPubkey ∧ f.epoch < 2 ^ 32 ∧ f.counter < 2 ^ 32 := by
  unfold parseFrame at parsed
  cases found : WireVersion.ofValue? (wire.get? "v") with
  | none => simp [found, throw, throwThe, MonadExceptOf.throw] at parsed
  | some version =>
    simp only [found, bind_eq_ok, require_eq_ok, exists_const, requireInt_eq_ok,
      pure_eq_ok_iff] at parsed
    obtain ⟨-, -, groupId, -, rfl, senderPubkey, -, rfl, epoch, epochField, counter, counterField,
      ⟨epochPos, epochLe⟩, ⟨counterNonneg, counterLe⟩, _, -, _, -, -, _, -, _, -, rfl⟩ := parsed
    refine ⟨WireVersion.eq_of_ofValue? found, ?_, ?_, rfl, rfl, ?_, ?_⟩
    · rw [epochField, Int.toNat_of_nonneg epochPos.le]
    · rw [counterField, Int.toNat_of_nonneg counterNonneg]
    · simp only [uint32Max] at epochLe ⊢
      omega
    · simp only [uint32Max] at counterLe ⊢
      omega

/-- Everything a returned call checked and did. -/
theorem decryptMessage_eq_ok {wire : Wire} {chain next : ReceivingChain} {plaintext : Bytes}
    (returned : decryptMessage P wire chain = .ok (plaintext, next)) :
    validateReceivingChain chain = .ok () ∧
    ∃ f opened, parseFrame chain wire = .ok f ∧ f.epoch = chain.epoch ∧
      f.counter ∉ chain.seenCounters ∧
      openFrame P chain f = .ok opened ∧
      plaintext = opened.plaintext ∧ next = chain.settle f.counter opened := by
  simp only [decryptMessage, bind_eq_ok, require_eq_ok, exists_const, pure_eq_ok_iff,
    Prod.mk.injEq] at returned
  obtain ⟨u, valid, f, parsed, epoch, unseen, -, opened, done, rfl, rfl⟩ := returned
  exact ⟨valid, f, opened, parsed, epoch, unseen, done, rfl, rfl⟩

theorem openLate_eq_ok {chain : ReceivingChain} {f : Frame} {opened : Opened} :
    openLate P chain f = .ok opened ↔
      ∃ msgKey, chain.skipped.get? f.counter = some msgKey ∧
        ∃ plaintext, decryptWithMsgKey P msgKey f = .ok plaintext ∧
          opened = ⟨plaintext, chain.chainKey, chain.counter, chain.skipped.erase f.counter⟩ := by
  unfold openLate
  cases found : chain.skipped.get? f.counter with
  | none => simp [throw, throwThe, MonadExceptOf.throw]
  | some msgKey =>
    simp only [bind_eq_ok, pure_eq_ok_iff, Option.some.injEq, exists_eq_left']
    simp only [eq_comm]

theorem openAhead_eq_ok {chain : ReceivingChain} {f : Frame} {opened : Opened}
    (returned : openAhead P chain f = .ok opened) :
    f.counter - chain.counter ≤ maxSkipKeysGroup ∧
      ∃ chainKey, stashKeys P (f.counter - chain.counter) chain.counter chain.chainKey
          chain.skipped = .ok (chainKey, opened.skipped) ∧
        decryptWithMsgKey P (P.hmacSha256 chainKey (ascii "msg")) f = .ok opened.plaintext ∧
        opened.nextChainKey = P.hmacSha256 chainKey (ascii "next") ∧
        opened.nextCounter = f.counter + 1 := by
  simp only [openAhead, bind_eq_ok, require_eq_ok, exists_const, pure_eq_ok_iff,
    deriveMessageKey_eq_ok, advanceChainKey_eq_ok] at returned
  obtain ⟨gap, ⟨chainKey, skipped⟩, stashed, _, ⟨-, rfl⟩, plaintext, decrypted, _, ⟨-, rfl⟩, rfl⟩ :=
    returned
  exact ⟨gap, chainKey, stashed, decrypted, rfl, rfl⟩

end OneLink.GroupsCrypto
