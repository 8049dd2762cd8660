/-
# State.GroupRestart -- the durable half of a receiving chain, and which steps survive a restart

`commit_group_ratchet_boundary` over the table of sender chains, and the chain the
daemon rebuilds from its row.  A row holds the chain key and the counter; the
windows of the chain in memory are not in it.

A chain survives the restart after a frame when the boundary commits and the
rebuilt chain opens what the chain in memory opens (`SurvivesRestart`).

A late frame is opened without moving the counter, and the boundary refuses it.  A
frame ahead stashes keys that no row holds.  What survives is a frame at the head of
a chain whose stash has nothing left to open; `restart_iff_persistable` is the
exact condition, for chains and frames of any shape.
-/
import OneLink.GroupsCrypto.NeverBricks

namespace OneLink.State

open Library GroupsCrypto

set_option autoImplicit false

inductive Direction where
  | inbound
  | outbound
  deriving DecidableEq, Repr

/-- The primary key of `group_sender_chains`. -/
structure ChainSlot where
  groupId : Bytes
  senderPub : Bytes
  direction : Direction
  epoch : Nat
  deriving DecidableEq

structure SenderChainRow where
  /-- The chain key at rest: cleartext, or wrapped by the lockbox. -/
  chainKey : Bytes
  counter : Nat
  updatedMs : Int

abbrev SenderChains : Type := OrderedDict ChainSlot SenderChainRow

/-- The passphrase lockbox; `nonce` is the nonce drawn by `wrap`. -/
structure LockBox where
  wrap : (nonce plaintext : Bytes) → Bytes
  unwrap : Bytes → Option Bytes

inductive GroupStateError where
  | invalidIdentity
  | keyLength
  | counterMustAdvance
  | stateChanged
  | storedKeyLength (length : Nat)
  | lockboxMissing
  | unwrapFailed
  | boundaryRow
  deriving DecidableEq, Repr

namespace GroupStateError

def message : GroupStateError → String
  | invalidIdentity => "invalid group ratchet identity"
  | keyLength => "group ratchet keys must be 32 bytes"
  | counterMustAdvance => "group ratchet counter must advance"
  | stateChanged => "group ratchet state changed before durable commit"
  | storedKeyLength length => "invalid stored chain_key length: " ++ toString length
  | lockboxMissing => "found a non-cleartext chain_key but no lockbox is configured " ++
      "(was ONE_LINK_PASSPHRASE removed?)"
  | unwrapFailed => "unwrap failed"
  | boundaryRow => "a message, receipt, action or outbox row was refused"

end GroupStateError

def maybeWrap (lockbox : Option LockBox) (nonce plaintext : Bytes) : Bytes :=
  match lockbox with
  | none => plaintext
  | some box => box.wrap nonce plaintext

/-- The chain key and counter of a row. -/
structure ChainHead where
  chainKey : Bytes
  counter : Nat
  deriving DecidableEq

def openStoredKey (lockbox : Option LockBox) (stored : Bytes) : Except GroupStateError Bytes :=
  if stored.length = 61 then
    match lockbox with
    | none => .error .lockboxMissing
    | some box =>
      match box.unwrap stored with
      | none => .error .unwrapFailed
      | some key => .ok key
  else if stored.length = 32 then .ok stored
  else .error (.storedKeyLength stored.length)

def getSenderChain (lockbox : Option LockBox) (chains : SenderChains) (slot : ChainSlot) :
    Except GroupStateError (Option ChainHead) :=
  match chains.get? slot with
  | none => .ok none
  | some row => do
    let chainKey ← openStoredKey lockbox row.chainKey
    return some ⟨chainKey, row.counter⟩

def upsertSenderChain (lockbox : Option LockBox) (nonce : Bytes) (nowMs : Int)
    (chains : SenderChains) (slot : ChainSlot) (head : ChainHead) : SenderChains :=
  OrderedDict.set chains slot ⟨maybeWrap lockbox nonce head.chainKey, head.counter, nowMs⟩

/-- `commit_group_ratchet_boundary`; `others` is the outcome of the message,
receipt, action and outbox rows of the same transaction, which rolls back on an error. -/
def commitGroupRatchetBoundary (lockbox : Option LockBox) (nonce : Bytes) (nowMs : Int)
    (chains : SenderChains) (slot : ChainSlot) (expected advanced : ChainHead)
    (others : Except GroupStateError Unit) : Except GroupStateError SenderChains := do
  require (slot.groupId.length = 16 ∧ slot.senderPub.length = 32) .invalidIdentity
  require (expected.chainKey.length = 32 ∧ advanced.chainKey.length = 32) .keyLength
  require (¬ advanced.counter ≤ expected.counter) .counterMustAdvance
  let current ← getSenderChain lockbox chains slot
  require (current = some expected) .stateChanged
  others
  return upsertSenderChain lockbox nonce nowMs chains slot advanced

/-! ## The chain in memory and the chain on disk -/

def slotOf (chain : ReceivingChain) : ChainSlot :=
  ⟨chain.groupId, chain.senderPubkey, .inbound, chain.epoch⟩

def headOf (chain : ReceivingChain) : ChainHead := ⟨chain.chainKey, chain.counter⟩

/-- The chain the receive handler builds from a row, its windows empty. -/
def receivingChain (slot : ChainSlot) (head : ChainHead) : ReceivingChain where
  groupId := slot.groupId
  senderPubkey := slot.senderPub
  epoch := slot.epoch
  chainKey := head.chainKey
  counter := head.counter
  seenCounters := ∅
  skipped := .empty

/-- The chain decrypts the frame to the plaintext. -/
def Opens (P : Primitives) (chain : ReceivingChain) (wire : Wire) (plaintext : Bytes) : Prop :=
  ∃ next, decryptMessage P wire chain = .ok (plaintext, next)

/-- The step from `chain` to `next` commits, and the chain loaded after it opens
exactly the frames `next` opens. -/
def SurvivesRestart (P : Primitives) (lockbox : Option LockBox) (nonce : Bytes) (nowMs : Int)
    (chains : SenderChains) (chain next : ReceivingChain) : Prop :=
  ∃ chains', commitGroupRatchetBoundary lockbox nonce nowMs chains (slotOf chain) (headOf chain)
      (headOf next) (.ok ()) = .ok chains' ∧
    ∃ head, getSenderChain lockbox chains' (slotOf chain) = .ok (some head) ∧
      ∀ wire plaintext,
        Opens P (receivingChain (slotOf chain) head) wire plaintext ↔ Opens P next wire plaintext

/-- What a lockbox promises of the 32-byte keys it wraps. -/
def LockBox.Correct (box : LockBox) : Prop :=
  ∀ nonce key, key.length = 32 →
    (box.wrap nonce key).length = 61 ∧ box.unwrap (box.wrap nonce key) = some key

theorem getSenderChain_upsert {lockbox : Option LockBox}
    (correct : ∀ box ∈ lockbox, box.Correct) (nonce : Bytes) (nowMs : Int) (chains : SenderChains)
    (slot : ChainSlot) {head : ChainHead} (long : head.chainKey.length = 32) :
    getSenderChain lockbox (upsertSenderChain lockbox nonce nowMs chains slot head) slot =
      .ok (some head) := by
  have stored : openStoredKey lockbox (maybeWrap lockbox nonce head.chainKey) =
      .ok head.chainKey := by
    cases lockbox with
    | none => simp [openStoredKey, maybeWrap, long]
    | some box =>
      obtain ⟨wrapped, unwraps⟩ := correct box rfl nonce head.chainKey long
      simp [openStoredKey, maybeWrap, wrapped, unwraps]
  unfold getSenderChain upsertSenderChain
  rw [OrderedDict.get?_set_self]
  simp only [stored]
  rfl

/-- The boundary of a chain commits exactly when the counter has moved. -/
theorem commitGroupRatchetBoundary_iff {lockbox : Option LockBox}
    {nonce : Bytes} {nowMs : Int} {chains chains' : SenderChains} {chain next : ReceivingChain}
    (valid : validateReceivingChain chain = .ok ()) (long : next.chainKey.length = chainKeyBytes)
    (stored : getSenderChain lockbox chains (slotOf chain) = .ok (some (headOf chain))) :
    commitGroupRatchetBoundary lockbox nonce nowMs chains (slotOf chain) (headOf chain)
        (headOf next) (.ok ()) = .ok chains' ↔
      chain.counter < next.counter ∧
        upsertSenderChain lockbox nonce nowMs chains (slotOf chain) (headOf next) = chains' := by
  obtain ⟨gid, pk, key, -⟩ := validateReceivingChain_eq_ok.mp valid
  simp only [commitGroupRatchetBoundary, bind_eq_ok, require_eq_ok, exists_const, pure_eq_ok_iff,
    stored, Except.ok.injEq, exists_eq_left', true_and]
  constructor
  · rintro ⟨-, -, moved, committed⟩
    exact ⟨not_le.mp moved, committed⟩
  · rintro ⟨moved, committed⟩
    exact ⟨⟨gid, pk⟩, ⟨key, long⟩, not_le.mpr moved, committed⟩

variable {P : Primitives}

/-! ## Opening, inverted -/

theorem opens_iff {chain : ReceivingChain} {wire : Wire} {plaintext : Bytes} :
    Opens P chain wire plaintext ↔
      validateReceivingChain chain = .ok () ∧
      ∃ f, parseFrame chain wire = .ok f ∧ f.epoch = chain.epoch ∧
        f.counter ∉ chain.seenCounters ∧ P.ed25519Verify f.senderPubkey f.signature f.sigInput ∧
        ∃ opened, openFrame P chain f = .ok opened ∧ opened.plaintext = plaintext := by
  simp only [Opens, decryptMessage, bind_eq_ok, require_eq_ok, exists_const, pure_eq_ok_iff,
    Prod.mk.injEq]
  constructor
  · rintro ⟨next, ⟨⟩, valid, f, parsed, epoch, unseen, signed, opened, done, same, -⟩
    exact ⟨valid, f, parsed, epoch, unseen, signed, opened, done, same⟩
  · rintro ⟨valid, f, parsed, epoch, unseen, signed, opened, done, same⟩
    exact ⟨_, (), valid, f, parsed, epoch, unseen, signed, opened, done, same, rfl⟩

theorem parseFrame_congr {chain chain' : ReceivingChain} (group : chain.groupId = chain'.groupId)
    (sender : chain.senderPubkey = chain'.senderPubkey) (wire : Wire) :
    parseFrame chain wire = parseFrame chain' wire := by
  unfold parseFrame
  rw [group, sender]

/-- The stash loop steps the chain key whatever is stashed already. -/
theorem stashKeys_any {gap counter : Nat} {chainKey reached : Bytes}
    {skipped stashed : OrderedDict Nat Bytes}
    (returned : stashKeys P gap counter chainKey skipped = .ok (reached, stashed))
    (skipped' : OrderedDict Nat Bytes) :
    ∃ stashed', stashKeys P gap counter chainKey skipped' = .ok (reached, stashed') := by
  induction gap generalizing counter chainKey skipped skipped' with
  | zero =>
    simp only [stashKeys, Except.ok.injEq, Prod.mk.injEq] at returned
    exact ⟨skipped', by simp [stashKeys, returned.1]⟩
  | succ gap ih =>
    simp only [stashKeys, bind_eq_ok] at returned ⊢
    obtain ⟨key, derived, next, advanced, rest⟩ := returned
    obtain ⟨stashed', again⟩ := ih rest (skipped'.set counter key)
    exact ⟨stashed', key, derived, next, advanced, again⟩

/-- Two chains at the same head open the same frames at or above it. -/
theorem openAhead_any {chain chain' : ReceivingChain} {f : Frame} {opened : Opened}
    (key : chain.chainKey = chain'.chainKey) (counter : chain.counter = chain'.counter)
    (done : openAhead P chain f = .ok opened) :
    ∃ opened', openAhead P chain' f = .ok opened' ∧ opened'.plaintext = opened.plaintext := by
  simp only [openAhead, bind_eq_ok, require_eq_ok, exists_const, pure_eq_ok_iff] at done ⊢
  obtain ⟨gap, ⟨reached, stashed⟩, stashing, msgKey, derived, plaintext, opens, next, advanced,
    rfl⟩ := done
  rw [key, counter] at stashing
  obtain ⟨stashed', again⟩ := stashKeys_any stashing chain'.skipped
  exact ⟨_, ⟨by rwa [← counter], (reached, stashed'), again, msgKey, derived, plaintext, opens,
    next, advanced, rfl⟩, rfl⟩

/-- The chain as a restart leaves it. -/
def reloaded (chain : ReceivingChain) : ReceivingChain :=
  receivingChain (slotOf chain) (headOf chain)

/-- A chain whose stashed counters have all been seen opens nothing below its head. -/
theorem opens_reloaded_iff {chain : ReceivingChain}
    (valid : validateReceivingChain chain = .ok () ↔ validateReceivingChain (reloaded chain) = .ok ())
    (below : ∀ c ∈ chain.seenCounters, c < chain.counter)
    (spent : ∀ c key, chain.skipped.get? c = some key → c ∈ chain.seenCounters)
    (wire : Wire) (plaintext : Bytes) :
    Opens P (reloaded chain) wire plaintext ↔ Opens P chain wire plaintext := by
  have parse : parseFrame (reloaded chain) wire = parseFrame chain wire := parseFrame_congr rfl rfl wire
  rw [opens_iff, opens_iff, valid, parse]
  apply and_congr_right
  intro _
  apply exists_congr
  intro f
  apply and_congr_right
  intro _
  apply and_congr_right
  intro _
  by_cases late : f.counter < chain.counter
  · have noneLoaded : ∀ opened, openFrame P (reloaded chain) f ≠ .ok opened := by
      intro opened done
      rw [openFrame, if_pos (show f.counter < (reloaded chain).counter from late)] at done
      obtain ⟨msgKey, stashed, -⟩ := (openLate_eq_ok P).mp done
      cases stashed
    constructor
    · rintro ⟨-, -, opened, done, -⟩
      exact absurd done (noneLoaded opened)
    · rintro ⟨unseen, -, opened, done, -⟩
      rw [openFrame, if_pos late] at done
      obtain ⟨msgKey, stashed, -⟩ := (openLate_eq_ok P).mp done
      exact absurd (spent _ _ stashed) unseen
  · have unseen : f.counter ∉ chain.seenCounters := fun seen => late (below _ seen)
    have ahead : openFrame P chain f = openAhead P chain f := if_neg late
    have ahead' : openFrame P (reloaded chain) f = openAhead P (reloaded chain) f := if_neg late
    have key : (reloaded chain).chainKey = chain.chainKey := rfl
    have counter : (reloaded chain).counter = chain.counter := rfl
    rw [ahead, ahead']
    constructor
    · rintro ⟨-, signed, opened, done, same⟩
      obtain ⟨opened', done', same'⟩ := openAhead_any key counter done
      exact ⟨unseen, signed, opened', done', same'.trans same⟩
    · rintro ⟨-, signed, opened, done, same⟩
      obtain ⟨opened', done', same'⟩ := openAhead_any key.symm counter.symm done
      exact ⟨Finset.notMem_empty _, signed, opened', done', same'.trans same⟩

/-! ## What a step leaves -/

/-- The keys the stash loop adds, each of the length of a chain key. -/
theorem stashKeys_stashed (long : ∀ key info, (P.hmacSha256 key info).length = chainKeyBytes)
    {gap counter : Nat} {chainKey reached : Bytes} {skipped stashed : OrderedDict Nat Bytes}
    (returned : stashKeys P gap counter chainKey skipped = .ok (reached, stashed)) (c : Nat) :
    (counter ≤ c → c < counter + gap →
      ∃ key, stashed.get? c = some key ∧ key.length = chainKeyBytes) ∧
    (¬ (counter ≤ c ∧ c < counter + gap) → stashed.get? c = skipped.get? c) := by
  induction gap generalizing counter chainKey skipped with
  | zero =>
    simp only [stashKeys, Except.ok.injEq, Prod.mk.injEq] at returned
    rw [← returned.2]
    exact ⟨fun low high => by omega, fun _ => rfl⟩
  | succ gap ih =>
    simp only [stashKeys, bind_eq_ok, deriveMessageKey_eq_ok] at returned
    obtain ⟨key, ⟨-, rfl⟩, next, -, rest⟩ := returned
    obtain ⟨added, kept⟩ := ih rest
    constructor
    · intro low high
      rcases Nat.eq_or_lt_of_le low with rfl | low
      · rw [kept (by omega), OrderedDict.get?_set_self]
        exact ⟨_, rfl, long _ _⟩
      · exact added low (by omega)
    · intro outside
      rw [kept (by omega), OrderedDict.get?_set_of_ne _ (by omega)]

theorem get?_popOldest_highest {skipped : OrderedDict Nat Bytes} {top : Nat}
    (highest : ∀ c key, skipped.get? c = some key → c ≤ top) (several : 2 ≤ skipped.size) :
    (popOldest skipped).get? top = skipped.get? top := by
  unfold popOldest
  cases lowest : skipped.keys.min? with
  | none => rfl
  | some oldest =>
    obtain ⟨-, minimal⟩ := List.min?_eq_some_iff.mp lowest
    have ne : oldest ≠ top := by
      rintro rfl
      have alone : skipped.keys ⊆ [oldest] := by
        intro c present
        obtain ⟨key, stashed⟩ := skipped.mem_keys_iff.mp present
        exact List.mem_singleton.mpr (le_antisymm (highest c key stashed) (minimal c present))
      have short := skipped.nodup_keys.length_le_of_subset alone
      rw [skipped.length_keys, List.length_singleton] at short
      omega
    exact OrderedDict.get?_erase_of_ne _ ne

/-- The window never drops its highest counter. -/
theorem get?_boundSkipped_highest {skipped : OrderedDict Nat Bytes} {top : Nat}
    (highest : ∀ c key, skipped.get? c = some key → c ≤ top) :
    (boundSkipped skipped).get? top = skipped.get? top := by
  unfold boundSkipped
  have turns : ∀ n, n ≤ skipped.size - maxSkipKeysGroup →
      (popOldest^[n] skipped).get? top = skipped.get? top ∧
        (popOldest^[n] skipped).size = skipped.size - n ∧
        ∀ c key, (popOldest^[n] skipped).get? c = some key → c ≤ top := by
    intro n
    induction n with
    | zero => exact fun _ => ⟨rfl, rfl, highest⟩
    | succ n ih =>
      intro room
      obtain ⟨same, size, low⟩ := ih (by omega)
      have several : 2 ≤ (popOldest^[n] skipped).size := by
        simp only [maxSkipKeysGroup] at room
        omega
      rw [Function.iterate_succ_apply']
      refine ⟨(get?_popOldest_highest low several).trans same, ?_, ?_⟩
      · rw [size_popOldest, size]
        omega
      · intro c key kept
        exact low c key (get?_popOldest kept)
  exact (turns _ le_rfl).1

theorem mem_seen_settle {chain : ReceivingChain} {c s : Nat} {opened : Opened} :
    s ∈ (chain.settle c opened).seenCounters ↔
      s = c ∨ s ∈ chain.seenCounters ∧
        opened.nextCounter - maxSkipKeysGroup ≤ s ∧ s < opened.nextCounter := by
  simp only [ReceivingChain.settle, Finset.mem_insert, Finset.mem_filter]

/-- A frame at the head leaves the stash as it is. -/
theorem skipped_settle_head {chain : ReceivingChain}
    (valid : validateReceivingChain chain = .ok ()) {f : Frame} {opened : Opened}
    (head : f.counter = chain.counter) (done : openFrame P chain f = .ok opened) :
    (chain.settle f.counter opened).skipped = chain.skipped := by
  obtain ⟨-, -, -, -, -, -, small, -⟩ := validateReceivingChain_eq_ok.mp valid
  rw [openFrame, if_neg (by omega)] at done
  obtain ⟨-, reached, stashing, -⟩ := openAhead_eq_ok P done
  simp only [head, Nat.sub_self, stashKeys, Except.ok.injEq, Prod.mk.injEq] at stashing
  simp only [ReceivingChain.settle, ← stashing.2, boundSkipped_of_size_le small]

/-- A validated chain after a frame at or above its head. -/
theorem settle_ahead (long : ∀ key info, (P.hmacSha256 key info).length = chainKeyBytes)
    {chain : ReceivingChain} (valid : validateReceivingChain chain = .ok ()) {f : Frame}
    {opened : Opened} (ahead : chain.counter ≤ f.counter)
    (done : openFrame P chain f = .ok opened) :
    (chain.settle f.counter opened).counter = f.counter + 1 ∧
    (chain.settle f.counter opened).chainKey.length = chainKeyBytes ∧
    (f.counter + 1 ≤ uint32Max →
      validateReceivingChain (chain.settle f.counter opened) = .ok ()) := by
  rw [openFrame, if_neg (not_lt.mpr ahead)] at done
  obtain ⟨gap, reached, stashing, -, next, counter⟩ := openAhead_eq_ok P done
  obtain ⟨gid, pk, -, epoch, -, -, -, -, stashed⟩ := validateReceivingChain_eq_ok.mp valid
  have keyLong : opened.nextChainKey.length = chainKeyBytes := by
    rw [next]
    exact long _ _
  have width : maxSkipKeysGroup = 64 := rfl
  refine ⟨counter, keyLong, fun small => validateReceivingChain_eq_ok.mpr
    ⟨gid, pk, keyLong, epoch, ?_, card_insert_window ?_ ?_, size_boundSkipped _, ?_, ?_⟩⟩
  · exact counter.trans_le small
  · omega
  · omega
  · intro c seen
    rcases mem_seen_settle.mp seen with rfl | ⟨-, -, high⟩
    · show f.counter < opened.nextCounter
      omega
    · exact high
  · intro entry present
    have found := get?_boundSkipped ((OrderedDict.get?_eq_some_iff _).mpr present)
    by_cases fresh : chain.counter ≤ entry.1 ∧ entry.1 < chain.counter + (f.counter - chain.counter)
    · have high : entry.1 < opened.nextCounter := by omega
      obtain ⟨key, isKey, keySize⟩ :=
        (stashKeys_stashed long stashing entry.1).1 fresh.1 fresh.2
      rw [isKey, Option.some.injEq] at found
      rw [← found]
      exact ⟨high, keySize⟩
    · rw [(stashKeys_stashed long stashing entry.1).2 fresh] at found
      obtain ⟨low, size⟩ := stashed entry ((OrderedDict.get?_eq_some_iff _).mp found)
      have high : entry.1 < opened.nextCounter := by omega
      exact ⟨high, size⟩

/-! ## Frames of the sender -/

section Sealed

variable (P) (privateKey : Bytes)

/-- The frame of a one-byte message sealed under the message key of counter `c`. -/
def sealedFrame (chain : ReceivingChain) (c : Nat) (msgKey : Bytes) : Frame :=
  let salt := List.replicate nonceSaltBytes 0
  let unsigned : Frame :=
    { version := .v3
      groupId := chain.groupId
      senderPubkey := chain.senderPubkey
      epoch := chain.epoch
      counter := c
      ciphertext := P.aeadEncrypt msgKey salt [0]
        (associatedData .v3 chain.groupId chain.senderPubkey chain.epoch c salt)
      signature := []
      nonceSalt := some salt }
  { unsigned with signature := P.ed25519Sign privateKey unsigned.sigInput }

def sealedWire (chain : ReceivingChain) (c : Nat) (msgKey : Bytes) : Wire :=
  wireOf (sealedFrame P privateKey chain c msgKey) (List.replicate nonceSaltBytes 0)

variable {P privateKey}

/-- A sealed frame opens when the chain finds its message key. -/
theorem opens_sealedWire (correct : Correct P) {chain : ReceivingChain}
    (own : P.ed25519Public privateKey = chain.senderPubkey)
    (valid : validateReceivingChain chain = .ok ()) {c : Nat} {msgKey : Bytes}
    (unseen : c ∉ chain.seenCounters) (inRange : c ≤ uint32Max)
    (finds : decryptWithMsgKey P msgKey (sealedFrame P privateKey chain c msgKey) = .ok [0] →
      ∃ opened, openFrame P chain (sealedFrame P privateKey chain c msgKey) = .ok opened ∧
        opened.plaintext = [0]) :
    Opens P chain (sealedWire P privateKey chain c msgKey) [0] := by
  obtain ⟨gid, pk, -, epoch, -⟩ := validateReceivingChain_eq_ok.mp valid
  refine opens_iff.mpr ⟨valid, sealedFrame P privateKey chain c msgKey, ?_, rfl, unseen, ?_, ?_⟩
  · apply parseFrame_wireOf rfl rfl rfl rfl gid pk epoch inRange
    · simp only [sealedFrame, correct.aeadLength, List.length_singleton]
      decide
    · exact correct.signatureLength _ _
    · exact List.length_replicate
  · show P.ed25519Verify chain.senderPubkey _ _ = true
    rw [← own]
    exact correct.ed25519 _ _
  · apply finds
    apply decryptWithMsgKey_eq_ok.mpr
    refine ⟨_, _, nonceAndAad_v3 gid pk ?_ ?_ List.length_replicate, correct.aead _ _ _ _⟩
    · simp only [uint32Max, sealedFrame] at epoch ⊢
      omega
    · simp only [uint32Max, sealedFrame] at inRange ⊢
      omega

/-- A stashed key that has not been seen opens a late frame of its sender. -/
theorem opens_sealedWire_late (correct : Correct P) {chain : ReceivingChain}
    (own : P.ed25519Public privateKey = chain.senderPubkey)
    (valid : validateReceivingChain chain = .ok ()) {c : Nat} {msgKey : Bytes}
    (stashed : chain.skipped.get? c = some msgKey) (unseen : c ∉ chain.seenCounters) :
    Opens P chain (sealedWire P privateKey chain c msgKey) [0] := by
  obtain ⟨-, -, -, -, counter, -, -, -, low⟩ := validateReceivingChain_eq_ok.mp valid
  have late : c < chain.counter := (low (c, msgKey) ((OrderedDict.get?_eq_some_iff _).mp stashed)).1
  apply opens_sealedWire correct own valid unseen (late.trans_le counter).le
  intro opens
  refine ⟨⟨[0], chain.chainKey, chain.counter, chain.skipped.erase c⟩, ?_, rfl⟩
  rw [openFrame, if_pos (show (sealedFrame P privateKey chain c msgKey).counter < _ from late)]
  exact (openLate_eq_ok P).mpr ⟨msgKey, stashed, [0], opens, rfl⟩

/-- A reloaded chain opens no late frame. -/
theorem not_opens_reloaded {chain : ReceivingChain} {c : Nat} (late : c < chain.counter)
    {wire : Wire} (field : wire.get? "counter" = some (.int c)) (plaintext : Bytes) :
    ¬ Opens P (reloaded chain) wire plaintext := by
  intro opens
  obtain ⟨-, f, parsed, -, -, -, opened, done, -⟩ := opens_iff.mp opens
  obtain ⟨-, -, counter, -⟩ := parseFrame_eq_ok parsed
  rw [field, Option.some.injEq, WireValue.int.injEq, Nat.cast_inj] at counter
  rw [openFrame, if_pos (show f.counter < (reloaded chain).counter from counter ▸ late)] at done
  obtain ⟨msgKey, stashed, -⟩ := (openLate_eq_ok P).mp done
  cases stashed

end Sealed

/-! ## The exact condition -/

/-- The frame at counter `c` is not late, and either ends the counter range, or is
at the head of a chain whose stashed counters have all been seen and stay in the
replay window. -/
def Persistable (chain : ReceivingChain) (c : Nat) : Prop :=
  chain.counter ≤ c ∧ (c = uint32Max ∨
    (c = chain.counter ∧ ∀ s ∈ chain.skipped.keys,
      s ∈ chain.seenCounters ∧ c + 1 - maxSkipKeysGroup ≤ s))

instance (chain : ReceivingChain) (c : Nat) : Decidable (Persistable chain c) :=
  inferInstanceAs (Decidable (_ ∧ _))

/-- Once the counter has moved, what is left of survival is the reloaded chain. -/
theorem survivesRestart_iff_reloaded {lockbox : Option LockBox}
    (boxes : ∀ box ∈ lockbox, box.Correct) {nonce : Bytes} {nowMs : Int} {chains : SenderChains}
    {chain next : ReceivingChain} (valid : validateReceivingChain chain = .ok ())
    (long : next.chainKey.length = chainKeyBytes) (slot : slotOf next = slotOf chain)
    (stored : getSenderChain lockbox chains (slotOf chain) = .ok (some (headOf chain)))
    (moved : chain.counter < next.counter) :
    SurvivesRestart P lockbox nonce nowMs chains chain next ↔
      ∀ wire plaintext, Opens P (reloaded next) wire plaintext ↔ Opens P next wire plaintext := by
  have load := getSenderChain_upsert boxes nonce nowMs chains (slotOf chain)
    (show (headOf next).chainKey.length = 32 from long)
  simp only [SurvivesRestart, commitGroupRatchetBoundary_iff valid long stored]
  constructor
  · rintro ⟨chains', ⟨-, rfl⟩, head, loaded, same⟩
    rw [load, Except.ok.injEq, Option.some.injEq] at loaded
    rw [← loaded, ← slot] at same
    exact same
  · intro same
    refine ⟨_, ⟨moved, rfl⟩, headOf next, load, ?_⟩
    rw [← slot]
    exact same

/-- A stashed counter of the next chain that a late frame can still use. -/
theorem exists_unspent (correct : Correct P) {chain : ReceivingChain}
    (valid : validateReceivingChain chain = .ok ()) {f : Frame} {opened : Opened}
    (ahead : chain.counter ≤ f.counter) (done : openFrame P chain f = .ok opened)
    (unspent : ¬ (f.counter = chain.counter ∧ ∀ s ∈ chain.skipped.keys,
      s ∈ chain.seenCounters ∧ f.counter + 1 - maxSkipKeysGroup ≤ s)) :
    ∃ s key, (chain.settle f.counter opened).skipped.get? s = some key ∧
      s ∉ (chain.settle f.counter opened).seenCounters := by
  obtain ⟨-, -, -, -, -, -, -, seenLow, stashLow⟩ := validateReceivingChain_eq_ok.mp valid
  have below : ∀ s key, chain.skipped.get? s = some key → s < chain.counter := fun s key found =>
    (stashLow (s, key) ((OrderedDict.get?_eq_some_iff _).mp found)).1
  have opening := done
  rw [openFrame, if_neg (not_lt.mpr ahead)] at opening
  obtain ⟨-, reached, stashing, -, -, counter⟩ := openAhead_eq_ok P opening
  have stashed := stashKeys_stashed correct.hmacLength stashing
  rcases Nat.eq_or_lt_of_le ahead with head | skips
  · -- at the head: nothing was stashed, and some old counter is unspent
    have uncovered : ∃ s ∈ chain.skipped.keys,
        ¬ (s ∈ chain.seenCounters ∧ f.counter + 1 - maxSkipKeysGroup ≤ s) := by
      by_contra all
      apply unspent
      refine ⟨head.symm, fun s present => ?_⟩
      by_contra free
      exact all ⟨s, present, free⟩
    obtain ⟨s, present, free⟩ := uncovered
    obtain ⟨key, found⟩ := chain.skipped.mem_keys_iff.mp present
    refine ⟨s, key, (skipped_settle_head valid head.symm done).symm ▸ found, fun seen => ?_⟩
    rcases mem_seen_settle.mp seen with rfl | ⟨seen, inside, -⟩
    · have low := below f.counter key found
      omega
    · exact free ⟨seen, counter ▸ inside⟩
  · -- above the head: the counter just below the frame was stashed last
    obtain ⟨key, found, -⟩ := (stashed (f.counter - 1)).1 (by omega) (by omega)
    have highest : ∀ s key, opened.skipped.get? s = some key → s ≤ f.counter - 1 := by
      intro s key present
      by_cases fresh : chain.counter ≤ s ∧ s < chain.counter + (f.counter - chain.counter)
      · omega
      · rw [(stashed s).2 fresh] at present
        have low := below s key present
        omega
    refine ⟨f.counter - 1, key, (get?_boundSkipped_highest highest).trans found, fun seen => ?_⟩
    rcases mem_seen_settle.mp seen with same | ⟨seen, -⟩
    · omega
    · have low := seenLow _ seen
      omega

/-- A late frame leaves the counter where it was, and the boundary refuses it. -/
theorem not_survivesRestart_late {lockbox : Option LockBox} {nonce : Bytes} {nowMs : Int}
    {chains : SenderChains} {chain : ReceivingChain}
    (valid : validateReceivingChain chain = .ok ())
    (stored : getSenderChain lockbox chains (slotOf chain) = .ok (some (headOf chain)))
    {f : Frame} {opened : Opened} (late : f.counter < chain.counter)
    (done : openFrame P chain f = .ok opened) :
    ¬ SurvivesRestart P lockbox nonce nowMs chains chain (chain.settle f.counter opened) := by
  obtain ⟨-, -, keyLong, -⟩ := validateReceivingChain_eq_ok.mp valid
  rw [openFrame, if_pos late] at done
  obtain ⟨msgKey, -, text, -, rfl⟩ := (openLate_eq_ok P).mp done
  rintro ⟨chains', committed, -⟩
  exact lt_irrefl _ ((commitGroupRatchetBoundary_iff valid keyLong stored).mp committed).1

/-- **A receive step survives a restart exactly when its frame is persistable.** -/
theorem restart_iff_persistable (correct : Correct P) {privateKey : Bytes}
    {lockbox : Option LockBox} (boxes : ∀ box ∈ lockbox, box.Correct) (nonce : Bytes)
    (nowMs : Int) {chains : SenderChains} {chain next : ReceivingChain}
    (own : P.ed25519Public privateKey = chain.senderPubkey)
    (stored : getSenderChain lockbox chains (slotOf chain) = .ok (some (headOf chain)))
    {wire : Wire} {plaintext : Bytes} {c : Nat} (field : wire.get? "counter" = some (.int c))
    (accepted : decryptMessage P wire chain = .ok (plaintext, next)) :
    SurvivesRestart P lockbox nonce nowMs chains chain next ↔ Persistable chain c := by
  obtain ⟨valid, f, opened, parsed, -, -, done, -, rfl⟩ := decryptMessage_eq_ok P accepted
  obtain ⟨-, -, counter, -, -, -, inRange⟩ := parseFrame_eq_ok parsed
  rw [field, Option.some.injEq, WireValue.int.injEq, Nat.cast_inj] at counter
  subst counter
  obtain ⟨gid, pk, -, epoch, -⟩ := validateReceivingChain_eq_ok.mp valid
  rcases Nat.lt_or_ge f.counter chain.counter with late | ahead
  · exact iff_of_false (not_survivesRestart_late valid stored late done)
      fun persistable => not_le.mpr late persistable.1
  obtain ⟨nextCounter, nextLong, nextValid⟩ := settle_ahead correct.hmacLength valid ahead done
  rw [survivesRestart_iff_reloaded boxes valid nextLong rfl stored (by omega)]
  constructor
  · intro same
    refine ⟨ahead, ?_⟩
    by_contra fails
    obtain ⟨last, unspent⟩ := not_or.mp fails
    have validNext := nextValid (by simp only [uint32Max] at last ⊢; omega)
    obtain ⟨s, key, stashed, unseen⟩ := exists_unspent correct valid ahead done unspent
    have ownNext : P.ed25519Public privateKey = (chain.settle f.counter opened).senderPubkey := own
    have opens := opens_sealedWire_late correct ownNext validNext stashed unseen
    have late : s < (chain.settle f.counter opened).counter := by
      obtain ⟨-, -, -, -, -, -, -, -, low⟩ := validateReceivingChain_eq_ok.mp validNext
      exact (low (s, key) ((OrderedDict.get?_eq_some_iff _).mp stashed)).1
    exact not_opens_reloaded late rfl [0] ((same _ _).mpr opens)
  · rintro ⟨-, last | ⟨head, spent⟩⟩
    · -- both chains are past the counter range and open nothing
      intro w text
      have exhausted : ¬ (chain.settle f.counter opened).counter ≤ uint32Max := by omega
      refine iff_of_false (fun opens => ?_) (fun opens => ?_)
      · obtain ⟨-, -, -, -, range, -⟩ := validateReceivingChain_eq_ok.mp (opens_iff.mp opens).1
        exact exhausted range
      · obtain ⟨-, -, -, -, range, -⟩ := validateReceivingChain_eq_ok.mp (opens_iff.mp opens).1
        exact exhausted range
    · apply opens_reloaded_iff
      · constructor
        · intro whole
          obtain ⟨-, -, -, -, range, -⟩ := validateReceivingChain_eq_ok.mp whole
          exact validateReceivingChain_eq_ok.mpr ⟨gid, pk, nextLong, epoch, range, Nat.zero_le _,
            Nat.zero_le _, by simp [reloaded, receivingChain], by
              simp [reloaded, receivingChain, OrderedDict.empty]⟩
        · intro whole
          obtain ⟨-, -, -, -, range, -⟩ := validateReceivingChain_eq_ok.mp whole
          exact nextValid (nextCounter ▸ range)
      · intro s seen
        rcases mem_seen_settle.mp seen with rfl | ⟨-, -, high⟩
        · omega
        · exact high
      · intro s key stashed
        rw [skipped_settle_head valid head done] at stashed
        obtain ⟨seen, inside⟩ := spent s (chain.skipped.mem_keys_iff.mpr ⟨key, stashed⟩)
        have counter : opened.nextCounter = f.counter + 1 := nextCounter
        obtain ⟨-, -, -, -, -, -, -, seenLow, -⟩ := validateReceivingChain_eq_ok.mp valid
        have low := seenLow s seen
        exact mem_seen_settle.mpr (.inr ⟨seen, counter ▸ inside, by omega⟩)

/-! ## Poles -/

/-- A chain of sender `1…1` in group `7…7` at epoch 1. -/
def sampleChain (counter : Nat) (seenCounters : Finset Nat) (skipped : OrderedDict Nat Bytes) :
    ReceivingChain where
  groupId := List.replicate 16 7
  senderPubkey := List.replicate 32 1
  epoch := 1
  chainKey := List.replicate 32 5
  counter := counter
  seenCounters := seenCounters
  skipped := skipped

/-- The chain before its first frame. -/
def firstChain : ReceivingChain := sampleChain 0 ∅ .empty

/-- The chain after the frame at counter 1 has overtaken the one at counter 0. -/
def overtakenChain : ReceivingChain :=
  sampleChain 2 {1} ⟨[(0, List.replicate 32 4)], by decide⟩

def sampleFrame (chain : ReceivingChain) (msgKey : Bytes) : Wire :=
  sealedWire mirror (List.replicate 32 1) chain 0 msgKey

/-- The table whose only row is the head of the chain. -/
def storing (chain : ReceivingChain) : SenderChains :=
  upsertSenderChain none [] 0 .empty (slotOf chain) (headOf chain)

theorem getSenderChain_storing {chain : ReceivingChain} (long : chain.chainKey.length = 32) :
    getSenderChain none (storing chain) (slotOf chain) = .ok (some (headOf chain)) :=
  getSenderChain_upsert (by simp) [] 0 .empty (slotOf chain) long

/-- The first frame of an epoch survives the restart. -/
theorem first_frame_survives_restart :
    ∃ plaintext next,
      decryptMessage mirror
        (sampleFrame firstChain (mirror.hmacSha256 (List.replicate 32 5) (ascii "msg")))
        firstChain = .ok (plaintext, next) ∧
      SurvivesRestart mirror none [] 0 (storing firstChain) firstChain next := by
  have own : mirror.ed25519Public (List.replicate 32 1) = firstChain.senderPubkey := rfl
  obtain ⟨⟨plaintext, next⟩, accepted⟩ := exists_of_isOk (show (decryptMessage mirror (sampleFrame
    firstChain (mirror.hmacSha256 (List.replicate 32 5) (ascii "msg"))) firstChain).isOk = true by
      decide +kernel)
  refine ⟨plaintext, next, accepted, ?_⟩
  apply (restart_iff_persistable (c := 0) mirror_correct (by simp) [] 0 own
    (getSenderChain_storing (by decide)) rfl accepted).mpr
  decide

/-- The overtaken frame is decrypted, and refused by the boundary. -/
theorem overtaken_frame_lost_at_restart :
    ∃ plaintext next,
      decryptMessage mirror (sampleFrame overtakenChain (List.replicate 32 4)) overtakenChain =
        .ok (plaintext, next) ∧
      ¬ SurvivesRestart mirror none [] 0 (storing overtakenChain) overtakenChain next := by
  have valid : validateReceivingChain overtakenChain = .ok () :=
    validateReceivingChain_eq_ok.mpr (by decide)
  have own : mirror.ed25519Public (List.replicate 32 1) = overtakenChain.senderPubkey := rfl
  obtain ⟨next, accepted⟩ := opens_sealedWire_late (c := 0) mirror_correct own valid rfl (by decide)
  refine ⟨[0], next, accepted, ?_⟩
  obtain ⟨-, f, opened, parsed, -, -, done, -, rfl⟩ := decryptMessage_eq_ok mirror accepted
  obtain ⟨-, -, counter, -⟩ := parseFrame_eq_ok parsed
  have field : (sampleFrame overtakenChain (List.replicate 32 4)).get? "counter" =
      some (.int (0 : Nat)) := rfl
  rw [show sealedWire _ _ _ _ _ = sampleFrame overtakenChain (List.replicate 32 4) from rfl, field,
    Option.some.injEq, WireValue.int.injEq, Nat.cast_inj] at counter
  apply not_survivesRestart_late valid (getSenderChain_storing (by decide)) _ done
  rw [← counter]
  decide

end OneLink.State
