/-
# GroupsCrypto.NeverBricks — a sender and a receiver of one epoch

One sender chain emits frames; the network delivers them in any order, more than
once or never.  The receiver re-validates its chain on every call, so a chain
that fails `_validate_receiving_chain` once fails on every later frame.

It can get there: a late frame is added to `seen_counters` even when it lies
below the replay window, so a full window grows to 65 entries
(`late_frame_bricks_chain`).  `Overfills` names those deliveries;
`receiver_never_bricks` is the claim for every run without one, and says that
they are the only ones.
-/
import OneLink.Library.Run
import OneLink.GroupsCrypto.AtMostOnce
import Mathlib.Order.Interval.Finset.Nat

namespace OneLink.GroupsCrypto

open Library

set_option autoImplicit false

/-- What the imported primitives promise. -/
structure Correct (P : Primitives) : Prop where
  hmacLength : ∀ key info, (P.hmacSha256 key info).length = chainKeyBytes
  aead : ∀ key nonce plaintext aad,
    P.aeadDecrypt key nonce (P.aeadEncrypt key nonce plaintext aad) aad = some plaintext
  aeadLength : ∀ key nonce plaintext aad,
    (P.aeadEncrypt key nonce plaintext aad).length = plaintext.length + tagBytes
  ed25519 : ∀ privateKey message,
    P.ed25519Verify (P.ed25519Public privateKey) (P.ed25519Sign privateKey message) message = true
  signatureLength : ∀ privateKey message, (P.ed25519Sign privateKey message).length = 64

/-- Both ends and the network; `decrypted` records the counters returned so far. -/
structure Session where
  sender : SenderChain
  sent : List (Bytes × Wire)
  receiver : ReceivingChain
  decrypted : Finset Nat

inductive Action where
  | send (plaintext nonceSalt : Bytes)
  | deliver (counter : Nat)

variable (P : Primitives) (privateKey : Bytes)

def Session.step (w : Session) : Action → Session
  | .send plaintext nonceSalt =>
    match encryptMessage P plaintext w.sender privateKey nonceSalt with
    | .ok (wire, next) => { w with sender := next, sent := w.sent ++ [(plaintext, wire)] }
    | .error _ => w
  | .deliver i =>
    match w.sent[i]? with
    | none => w
    | some (_, wire) =>
      match decryptMessage P wire w.receiver with
      | .ok (_, next) => { w with receiver := next, decrypted := insert i w.decrypted }
      | .error _ => w

/-- The stashed frame at `c` is below a replay window that is full. -/
def Overfills (chain : ReceivingChain) (c : Nat) : Prop :=
  (chain.skipped.get? c).isSome ∧ c + maxSkipKeysGroup < chain.counter ∧
    ∀ seen, chain.counter - maxSkipKeysGroup ≤ seen → seen < chain.counter →
      seen ∈ chain.seenCounters

/-- The delivery does not overfill the replay window. -/
def KeepsWindow (w : Session) : Action → Prop
  | .send _ _ => True
  | .deliver c => ¬ Overfills w.receiver c

/-! ## Authentic frames -/

/-- `wire` is what `encrypt_message` emits for `plaintext` at counter `i`. -/
def EmittedAt (gid pk : Bytes) (epoch : Nat) (k : Bytes) (i : Nat) (plaintext : Bytes)
    (wire : Wire) : Prop :=
  ∃ salt next, encryptMessage P plaintext ⟨gid, pk, epoch, chainKeyAt P k i, i⟩ privateKey salt =
    .ok (wire, next)

/-- The frame that `encrypt_message` puts on the wire. -/
def emittedFrame (chain : SenderChain) (plaintext salt : Bytes) : Frame :=
  let ciphertext := P.aeadEncrypt (P.hmacSha256 chain.chainKey (ascii "msg")) salt plaintext
    (associatedData .v3 chain.groupId chain.senderPubkey chain.epoch chain.counter salt)
  { chain.frame salt ciphertext with
    signature := P.ed25519Sign privateKey (chain.frame salt ciphertext).sigInput }

theorem encryptMessage_eq_ok {plaintext salt : Bytes} {chain next : SenderChain} {wire : Wire}
    (returned : encryptMessage P plaintext chain privateKey salt = .ok (wire, next)) :
    (plaintext.length ≠ 0 ∧ plaintext.length ≤ maxMessagePlaintextBytes) ∧
      (chain.groupId.length = 16 ∧ chain.senderPubkey.length = 32) ∧
      (0 < chain.epoch ∧ chain.epoch ≤ uint32Max) ∧ chain.counter < uint32Max ∧
      P.ed25519Public privateKey = chain.senderPubkey ∧ salt.length = nonceSaltBytes ∧
      wire = wireOf (emittedFrame P privateKey chain plaintext salt) salt ∧
      next = { chain with
        chainKey := P.hmacSha256 chain.chainKey (ascii "next"), counter := chain.counter + 1 } := by
  simp only [encryptMessage, validateChainCoordinates, validateGroupAndSender, encryptWithMsgKey,
    buildNonceV3, aadV3, aad_eq_ok, bind_eq_ok, require_eq_ok, exists_const, pure_eq_ok_iff,
    deriveMessageKey_eq_ok, advanceChainKey_eq_ok, Prod.mk.injEq] at returned
  obtain ⟨nonempty, small, ⟨⟨gid, pk⟩, epoch, counter⟩, own, notLast, _, ⟨-, rfl⟩, _,
    ⟨-, -, _, ⟨salted, rfl⟩, _, ⟨-, -, -, -, -, rfl⟩, rfl⟩, _, ⟨-, rfl⟩, rfl, rfl⟩ := returned
  exact ⟨⟨nonempty, small⟩, ⟨gid, pk⟩, epoch, lt_of_le_of_ne counter notLast, own, salted, rfl, rfl⟩

/-- A well-formed version 3 frame is read back from its wire dict. -/
theorem parseFrame_wireOf {chain : ReceivingChain} {f : Frame} {salt : Bytes}
    (version : f.version = .v3) (salted : f.nonceSalt = some salt)
    (group : f.groupId = chain.groupId) (sender : f.senderPubkey = chain.senderPubkey)
    (gid : f.groupId.length = 16) (pk : f.senderPubkey.length = 32)
    (epoch : 0 < f.epoch ∧ f.epoch ≤ uint32Max) (counter : f.counter ≤ uint32Max)
    (ciphertext : tagBytes < f.ciphertext.length ∧ f.ciphertext.length ≤ maxMessageCiphertextBytes)
    (signature : f.signature.length = 64) (long : salt.length = nonceSaltBytes) :
    parseFrame chain (wireOf f salt) = .ok f := by
  have found : WireVersion.ofValue? ((wireOf f salt).get? "v") = some .v3 := rfl
  have missing : WireVersion.v3.fields.filter (· ∉ (wireOf f salt).keys) = [] := by
    rw [List.filter_eq_nil_iff]
    simp [WireVersion.fields, wireOf, OrderedDict.keys]
  have extra : (wireOf f salt).keys.filter (· ∉ WireVersion.v3.fields) = [] := by
    rw [List.filter_eq_nil_iff]
    simp [WireVersion.fields, wireOf, OrderedDict.keys]
  simp only [parseFrame, found, bind_eq_ok, require_eq_ok, exists_const, decodeExactB64_eq_ok,
    requireInt_eq_ok, requireStr_eq_ok, b64d_eq_ok, parseNonceSalt, map_eq_ok, pure_eq_ok_iff]
  refine ⟨missing, extra, f.groupId, ⟨rfl, gid⟩, group, f.senderPubkey, ⟨rfl, pk⟩, sender,
    (f.epoch : Int), rfl, (f.counter : Int), rfl, ⟨by omega, by omega⟩, ⟨by omega, by omega⟩,
    _, rfl, f.ciphertext, ⟨rfl, ciphertext.2⟩, ciphertext, f.signature, ⟨rfl, signature⟩,
    some salt, ⟨salt, ⟨rfl, long⟩, rfl⟩, ?_⟩
  cases f
  simp_all

theorem nonceAndAad_v3 {gid pk salt : Bytes} {epoch counter : Nat} (hgid : gid.length = 16)
    (hpk : pk.length = 32) (he : epoch < 2 ^ 32) (hc : counter < 2 ^ 32)
    (salted : salt.length = nonceSaltBytes) :
    nonceAndAad .v3 gid pk epoch counter (some salt) =
      .ok (salt, associatedData .v3 gid pk epoch counter salt) := by
  simp only [nonceAndAad, buildNonceV3, aadV3, bind_eq_ok, require_eq_ok, exists_const,
    pure_eq_ok_iff, aad_eq_ok]
  exact ⟨salted, _, ⟨salted, rfl⟩, _, ⟨hgid, hpk, salted, he, hc, rfl⟩, rfl⟩

variable {P} in
theorem Correct.chainKeyAt_length (correct : Correct P) {k : Bytes}
    (long : k.length = chainKeyBytes) (n : Nat) : (chainKeyAt P k n).length = chainKeyBytes := by
  cases n with
  | zero => exact long
  | succ n =>
    rw [chainKeyAt_succ]
    exact correct.hmacLength _ _

/-- An emitted frame opens under the message key of its counter. -/
theorem decryptWithMsgKey_emittedFrame (correct : Correct P) {chain : SenderChain}
    {plaintext salt : Bytes} (hgid : chain.groupId.length = 16)
    (hpk : chain.senderPubkey.length = 32) (he : chain.epoch < 2 ^ 32)
    (hc : chain.counter < 2 ^ 32) (salted : salt.length = nonceSaltBytes) :
    decryptWithMsgKey P (P.hmacSha256 chain.chainKey (ascii "msg"))
      (emittedFrame P privateKey chain plaintext salt) = .ok plaintext :=
  decryptWithMsgKey_eq_ok.mpr
    ⟨salt, _, nonceAndAad_v3 hgid hpk he hc salted, correct.aead _ _ _ _⟩

/-- The frame opens when its key is stashed or at most the window ahead. -/
theorem openFrame_returns (correct : Correct P) {k : Bytes} (long : k.length = chainKeyBytes)
    {chain : ReceivingChain} (tracks : Tracks P k chain) {f : Frame} {plaintext : Bytes}
    (opens : decryptWithMsgKey P (messageKeyAt P k f.counter) f = .ok plaintext)
    (reachable : (chain.skipped.get? f.counter).isSome ∨
      (chain.counter ≤ f.counter ∧ f.counter - chain.counter ≤ maxSkipKeysGroup)) :
    ∃ opened, openFrame P chain f = .ok opened ∧ opened.plaintext = plaintext := by
  unfold openFrame
  split
  · rename_i below
    obtain ⟨key, stashed⟩ : ∃ key, chain.skipped.get? f.counter = some key := by
      rcases reachable with stashed | ⟨ahead, -⟩
      · exact Option.isSome_iff_exists.mp stashed
      · omega
    obtain ⟨-, rfl⟩ := tracks.stashed _ _ stashed
    exact ⟨_, (openLate_eq_ok P).mpr ⟨_, stashed, plaintext, opens, rfl⟩, rfl⟩
  · rename_i above
    have gap : f.counter - chain.counter ≤ maxSkipKeysGroup := by
      rcases reachable with stashed | ⟨-, gap⟩
      · obtain ⟨key, stashed⟩ := Option.isSome_iff_exists.mp stashed
        exact absurd (tracks.stashed _ _ stashed).1 above
      · exact gap
    have headLong : chain.chainKey.length = chainKeyBytes := by
      rw [tracks.head]
      exact correct.chainKeyAt_length long _
    obtain ⟨⟨chainKey, skipped⟩, stashing⟩ :=
      stashKeys_returns P correct.hmacLength (f.counter - chain.counter) chain.counter chain.skipped
        headLong
    have spec := stashing
    rw [tracks.head] at spec
    obtain ⟨head, -⟩ := stashKeys_spec P spec
    have reached : chain.counter + (f.counter - chain.counter) = f.counter := by omega
    simp only [reached] at head
    have keyLong : chainKey.length = chainKeyBytes := by
      rw [head]
      exact correct.chainKeyAt_length long _
    refine ⟨⟨plaintext, P.hmacSha256 chainKey (ascii "next"), f.counter + 1, skipped⟩, ?_, rfl⟩
    simp only [openAhead, bind_eq_ok, require_eq_ok, exists_const, pure_eq_ok_iff,
      deriveMessageKey_eq_ok, advanceChainKey_eq_ok]
    refine ⟨gap, (chainKey, skipped), stashing, _, ⟨keyLong, rfl⟩, plaintext, ?_, _,
      ⟨keyLong, rfl⟩, rfl⟩
    rw [head]
    exact opens

/-! ## The replay window -/

/-- The window before `hi`, pruned. -/
theorem pruned_subset (seen : Finset Nat) (hi : Nat) :
    (seen.filter fun c => hi - maxSkipKeysGroup ≤ c ∧ c < hi) ⊆
      Finset.Ico (hi - maxSkipKeysGroup) hi := by
  intro c member
  rw [Finset.mem_filter] at member
  exact Finset.mem_Ico.mpr member.2

theorem card_window_le (hi : Nat) :
    (Finset.Ico (hi - maxSkipKeysGroup) hi).card ≤ maxSkipKeysGroup := by
  rw [Nat.card_Ico]
  omega

/-- A counter inside the window does not outgrow it. -/
theorem card_insert_window {seen : Finset Nat} {hi c : Nat} (low : hi - maxSkipKeysGroup ≤ c)
    (high : c < hi) :
    (insert c (seen.filter fun s => hi - maxSkipKeysGroup ≤ s ∧ s < hi)).card ≤
      maxSkipKeysGroup := by
  refine (Finset.card_le_card ?_).trans (card_window_le hi)
  rw [Finset.insert_subset_iff]
  exact ⟨Finset.mem_Ico.mpr ⟨low, high⟩, pruned_subset seen hi⟩

/-- A counter below the window outgrows it exactly when the window is full. -/
theorem card_insert_below_window {seen : Finset Nat} {hi c : Nat} (below : c + maxSkipKeysGroup < hi) :
    (insert c (seen.filter fun s => hi - maxSkipKeysGroup ≤ s ∧ s < hi)).card ≤ maxSkipKeysGroup ↔
      ¬ ∀ s, hi - maxSkipKeysGroup ≤ s → s < hi → s ∈ seen := by
  have outside : c ∉ seen.filter fun s => hi - maxSkipKeysGroup ≤ s ∧ s < hi := by
    rw [Finset.mem_filter]
    omega
  have width : (Finset.Ico (hi - maxSkipKeysGroup) hi).card = maxSkipKeysGroup := by
    rw [Nat.card_Ico]
    omega
  rw [Finset.card_insert_of_notMem outside]
  constructor
  · intro small full
    have whole : Finset.Ico (hi - maxSkipKeysGroup) hi ⊆
        seen.filter fun s => hi - maxSkipKeysGroup ≤ s ∧ s < hi := by
      intro s member
      obtain ⟨low, high⟩ := Finset.mem_Ico.mp member
      exact Finset.mem_filter.mpr ⟨full s low high, low, high⟩
    have := Finset.card_le_card whole
    omega
  · intro gap
    simp only [not_forall] at gap
    obtain ⟨s, low, high, unseen⟩ := gap
    have strict : (seen.filter fun s => hi - maxSkipKeysGroup ≤ s ∧ s < hi) ⊂
        Finset.Ico (hi - maxSkipKeysGroup) hi := by
      refine Finset.ssubset_iff_subset_ne.mpr ⟨pruned_subset seen hi, fun same => unseen ?_⟩
      have member : s ∈ Finset.Ico (hi - maxSkipKeysGroup) hi := Finset.mem_Ico.mpr ⟨low, high⟩
      rw [← same, Finset.mem_filter] at member
      exact member.1
    have := Finset.card_lt_card strict
    omega

/-- **The window keeps its bound exactly when the delivery does not overfill it.** -/
theorem card_settle_iff {chain : ReceivingChain} {f : Frame} {opened : Opened}
    (done : openFrame P chain f = .ok opened) :
    (chain.settle f.counter opened).seenCounters.card ≤ maxSkipKeysGroup ↔
      ¬ Overfills chain f.counter := by
  unfold openFrame at done
  split at done
  · rename_i late
    obtain ⟨msgKey, stashed, plaintext, -, rfl⟩ := (openLate_eq_ok P).mp done
    by_cases below : f.counter + maxSkipKeysGroup < chain.counter
    · simp only [ReceivingChain.settle, card_insert_below_window below, Overfills, stashed, below,
        Option.isSome_some, true_and]
    · have inside : chain.counter - maxSkipKeysGroup ≤ f.counter := by omega
      refine iff_of_true (card_insert_window inside late) ?_
      rintro ⟨-, below', -⟩
      exact below below'
  · rename_i ahead
    obtain ⟨-, chainKey, -, -, -, nextCounter⟩ := openAhead_eq_ok P done
    have width : maxSkipKeysGroup = 64 := rfl
    refine iff_of_true (card_insert_window ?_ ?_) ?_
    · omega
    · omega
    · rintro ⟨-, below, -⟩
      omega

/-! ## The invariant of a session -/

/-- Both ends follow the hash chain from `k`, and the receiver's windows are in
bounds. -/
structure Inv (gid pk : Bytes) (epoch : Nat) (k : Bytes) (w : Session) : Prop where
  sender : w.sender = ⟨gid, pk, epoch, chainKeyAt P k w.sent.length, w.sent.length⟩
  bounded : w.sent.length ≤ uint32Max
  emitted : ∀ i plaintext wire, w.sent[i]? = some (plaintext, wire) →
    EmittedAt P privateKey gid pk epoch k i plaintext wire
  groupId : w.receiver.groupId = gid
  senderPubkey : w.receiver.senderPubkey = pk
  epoch : w.receiver.epoch = epoch
  tracks : Tracks P k w.receiver
  behind : w.receiver.counter ≤ w.sent.length
  seenDecrypted : w.receiver.seenCounters ⊆ w.decrypted
  seenBelow : ∀ c ∈ w.receiver.seenCounters, c < w.receiver.counter
  seenWindow : w.receiver.seenCounters.card ≤ maxSkipKeysGroup
  stashWindow : w.receiver.skipped.size ≤ maxSkipKeysGroup

variable {P privateKey}
variable {gid pk : Bytes} {epoch : Nat} {k : Bytes}

/-- The parameters both ends checked when the epoch began. -/
structure ValidEpoch (gid pk : Bytes) (epoch : Nat) (k : Bytes) : Prop where
  gid : gid.length = 16
  pk : pk.length = 32
  epoch : 0 < epoch ∧ epoch ≤ uint32Max
  key : k.length = chainKeyBytes

theorem Inv.validates (correct : Correct P) (valid : ValidEpoch gid pk epoch k) {w : Session}
    (inv : Inv P privateKey gid pk epoch k w) : validateReceivingChain w.receiver = .ok () := by
  rw [validateReceivingChain_eq_ok, inv.groupId, inv.senderPubkey, inv.epoch, inv.tracks.head]
  refine ⟨valid.gid, valid.pk, correct.chainKeyAt_length valid.key _, valid.epoch,
    inv.behind.trans inv.bounded, inv.seenWindow, inv.stashWindow, inv.seenBelow, ?_⟩
  rintro ⟨c, key⟩ member
  obtain ⟨below, rfl⟩ := inv.tracks.stashed c key ((OrderedDict.get?_eq_some_iff _).mpr member)
  exact ⟨below, correct.hmacLength _ _⟩

/-- A sent frame is parsed, is signed, and opens under the key of its counter. -/
theorem Inv.sent_frame (correct : Correct P) {w : Session}
    (inv : Inv P privateKey gid pk epoch k w) {i : Nat} {plaintext : Bytes} {wire : Wire}
    (sent : w.sent[i]? = some (plaintext, wire)) :
    ∃ f, parseFrame w.receiver wire = .ok f ∧ f.counter = i ∧ f.epoch = epoch ∧
      P.ed25519Verify f.senderPubkey f.signature f.sigInput = true ∧
      decryptWithMsgKey P (messageKeyAt P k i) f = .ok plaintext := by
  obtain ⟨salt, next, emitted⟩ := inv.emitted i _ _ sent
  obtain ⟨⟨nonempty, small⟩, ⟨hgid, hpk⟩, hepoch, hcounter, own, salted, rfl, -⟩ :=
    encryptMessage_eq_ok P privateKey emitted
  have epochLt : epoch < 2 ^ 32 := by
    simp only [uint32Max] at hepoch
    omega
  have counterLt : i < 2 ^ 32 := by
    simp only [uint32Max] at hcounter
    omega
  refine ⟨emittedFrame P privateKey ⟨gid, pk, epoch, chainKeyAt P k i, i⟩ plaintext salt, ?_, rfl,
    rfl, ?_, ?_⟩
  · apply parseFrame_wireOf rfl rfl inv.groupId.symm inv.senderPubkey.symm hgid hpk hepoch
      hcounter.le _ (correct.signatureLength _ _) salted
    show tagBytes < (P.aeadEncrypt _ _ _ _).length ∧ (P.aeadEncrypt _ _ _ _).length ≤ _
    simp only [correct.aeadLength, maxMessageCiphertextBytes]
    omega
  · have signed := correct.ed25519 privateKey
      (emittedFrame P privateKey ⟨gid, pk, epoch, chainKeyAt P k i, i⟩ plaintext salt).sigInput
    rw [own] at signed
    exact signed
  · exact decryptWithMsgKey_emittedFrame P privateKey correct hgid hpk epochLt counterLt salted

/-- What a returned delivery of a sent frame did. -/
theorem Inv.delivered (correct : Correct P) {w : Session}
    (inv : Inv P privateKey gid pk epoch k w) {i : Nat} {plaintext : Bytes} {wire : Wire}
    (sent : w.sent[i]? = some (plaintext, wire)) {returned : Bytes} {next : ReceivingChain}
    (delivered : decryptMessage P wire w.receiver = .ok (returned, next)) :
    ∃ f opened, f.counter = i ∧ openFrame P w.receiver f = .ok opened ∧
      next = w.receiver.settle i opened := by
  obtain ⟨f, parsed, rfl, -, -, -⟩ := inv.sent_frame correct sent
  obtain ⟨-, f', opened, parsed', -, -, done, -, rfl⟩ := decryptMessage_eq_ok P delivered
  rw [parsed, Except.ok.injEq] at parsed'
  subst parsed'
  exact ⟨f, opened, rfl, done, rfl⟩

/-- The counters an opened frame leaves behind. -/
theorem openFrame_counters {chain : ReceivingChain} {f : Frame} {opened : Opened}
    (done : openFrame P chain f = .ok opened) :
    f.counter < opened.nextCounter ∧
      (opened.nextCounter = chain.counter ∨ opened.nextCounter = f.counter + 1) := by
  unfold openFrame at done
  split at done
  · rename_i late
    obtain ⟨msgKey, stashed, plaintext, -, rfl⟩ := (openLate_eq_ok P).mp done
    exact ⟨late, .inl rfl⟩
  · obtain ⟨-, chainKey, -, -, -, nextCounter⟩ := openAhead_eq_ok P done
    exact ⟨by omega, .inr nextCounter⟩

theorem Inv.deliver (correct : Correct P) {w : Session} (inv : Inv P privateKey gid pk epoch k w)
    {i : Nat} (keeps : ¬ Overfills w.receiver i) :
    Inv P privateKey gid pk epoch k (w.step P privateKey (.deliver i)) := by
  cases sent : w.sent[i]? with
  | none =>
    simp only [Session.step, sent]
    exact inv
  | some entry =>
    obtain ⟨plaintext, wire⟩ := entry
    cases delivered : decryptMessage P wire w.receiver with
    | error err =>
      simp only [Session.step, sent, delivered]
      exact inv
    | ok result =>
      obtain ⟨returned, next⟩ := result
      simp only [Session.step, sent, delivered]
      obtain ⟨f, opened, rfl, done, rfl⟩ := inv.delivered correct sent delivered
      obtain ⟨-, head, stashed⟩ := inv.tracks.openFrame done
      obtain ⟨below, counters⟩ := openFrame_counters done
      have index : f.counter < w.sent.length := (List.getElem?_eq_some_iff.mp sent).1
      refine { inv with
        tracks := .settle head stashed
        behind := ?_
        seenDecrypted := ?_
        seenBelow := ?_
        seenWindow := (card_settle_iff P done).mpr keeps
        stashWindow := size_boundSkipped _ }
      · show opened.nextCounter ≤ w.sent.length
        have := inv.behind
        omega
      · exact Finset.insert_subset_insert _
          ((Finset.filter_subset _ _).trans inv.seenDecrypted)
      · intro c member
        rcases Finset.mem_insert.mp member with rfl | kept
        · exact below
        · exact (Finset.mem_filter.mp kept).2.2

theorem Inv.send {w : Session} (inv : Inv P privateKey gid pk epoch k w)
    (plaintext nonceSalt : Bytes) :
    Inv P privateKey gid pk epoch k (w.step P privateKey (.send plaintext nonceSalt)) := by
  cases emitted : encryptMessage P plaintext w.sender privateKey nonceSalt with
  | error err =>
    simp only [Session.step, emitted]
    exact inv
  | ok result =>
    obtain ⟨wire, next⟩ := result
    simp only [Session.step, emitted]
    rw [inv.sender] at emitted
    obtain ⟨-, -, -, counter, -, -, -, rfl⟩ := encryptMessage_eq_ok P privateKey emitted
    refine { inv with
      sender := ?_
      bounded := ?_
      emitted := ?_
      behind := ?_ }
    · simp only [List.length_append, List.length_singleton, chainKeyAt_succ]
    · simp only [List.length_append, List.length_singleton]
      exact counter
    · intro i plaintext' wire' sent
      rw [List.getElem?_append] at sent
      split at sent
      · exact inv.emitted i _ _ sent
      · rename_i beyond
        rw [List.getElem?_singleton] at sent
        split at sent
        · rename_i last
          obtain rfl : i = w.sent.length := by omega
          cases sent
          exact ⟨nonceSalt, _, emitted⟩
        · simp at sent
    · simp only [List.length_append, List.length_singleton]
      have := inv.behind
      omega

theorem Inv.step (correct : Correct P) {w : Session} (inv : Inv P privateKey gid pk epoch k w)
    {action : Action} (keeps : KeepsWindow w action) :
    Inv P privateKey gid pk epoch k (w.step P privateKey action) := by
  cases action with
  | send plaintext nonceSalt => exact inv.send plaintext nonceSalt
  | deliver i => exact inv.deliver correct keeps

/-- A frame that was not decrypted yet, and whose key is stashed or at most the
window ahead, decrypts. -/
theorem Inv.deliver_returns (correct : Correct P) (valid : ValidEpoch gid pk epoch k) {w : Session}
    (inv : Inv P privateKey gid pk epoch k w) {i : Nat} {plaintext : Bytes} {wire : Wire}
    (sent : w.sent[i]? = some (plaintext, wire)) (fresh : i ∉ w.decrypted)
    (reachable : (w.receiver.skipped.get? i).isSome ∨
      (w.receiver.counter ≤ i ∧ i - w.receiver.counter ≤ maxSkipKeysGroup)) :
    ∃ opened, decryptMessage P wire w.receiver = .ok (plaintext, w.receiver.settle i opened) ∧
      ∃ f, f.counter = i ∧ openFrame P w.receiver f = .ok opened := by
  obtain ⟨f, parsed, rfl, sameEpoch, signed, opens⟩ := inv.sent_frame correct sent
  obtain ⟨opened, done, rfl⟩ := openFrame_returns P correct valid.key inv.tracks opens reachable
  have unseen : f.counter ∉ w.receiver.seenCounters := fun seen => fresh (inv.seenDecrypted seen)
  refine ⟨opened, ?_, f, rfl, done⟩
  simp only [decryptMessage, bind_eq_ok, require_eq_ok, exists_const, pure_eq_ok_iff]
  exact ⟨_, inv.validates correct valid, f, parsed, by rw [sameEpoch, inv.epoch], unseen, signed,
    opened, done, rfl⟩

theorem beginNewEpoch_eq_ok {sender : SenderChain} (begun : beginNewEpoch gid pk epoch k = .ok sender) :
    sender = ⟨gid, pk, epoch, k, 0⟩ := by
  simp only [beginNewEpoch, validateGroupAndSender, bind_eq_ok, require_eq_ok, exists_const,
    pure_eq_ok_iff] at begun
  exact begun.2.2.symm

theorem validEpoch_of_begun {receiver : ReceivingChain}
    (begun : receiveNewEpoch gid pk epoch k = .ok receiver) : ValidEpoch gid pk epoch k := by
  obtain ⟨⟨key, hgid, hpk, pos, le⟩, -⟩ := receiveNewEpoch_eq_ok begun
  exact ⟨hgid, hpk, ⟨pos, le⟩, key⟩

theorem inv_begun {sender : SenderChain} {receiver : ReceivingChain}
    (begunSender : beginNewEpoch gid pk epoch k = .ok sender)
    (begunReceiver : receiveNewEpoch gid pk epoch k = .ok receiver) :
    Inv P privateKey gid pk epoch k ⟨sender, [], receiver, ∅⟩ := by
  have tracks : Tracks P k receiver := tracks_receiveNewEpoch begunReceiver
  obtain ⟨-, rfl⟩ := receiveNewEpoch_eq_ok begunReceiver
  refine ⟨beginNewEpoch_eq_ok begunSender, by simp, by simp, rfl, rfl, rfl, tracks, by simp,
    by simp, by simp, by simp, by simp⟩

variable (P privateKey)

/-- **A receiving chain never bricks in a run that never overfills its replay
window**: it passes validation, every fresh frame with a stashed key or at most
the window ahead decrypts to its plaintext, and a delivery returns a chain that
fails validation only by overfilling the window. -/
theorem receiver_never_bricks (correct : Correct P) (gid pk : Bytes) (epoch : Nat) (k : Bytes)
    (sender : SenderChain) (receiver : ReceivingChain)
    (begunSender : beginNewEpoch gid pk epoch k = .ok sender)
    (begunReceiver : receiveNewEpoch gid pk epoch k = .ok receiver) (actions : List Action)
    (keeps : EachStep (Session.step P privateKey) KeepsWindow ⟨sender, [], receiver, ∅⟩ actions) :
    let w := run (Session.step P privateKey) ⟨sender, [], receiver, ∅⟩ actions
    validateReceivingChain w.receiver = .ok () ∧
    (∀ i plaintext wire, w.sent[i]? = some (plaintext, wire) → i ∉ w.decrypted →
      ((w.receiver.skipped.get? i).isSome ∨
        (w.receiver.counter ≤ i ∧ i - w.receiver.counter ≤ maxSkipKeysGroup)) →
      ∃ next, decryptMessage P wire w.receiver = .ok (plaintext, next)) ∧
    (∀ i plaintext wire returned next, w.sent[i]? = some (plaintext, wire) →
      decryptMessage P wire w.receiver = .ok (returned, next) →
      (validateReceivingChain next = .ok () ↔ ¬ Overfills w.receiver i)) := by
  have valid := validEpoch_of_begun begunReceiver
  have inv : Inv P privateKey gid pk epoch k
      (run (Session.step P privateKey) ⟨sender, [], receiver, ∅⟩ actions) :=
    run_invariant (fun _ _ inv keeps => inv.step correct keeps)
      (inv_begun begunSender begunReceiver) keeps
  refine ⟨inv.validates correct valid, ?_, ?_⟩
  · intro i plaintext wire sent fresh reachable
    obtain ⟨opened, delivered, -⟩ := inv.deliver_returns correct valid sent fresh reachable
    exact ⟨_, delivered⟩
  · intro i plaintext wire returned next sent delivered
    obtain ⟨f, opened, rfl, done, rfl⟩ := inv.delivered correct sent delivered
    constructor
    · intro validates
      exact (card_settle_iff P done).mp (validateReceivingChain_eq_ok.mp validates).2.2.2.2.2.1
    · intro keepsNext
      have stepped := inv.deliver correct keepsNext
      simp only [Session.step, sent, delivered] at stepped
      exact stepped.validates correct valid

/-! ## A run that bricks -/

section Bricking

variable {P privateKey}

/-- Sends leave the receiver alone. -/
theorem Inv.run_sends {w : Session} (inv : Inv P privateKey gid pk epoch k w)
    (plaintext salt : Bytes) (n : Nat) :
    let w' := run (Session.step P privateKey) w (List.replicate n (.send plaintext salt))
    Inv P privateKey gid pk epoch k w' ∧ w'.receiver = w.receiver ∧ w'.decrypted = w.decrypted := by
  induction n generalizing w with
  | zero => exact ⟨inv, rfl, rfl⟩
  | succ n ih =>
    have sends : (w.step P privateKey (.send plaintext salt)).receiver = w.receiver ∧
        (w.step P privateKey (.send plaintext salt)).decrypted = w.decrypted := by
      unfold Session.step
      dsimp only
      split <;> exact ⟨rfl, rfl⟩
    rw [List.replicate_succ, run_cons, ← sends.1, ← sends.2]
    exact ih (inv.send plaintext salt)

theorem boundSkipped_of_size_le {skipped : OrderedDict Nat Bytes}
    (small : skipped.size ≤ maxSkipKeysGroup) : boundSkipped skipped = skipped := by
  rw [boundSkipped, Nat.sub_eq_zero_of_le small]
  rfl

/-- Delivering a fresh frame at or above the head. -/
theorem Inv.deliver_ahead (correct : Correct P) (valid : ValidEpoch gid pk epoch k) {w : Session}
    (inv : Inv P privateKey gid pk epoch k w) {i : Nat} (sent : i < w.sent.length)
    (fresh : i ∉ w.decrypted) (ahead : w.receiver.counter ≤ i)
    (gap : i - w.receiver.counter ≤ maxSkipKeysGroup) :
    ∃ opened, w.step P privateKey (.deliver i) =
        { w with receiver := w.receiver.settle i opened, decrypted := insert i w.decrypted } ∧
      opened.nextCounter = i + 1 ∧
      ∃ chainKey, stashKeys P (i - w.receiver.counter) w.receiver.counter w.receiver.chainKey
        w.receiver.skipped = .ok (chainKey, opened.skipped) := by
  obtain ⟨⟨plaintext, wire⟩, found⟩ : ∃ entry, w.sent[i]? = some entry :=
    ⟨_, List.getElem?_eq_getElem sent⟩
  obtain ⟨opened, delivered, f, rfl, done⟩ :=
    inv.deliver_returns correct valid found fresh (.inr ⟨ahead, gap⟩)
  rw [openFrame, if_neg (by omega)] at done
  obtain ⟨-, chainKey, stashing, -, -, nextCounter⟩ := openAhead_eq_ok P done
  refine ⟨opened, ?_, nextCounter, chainKey, stashing⟩
  simp only [Session.step, found, delivered]

/-- The state half way: counter 0 is stashed and every counter from 1 to the head is seen. -/
structure Filling (w : Session) (head : Nat) : Prop where
  counter : w.receiver.counter = head
  stashed : (w.receiver.skipped.get? 0).isSome
  seen : ∀ c, 1 ≤ c → c < head → c ∈ w.receiver.seenCounters
  decrypted : ∀ c ∈ w.decrypted, 1 ≤ c ∧ c < head

theorem Filling.deliver (correct : Correct P) (valid : ValidEpoch gid pk epoch k) {w : Session}
    (inv : Inv P privateKey gid pk epoch k w) {head : Nat} (filling : Filling w head)
    (sent : head < w.sent.length) (positive : 1 ≤ head) (small : head ≤ maxSkipKeysGroup) :
    Filling (w.step P privateKey (.deliver head)) (head + 1) ∧
      (w.step P privateKey (.deliver head)).sent = w.sent := by
  have fresh : head ∉ w.decrypted := fun member => lt_irrefl _ (filling.decrypted _ member).2
  obtain ⟨opened, stepped, nextCounter, chainKey, stashing⟩ :=
    inv.deliver_ahead correct valid sent fresh filling.counter.le (by simp [filling.counter])
  have sameStash : opened.skipped = w.receiver.skipped := by
    simp only [filling.counter, Nat.sub_self, stashKeys, Except.ok.injEq, Prod.mk.injEq] at stashing
    exact stashing.2.symm
  rw [stepped]
  refine ⟨⟨nextCounter, ?_, ?_, ?_⟩, rfl⟩
  · show ((boundSkipped opened.skipped).get? 0).isSome
    rw [sameStash, boundSkipped_of_size_le inv.stashWindow]
    exact filling.stashed
  · intro c low high
    show c ∈ insert head (Finset.filter _ _)
    rcases Nat.lt_succ_iff_lt_or_eq.mp high with earlier | rfl
    · refine Finset.mem_insert_of_mem (Finset.mem_filter.mpr ⟨filling.seen c low earlier, ?_⟩)
      rw [nextCounter]
      omega
    · exact Finset.mem_insert_self _ _
  · intro c member
    rcases Finset.mem_insert.mp member with rfl | old
    · omega
    · have := filling.decrypted c old
      omega

theorem Filling.run (correct : Correct P) (valid : ValidEpoch gid pk epoch k) {w : Session}
    (inv : Inv P privateKey gid pk epoch k w) {head : Nat} (filling : Filling w head)
    (positive : 1 ≤ head) (n : Nat) (small : head + n ≤ maxSkipKeysGroup + 1)
    (sent : head + n ≤ w.sent.length) :
    ∃ w', Library.run (Session.step P privateKey) w ((List.range' head n).map .deliver) = w' ∧
      Inv P privateKey gid pk epoch k w' ∧ Filling w' (head + n) ∧ w'.sent = w.sent := by
  induction n generalizing w head with
  | zero => exact ⟨w, rfl, inv, filling, rfl⟩
  | succ n ih =>
    obtain ⟨next, sameSent⟩ := filling.deliver correct valid inv (by omega) positive (by omega)
    have keeps : ¬ Overfills w.receiver head := by
      rintro ⟨-, below, -⟩
      have := filling.counter
      omega
    obtain ⟨w', reached, inv', filling', sent'⟩ :=
      ih (inv.deliver correct keeps) next (by omega) (by omega) (by rw [sameSent]; omega)
    refine ⟨w', ?_, inv', ?_, sent'.trans sameSent⟩
    · rw [List.range'_succ, List.map_cons, run_cons, reached]
    · rw [show head + (n + 1) = head + 1 + n by omega]
      exact filling'

/-- Counter 1 first: counter 0 is stashed. -/
theorem filling_two (correct : Correct P) (valid : ValidEpoch gid pk epoch k) {w : Session}
    (inv : Inv P privateKey gid pk epoch k w) (sent : 1 < w.sent.length)
    (receiver : w.receiver = ⟨gid, pk, epoch, k, 0, ∅, .empty⟩) (decrypted : w.decrypted = ∅) :
    Filling (w.step P privateKey (.deliver 1)) 2 ∧
      (w.step P privateKey (.deliver 1)).sent = w.sent := by
  have counter : w.receiver.counter = 0 := by rw [receiver]
  obtain ⟨opened, stepped, nextCounter, chainKey, stashing⟩ :=
    inv.deliver_ahead correct valid sent (by simp [decrypted]) (by omega)
      (by rw [counter]; decide)
  rw [receiver] at stashing
  simp only [Nat.sub_zero, stashKeys, bind_eq_ok, deriveMessageKey_eq_ok, advanceChainKey_eq_ok,
    Except.ok.injEq, Prod.mk.injEq] at stashing
  obtain ⟨stashed, -, _, -, -, stash⟩ := stashing
  have small : opened.skipped.size ≤ maxSkipKeysGroup := by
    rw [← stash, OrderedDict.size_set_of_not_mem _ (by simp)]
    decide
  rw [stepped]
  refine ⟨⟨nextCounter, ?_, ?_, ?_⟩, rfl⟩
  · show ((boundSkipped opened.skipped).get? 0).isSome
    rw [boundSkipped_of_size_le small, ← stash, OrderedDict.get?_set_self]
    rfl
  · intro c low high
    obtain rfl : c = 1 := by omega
    exact Finset.mem_insert_self _ _
  · intro c member
    simp only [decrypted, insert_empty_eq, Finset.mem_singleton] at member
    omega

end Bricking

/-! ## Poles -/

/-- Toy primitives: the AEAD appends a tag, one signature signs everything. -/
def mirror : Primitives where
  hmacSha256 key info := (info ++ key ++ List.replicate 32 0).take 32
  aeadEncrypt _ _ plaintext _ := plaintext ++ List.replicate 16 9
  aeadDecrypt _ _ ciphertext _ := some (ciphertext.take (ciphertext.length - 16))
  ed25519Public privateKey := privateKey
  ed25519Sign _ _ := List.replicate 64 1
  ed25519Verify _ signature _ := signature = List.replicate 64 1

theorem mirror_correct : Correct mirror where
  hmacLength key info := by
    simp only [mirror, List.length_take, List.length_append, List.length_replicate, chainKeyBytes]
    omega
  aead key nonce plaintext aad := by
    simp [mirror]
  aeadLength key nonce plaintext aad := by
    simp [mirror, tagBytes]
  ed25519 privateKey message := by
    simp [mirror]
  signatureLength privateKey message := by
    simp [mirror]

/-- Counters 1 to 64 in order and then counter 0: the chain returned for a late frame below a full
window fails validation. -/
theorem late_frame_bricks_chain :
    ∃ sender receiver,
      beginNewEpoch (List.replicate 16 7) (List.replicate 32 1) 1 (List.replicate 32 5) =
        .ok sender ∧
      receiveNewEpoch (List.replicate 16 7) (List.replicate 32 1) 1 (List.replicate 32 5) =
        .ok receiver ∧
      validateReceivingChain (run (Session.step mirror (List.replicate 32 1))
        ⟨sender, [], receiver, ∅⟩
        (List.replicate 65 (.send [1] (List.replicate 12 2)) ++ .deliver 1 ::
          ((List.range' 2 63).map .deliver ++ [.deliver 0]))).receiver ≠ .ok () := by
  refine ⟨_, _, rfl, rfl, ?_⟩
  have begun : receiveNewEpoch (List.replicate 16 7) (List.replicate 32 1) 1 (List.replicate 32 5) =
      .ok ⟨List.replicate 16 7, List.replicate 32 1, 1, List.replicate 32 5, 0, ∅, .empty⟩ := rfl
  have correct := mirror_correct
  have valid := validEpoch_of_begun begun
  have start := @inv_begun mirror (List.replicate 32 1) _ _ _ _ _ _ rfl begun
  obtain ⟨inv, receiver, decrypted⟩ := start.run_sends [1] (List.replicate 12 2) 65
  have sent : (run (Session.step mirror (List.replicate 32 1))
      ⟨⟨List.replicate 16 7, List.replicate 32 1, 1, List.replicate 32 5, 0⟩, [],
        ⟨List.replicate 16 7, List.replicate 32 1, 1, List.replicate 32 5, 0, ∅, .empty⟩, ∅⟩
      (List.replicate 65 (.send [1] (List.replicate 12 2)))).sent.length = 65 := by
    decide +kernel
  rw [run_append]
  generalize run (Session.step mirror (List.replicate 32 1)) _
    (List.replicate 65 (.send [1] (List.replicate 12 2))) = w at *
  obtain ⟨filling, sameSent⟩ := filling_two correct valid inv (by omega) receiver decrypted
  have keeps : ¬ Overfills w.receiver 1 := by
    rintro ⟨-, below, -⟩
    rw [receiver] at below
    exact absurd below (by decide)
  obtain ⟨w', reached, inv', filling', sent'⟩ :=
    filling.run correct valid (inv.deliver correct keeps) (by omega) 63 (by decide)
      (by rw [sameSent, sent])
  rw [run_cons, run_append, reached, run_cons, run_nil]
  obtain ⟨⟨text, wire⟩, found⟩ : ∃ entry, w'.sent[0]? = some entry := by
    refine ⟨_, List.getElem?_eq_getElem ?_⟩
    rw [sent', sameSent, sent]
    decide
  obtain ⟨opened, delivered, f, isZero, done⟩ := inv'.deliver_returns correct valid found
    (fun member => by have := filling'.decrypted 0 member; omega) (.inl filling'.stashed)
  intro validates
  simp only [Session.step, found, delivered] at validates
  rw [← isZero] at validates
  have bounded := (validateReceivingChain_eq_ok.mp validates).2.2.2.2.2.1
  refine (card_settle_iff mirror done).mp bounded ⟨?_, ?_, ?_⟩
  · rw [isZero]
    exact filling'.stashed
  · rw [isZero, filling'.counter]
    decide
  · intro c low high
    rw [filling'.counter] at low high
    exact filling'.seen c low high

/-- In-order delivery of one message. -/
theorem receiver_never_bricks_in_order :
    ∃ sender receiver,
      beginNewEpoch (List.replicate 16 7) (List.replicate 32 1) 1 (List.replicate 32 5) =
        .ok sender ∧
      receiveNewEpoch (List.replicate 16 7) (List.replicate 32 1) 1 (List.replicate 32 5) =
        .ok receiver ∧
      validateReceivingChain (run (Session.step mirror (List.replicate 32 1))
        ⟨sender, [], receiver, ∅⟩
        [.send [1] (List.replicate 12 2), .deliver 0]).receiver = .ok () := by
  obtain ⟨sender, begunSender⟩ : ∃ sender, beginNewEpoch (List.replicate 16 7)
      (List.replicate 32 1) 1 (List.replicate 32 5) = .ok sender := ⟨_, rfl⟩
  obtain ⟨receiver, begunReceiver⟩ : ∃ receiver, receiveNewEpoch (List.replicate 16 7)
      (List.replicate 32 1) 1 (List.replicate 32 5) = .ok receiver := ⟨_, rfl⟩
  refine ⟨sender, receiver, begunSender, begunReceiver, ?_⟩
  have sends : (Session.step mirror (List.replicate 32 1) ⟨sender, [], receiver, ∅⟩
      (.send [1] (List.replicate 12 2))).receiver = receiver := by
    unfold Session.step
    dsimp only
    split <;> rfl
  have keeps : EachStep (Session.step mirror (List.replicate 32 1)) KeepsWindow
      ⟨sender, [], receiver, ∅⟩ [.send [1] (List.replicate 12 2), .deliver 0] := by
    refine ⟨trivial, ?_, trivial⟩
    rintro ⟨-, below, -⟩
    rw [sends, (receiveNewEpoch_eq_ok begunReceiver).2] at below
    simp at below
  exact (receiver_never_bricks mirror (List.replicate 32 1) mirror_correct _ _ _ _ sender receiver
    begunSender begunReceiver _ keeps).1

end OneLink.GroupsCrypto
