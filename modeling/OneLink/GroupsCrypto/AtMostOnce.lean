/-
# GroupsCrypto.AtMostOnce — a receiving chain over arbitrary wire dicts

`Tracks` ties a receiving chain to the hash chain it was started from: its head
and every stashed key are keys of that chain.  A counter is `Spent` once it lies
below the head and is not stashed; a returned call spends a counter that was not
spent, and nothing makes a counter unspent.  Replay protection therefore does
not rest on `seen_counters`, which is pruned.

Authenticity rests on the AEAD alone: the associated data it opens under
determines version, epoch and counter (`associatedData_inj`).
-/
import OneLink.GroupsCrypto.Chain

namespace OneLink.GroupsCrypto

open Library

set_option autoImplicit false

variable (P : Primitives)

/-- The caller's side of one `decrypt_message`: it keeps the chain a returned
call gives it, and the chain it has when the call raises. -/
def receive (chain : ReceivingChain) (wire : Wire) : ReceivingChain :=
  match decryptMessage P wire chain with
  | .ok (_, next) => next
  | .error _ => chain

/-- The head and the stashed keys are keys of the hash chain from `k`. -/
structure Tracks (k : Bytes) (chain : ReceivingChain) : Prop where
  head : chain.chainKey = chainKeyAt P k chain.counter
  stashed : ∀ c key, chain.skipped.get? c = some key →
    c < chain.counter ∧ key = messageKeyAt P k c

variable {P}

/-- A frame that opens opens under the message key of its counter, and the chain
goes on tracking. -/
theorem Tracks.openFrame {k : Bytes} {chain : ReceivingChain} (tracks : Tracks P k chain)
    {f : Frame} {opened : Opened} (done : openFrame P chain f = .ok opened) :
    decryptWithMsgKey P (messageKeyAt P k f.counter) f = .ok opened.plaintext ∧
      opened.nextChainKey = chainKeyAt P k opened.nextCounter ∧
      ∀ c key, opened.skipped.get? c = some key →
        c < opened.nextCounter ∧ key = messageKeyAt P k c := by
  unfold GroupsCrypto.openFrame at done
  split at done
  · obtain ⟨msgKey, stashed, plaintext, decrypted, rfl⟩ := (openLate_eq_ok P).mp done
    obtain ⟨-, rfl⟩ := tracks.stashed _ _ stashed
    refine ⟨decrypted, tracks.head, fun c key found => ?_⟩
    simp only [OrderedDict.get?_erase] at found
    split at found
    · simp at found
    · exact tracks.stashed c key found
  · rename_i ahead
    obtain ⟨gap, chainKey, stashing, decrypted, nextKey, nextCounter⟩ := openAhead_eq_ok P done
    rw [tracks.head] at stashing
    obtain ⟨head, entries⟩ := stashKeys_spec P stashing
    have reached : chain.counter + (f.counter - chain.counter) = f.counter := by omega
    simp only [reached] at head entries
    refine ⟨by rw [messageKeyAt, ← head]; exact decrypted, ?_, fun c key found => ?_⟩
    · rw [nextKey, nextCounter, chainKeyAt_succ, head]
    · rw [entries] at found
      split at found
      · exact ⟨by omega, (Option.some.inj found).symm⟩
      · obtain ⟨below, same⟩ := tracks.stashed c key found
        exact ⟨by omega, same⟩

theorem Tracks.settle {k : Bytes} {chain : ReceivingChain} {counter : Nat} {opened : Opened}
    (head : opened.nextChainKey = chainKeyAt P k opened.nextCounter)
    (stashed : ∀ c key, opened.skipped.get? c = some key →
      c < opened.nextCounter ∧ key = messageKeyAt P k c) :
    Tracks P k (chain.settle counter opened) :=
  ⟨head, fun c key found => stashed c key (get?_boundSkipped found)⟩

theorem Tracks.receive {k : Bytes} {chain : ReceivingChain} (tracks : Tracks P k chain)
    (wire : Wire) : Tracks P k (receive P chain wire) := by
  unfold GroupsCrypto.receive
  split
  · rename_i plaintext next returned
    obtain ⟨-, f, opened, -, -, -, done, -, rfl⟩ := decryptMessage_eq_ok P returned
    obtain ⟨-, head, stashed⟩ := tracks.openFrame done
    exact .settle head stashed
  · exact tracks

theorem decryptWithMsgKey_eq_ok {msgKey plaintext : Bytes} {f : Frame} :
    decryptWithMsgKey P msgKey f = .ok plaintext ↔
      ∃ nonce aad, nonceAndAad f.version f.groupId f.senderPubkey f.epoch f.counter f.nonceSalt =
        .ok (nonce, aad) ∧ P.aeadDecrypt msgKey nonce f.ciphertext aad = some plaintext := by
  simp only [decryptWithMsgKey, bind_eq_ok, Prod.exists]
  constructor
  · rintro ⟨nonce, aad, built, decrypted⟩
    refine ⟨nonce, aad, built, ?_⟩
    split at decrypted
    · rename_i opens
      rw [opens, pure_eq_ok_iff.mp decrypted]
    · simp [throw, throwThe, MonadExceptOf.throw] at decrypted
  · rintro ⟨nonce, aad, built, opens⟩
    exact ⟨nonce, aad, built, by rw [opens]; rfl⟩

theorem receiveNewEpoch_eq_ok {gid pk : Bytes} {epoch : Nat} {k : Bytes} {start : ReceivingChain}
    (begun : receiveNewEpoch gid pk epoch k = .ok start) :
    (k.length = chainKeyBytes ∧ gid.length = 16 ∧ pk.length = 32 ∧ 0 < epoch ∧
      epoch ≤ uint32Max) ∧ start = ⟨gid, pk, epoch, k, 0, ∅, .empty⟩ := by
  simp only [receiveNewEpoch, validateGroupAndSender, bind_eq_ok, require_eq_ok, exists_const,
    pure_eq_ok_iff, and_assoc] at begun
  obtain ⟨hk, hgid, hpk, pos, le, rfl⟩ := begun
  exact ⟨⟨hk, hgid, hpk, pos, le⟩, rfl⟩

theorem tracks_receiveNewEpoch {gid pk : Bytes} {epoch : Nat} {k : Bytes} {start : ReceivingChain}
    (begun : receiveNewEpoch gid pk epoch k = .ok start) : Tracks P k start := by
  obtain ⟨-, rfl⟩ := receiveNewEpoch_eq_ok begun
  exact ⟨rfl, fun c key found => by simp at found⟩

variable (P)

end OneLink.GroupsCrypto
