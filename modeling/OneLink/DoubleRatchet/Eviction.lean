/-
# DoubleRatchet.Eviction — when an overtaken frame is lost

An overtaken frame opens with its stashed key or not at all.  The stash is first
in, first out, so the oldest key goes when `MAX_SKIP_KEYS` newer ones have come;
`late_frame_lost` is such a run, in which every gap is within `MAX_SKIP_KEYS`.
-/
import OneLink.DoubleRatchet.Guarantees

namespace OneLink.DoubleRatchet

open Library

set_option autoImplicit false

def emptyCiphertext : Bytes := List.replicate 16 0

/-- Alice seals `gap + 3` empty messages.  Bob receives message `gap`, which stashes
`gap` keys, and then message `gap + 2`, which stashes one more. -/
def lateRun (gap : Nat) : List (Action UInt8) :=
  (List.replicate (gap + 3) []).map (fun plaintext => .encrypt .alice plaintext []) ++
    [.deliver .bob (firstChainHeader gap) emptyCiphertext [] 3] ++
    [.deliver .bob (firstChainHeader (gap + 2)) emptyCiphertext [] 4]

def lateWorld (gap : Nat) : World Term UInt8 :=
  run (World.step symbolic) (World.start symbolicAlice (initBob symbolic .secret 1) 1 2)
    (lateRun gap)

def firstId (n : Nat) : MessageId := (symbolic.publicBytes 2, n)

theorem firstId_inj {n n' : Nat} : firstId n = firstId n' ↔ n = n' := by
  simp [firstId]

theorem nodup_stashed (gap : Nat) :
    (stashedIds (symbolic.publicBytes 2) 0 gap ++ [firstId (gap + 1)]).Nodup := by
  refine List.Nodup.append (List.Nodup.map (fun _ _ => firstId_inj.mp) List.nodup_range')
    (List.nodup_singleton _) ?_
  simp [stashedIds, firstId]

theorem mem_sent {count n : Nat} (low : n < count) :
    firstChainFrame n [] ∈ (sealedWorld (List.replicate count [])).sent := by
  refine List.mem_map.mpr ⟨([], n), List.mem_of_getElem? (i := n) ?_, rfl⟩
  simp [low]

/-- Bob is at message `s.recvN` of Alice's first chain, and has stashed the keys of `history` but
for those that were evicted. -/
structure OnFirstChain (s : RatchetState Term UInt8) (history : List MessageId) : Prop where
  chain : s.recvChainKey = some ((nextChain symbolic)^[s.recvN] firstChain)
  peer : s.dhRecvPub = some (symbolic.publicBytes 2)
  window : s.skipped.Window maxSkipKeys history fun _ => False

/-- A message ahead on the first chain opens, once Bob is there. -/
theorem OnFirstChain.receives {s₀ s : RatchetState Term UInt8} {history : List MessageId}
    (here : OnFirstChain s history) {count : Nat} (few : count ≤ 2 ^ 32) {n : Nat} (low : n < count) {fresh : UInt8}
    (ratchets : ratchetIfNew symbolic s₀ (firstChainHeader n) fresh = .ok s)
    (unseen : firstId n ∉ s₀.decryptedSeen.keys) (unstashed : firstId n ∉ s₀.skipped.keys)
    (ahead : s.recvN ≤ n) (near : n ≤ s.recvN + maxSkipKeys)
    (distinct : (history ++ stashedIds (symbolic.publicBytes 2) s.recvN (n - s.recvN)).Nodup) :
    ∃ s', decrypt symbolic (sealedWorld (List.replicate count [])).boxes s₀ (firstChainHeader n)
        emptyCiphertext [] fresh = .ok ([], s') ∧ s'.recvN = n + 1 ∧
      s'.decryptedSeen = (s.markSeen (firstId n)).decryptedSeen ∧
      OnFirstChain s' (history ++ stashedIds (symbolic.publicBytes 2) s.recvN (n - s.recvN)) := by
  obtain ⟨advanced, skips⟩ : ∃ s', skipKeys symbolic .tooManySkipped .recvChainPast s n = .ok s' :=
    skipKeys_isOk (fun _ => near) (by simp only [maxMsgPerChain]; omega)
  obtain ⟨skipped, rfl, window, -⟩ := skipKeys_eq_ok skips here.chain here.peer here.window distinct
  rw [Nat.max_eq_right ahead] at skips
  have opened : openUnder (sealedWorld (List.replicate count [])).boxes
      (messageKey symbolic ((nextChain symbolic)^[n] firstChain)) (firstChainHeader n)
      emptyCiphertext [] = .ok [] := by
    refine openUnder_eq_ok.mpr ⟨_, firstChainHeader_encode (by omega), ?_⟩
    -- all plaintexts are empty, so no other box can open instead
    refine aeadDecrypt_box (show (firstChainFrame n []).box ∈ _ from
      List.mem_map_of_mem (mem_sent low)) fun other member _ _ => ?_
    simp only [sealedWorld, List.map_map, List.mem_map] at member
    obtain ⟨⟨plaintext, m⟩, entry, rfl⟩ := member
    have empty : plaintext = [] := by rw [(List.mem_zipIdx' entry).2, List.getElem_replicate]
    exact empty
  have absent := (OrderedDict.not_mem_keys_iff s₀.skipped).mp unstashed
  refine ⟨_, decrypt_eq_ok.mpr ⟨unseen, .inr ⟨absent, s, _, _, ratchets,
    advanceTo_eq_ok.mpr ⟨ahead, skips⟩, rfl, opened, rfl⟩⟩, rfl, rfl, ?_, here.peer, window⟩
  exact congrArg some (nextChain_iterate n firstChain)

/-- Both deliveries return, and leave Bob behind message `gap + 2` with all other keys stashed. -/
theorem lateWorld_reached {gap : Nat} (near : gap ≤ maxSkipKeys) :
    (lateWorld gap).sent = (sealedWorld (List.replicate (gap + 3) [])).sent ∧
      (lateWorld gap).returnedTo .bob = [firstId gap, firstId (gap + 2)] ∧
      (lateWorld gap).generated = [1, 2, 3, 4] ∧ ((lateWorld gap).state .bob).recvN = gap + 3 ∧
      OnFirstChain ((lateWorld gap).state .bob)
        (stashedIds (symbolic.publicBytes 2) 0 gap ++ [firstId (gap + 1)]) := by
  have few : gap + 3 ≤ 2 ^ 32 := by simp only [maxSkipKeys] at near; omega
  -- message `gap` starts the chain
  have ratchets : ratchetIfNew symbolic (initBob symbolic .secret 1) (firstChainHeader gap) 3 =
      .ok ((initBob symbolic .secret 1).ratcheted symbolic (symbolic.publicBytes 2) 3) :=
    (dhRatchet_eq_ok symbolic).mpr ⟨_, rfl, symbolic_accepted 2, Term.noConfusion, Term.noConfusion, rfl⟩
  obtain ⟨s, decrypts, recvN, seen, first⟩ := OnFirstChain.receives
    ⟨rfl, rfl, .empty _⟩ few (by omega) ratchets List.not_mem_nil List.not_mem_nil (Nat.zero_le _)
    (near.trans (Nat.le_add_left _ _)) (List.Nodup.of_append_left (nodup_stashed gap))
  have first : OnFirstChain s (stashedIds (symbolic.publicBytes 2) 0 gap) := first
  have delivered : (sealedWorld (List.replicate (gap + 3) [])).delivers symbolic .bob _ _ _ _ = _ :=
    World.delivers_of_ok decrypts
  -- message `gap + 2` comes next, on the same chain
  have unseen : firstId (gap + 2) ∉ s.decryptedSeen.keys := by
    rw [seen]
    rintro member
    rcases mem_markSeen member with same | nothing
    · exact absurd (firstId_inj.mp same) (by omega)
    · exact List.not_mem_nil nothing
  have stays : ratchetIfNew symbolic s (firstChainHeader (gap + 2)) 4 = .ok s :=
    if_neg fun moved => moved first.peer
  have one : stashedIds (symbolic.publicBytes 2) s.recvN (gap + 2 - s.recvN) =
      [firstId (gap + 1)] := by
    rw [recvN, show gap + 2 - (gap + 1) = 1 by omega]
    rfl
  obtain ⟨s', decrypts', recvN', -, second⟩ := first.receives few (by omega) stays unseen
    (fun stashed => absurd (first.window.ordered.subset stashed) (by simp [stashedIds, firstId]))
    (by omega) (by simp only [maxSkipKeys]; omega) (by rw [one]; exact nodup_stashed gap)
  rw [one] at second
  have sealing := run_seals (List.replicate (gap + 3) []) (by rw [List.length_replicate]; exact few)
  have final : lateWorld gap = ((sealedWorld (List.replicate (gap + 3) [])).returns .bob
      (firstChainHeader gap) [] [] 3 s).returns .bob (firstChainHeader (gap + 2)) [] [] 4 s' := by
    rw [lateWorld, lateRun, run_append, run_append, sealing]
    simp only [run_cons, run_nil, World.step]
    rw [delivered]
    exact World.delivers_of_ok decrypts'
  rw [final]
  exact ⟨rfl, rfl, rfl, recvN', second⟩

/-- Message 0 of `lateRun 1000` is authentic, has not been returned, and implies no gap, yet
it does not open. -/
theorem late_frame_lost :
    Ideal symbolic .secret ∧
      initPair symbolic .secret 1 2 = .ok (symbolicAlice, initBob symbolic .secret 1) ∧
      FreshKeys symbolic ((lateWorld maxSkipKeys).generated ++ [5]) ∧
      firstChainFrame 0 [] ∈ (lateWorld maxSkipKeys).sent ∧
      (lateWorld maxSkipKeys).hasReturned (firstChainFrame 0 []) = false ∧
      WithinWindow ((lateWorld maxSkipKeys).state .bob) (firstChainHeader 0) ∧
      ¬ ∃ result, decrypt symbolic (lateWorld maxSkipKeys).boxes
        ((lateWorld maxSkipKeys).state .bob) (firstChainHeader 0) emptyCiphertext [] 5 =
          .ok result := by
  obtain ⟨sent, returned, generated, recvN, chain⟩ := lateWorld_reached (Nat.le_refl maxSkipKeys)
  generalize lateWorld maxSkipKeys = w at *
  refine ⟨symbolic_ideal, symbolic_initPair, by rw [generated]; exact symbolic_freshKeys,
    by rw [sent]; exact mem_sent (by omega), ?_, ?_, ?_⟩
  · refine decide_eq_false (show firstId 0 ∉ w.returnedTo .bob from ?_)
    rw [returned, List.mem_pair, firstId_inj, firstId_inj]
    decide
  · exact (if_pos chain.peer).mpr (Nat.zero_le _)
  rintro ⟨⟨plaintext, s'⟩, opened⟩
  obtain ⟨-, ⟨key, stashed, -⟩ | ⟨-, ratcheted, advanced, -, ratchets, advances, -⟩⟩ :=
    decrypt_eq_ok.mp opened
  · -- its key is the oldest of 1001
    have oldest : stashedIds (symbolic.publicBytes 2) 0 maxSkipKeys ++ [firstId (maxSkipKeys + 1)] =
        [] ++ firstId 0 :: (stashedIds (symbolic.publicBytes 2) 1 999 ++ [firstId 1001]) := rfl
    exact chain.window.evicted (nodup_stashed _) oldest (by simp [stashedIds, maxSkipKeys])
      (fun _ _ gone => gone) ((OrderedDict.mem_keys_iff _).mpr ⟨key, stashed⟩)
  · rw [ratchetIfNew, if_neg fun moved => moved chain.peer] at ratchets
    cases ratchets
    have passed := (advanceTo_eq_ok.mp advances).1
    rw [recvN] at passed
    exact absurd passed (by decide)

end OneLink.DoubleRatchet
