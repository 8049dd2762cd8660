/-
# DoubleRatchet.Guarantees — what a session promises, over every run

From a matched pair and over any actions of the network, `session_guarantees`:
what `decrypt` returns is what the peer sealed, no message is returned twice,
and a sealed frame opens when it arrives, in three cases.  It is still ahead of
the receiver and within `MAX_SKIP_KEYS`; or it was overtaken and its key is
still stashed; or it was overtaken and fewer than `MAX_SKIP_KEYS` of the frames
sealed after it were overtaken too, in which case its key is still stashed.

The stash is bounded, so an overtaken frame can be lost although no gap exceeds
`MAX_SKIP_KEYS`; `DoubleRatchet.Eviction` has such a run.
-/
import OneLink.DoubleRatchet.Delivery

namespace OneLink.DoubleRatchet

open Library

set_option autoImplicit false

variable {Key Priv : Type} [DecidableEq Key] {P : Primitives Key Priv} {secret : Key}
  {w : World Key Priv} {l : Ladder Key Priv} {top : Nat} {tags : List (Tagged Key)}
  {hist : Party → List Position}

/-! ## Every run agrees -/

omit [DecidableEq Key] in
theorem World.generated_encrypts (w : World Key Priv) (who : Party) (plaintext ad : Bytes) :
    (w.encrypts P who plaintext ad).generated = w.generated := by
  unfold World.encrypts
  split <;> rfl

theorem World.generated_delivers (w : World Key Priv) (who : Party) (header : Header)
    (ciphertext ad : Bytes) (fresh : Priv) :
    (w.delivers P who header ciphertext ad fresh).generated = w.generated ++ [fresh] := by
  unfold World.delivers
  split <;> rfl

theorem agreement_run (ideal : Ideal P secret) {alice bob : RatchetState Key Priv}
    {bobKey aliceKey : Priv} (init : initPair P secret bobKey aliceKey = .ok (alice, bob))
    (actions : List (Action Priv))
    (keys : FreshKeys P
      (run (World.step P) (World.start alice bob bobKey aliceKey) actions).generated) :
    ∃ l top tags hist, Agreement P secret
      (run (World.step P) (World.start alice bob bobKey aliceKey) actions) l top tags hist := by
  induction actions using List.reverseRec with
  | nil => exact ⟨_, _, _, _, agreement_start init keys⟩
  | append_singleton early action ih =>
    rw [run_append, run_cons, run_nil] at keys ⊢
    cases action with
    | encrypt who plaintext ad =>
      simp only [World.step, World.generated_encrypts] at keys
      obtain ⟨l, top, tags, hist, agree⟩ := ih keys
      obtain ⟨l', tags', agree'⟩ := agree.encrypts keys who plaintext ad
      exact ⟨l', top, tags', hist, agree'⟩
    | deliver who header ciphertext ad fresh =>
      simp only [World.step, World.generated_delivers] at keys
      obtain ⟨l, top, tags, hist, agree⟩ := ih keys.of_append
      obtain ⟨l', top', hist', agree'⟩ := agree.delivers ideal keys
      exact ⟨l', top', tags, hist', agree'⟩

/-! ## Frames of the log -/

section Log

omit [DecidableEq Key]

/-- Among the frames of one sender, a later position stands later in the log. -/
theorem Agreement.later_of_before (agree : Agreement P secret w l top tags hist)
    {early late : List (Tagged Key)} {t t' : Tagged Key} (split : tags = early ++ t :: late)
    (member : t' ∈ tags) (sameSender : t'.2.sender = t.2.sender)
    (before : Before t.position t'.position) : t' ∈ late := by
  have ordered := agree.ordered
  rw [split, List.pairwise_append, List.pairwise_cons] at ordered
  rw [split] at member
  rcases List.mem_append.mp member with inEarly | rest
  · have back := ordered.2.2 t' inEarly t (by simp) sameSender
    exact absurd rfl (before.trans back).ne
  · rcases List.mem_cons.mp rest with rfl | inLate
    · exact absurd rfl before.ne
    · exact inLate

theorem Agreement.id_frame (agree : Agreement P secret w l top tags hist) {t : Tagged Key}
    (member : t ∈ tags) : t.2.header.id = l.idOf P t.position := by
  rw [Header.id, Ladder.idOf, (agree.sealed t member).1.dh]
  rfl

theorem Agreement.sender_eq (agree : Agreement P secret w l top tags hist) {t t' : Tagged Key}
    (member : t ∈ tags) (member' : t' ∈ tags) (parity : t.1 % 2 = t'.1 % 2) :
    t.2.sender = t'.2.sender := by
  have sends := (agree.sealed t member).1.sender
  have sends' := (agree.sealed t' member').1.sender
  cases hs : t.2.sender <;> cases hs' : t'.2.sender <;> rw [hs] at sends <;> rw [hs'] at sends' <;>
    simp only [Party.parity] at sends sends' <;> first | rfl | omega

/-- A message is sealed once. -/
theorem Agreement.tag_unique (agree : Agreement P secret w l top tags hist) {t t' : Tagged Key}
    (member : t ∈ tags) (member' : t' ∈ tags) (same : t.2.header.id = t'.2.header.id) :
    t = t' := by
  rw [agree.id_frame member, agree.id_frame member'] at same
  have place := agree.climbs.idOf_inj (agree.chain_lt member) (agree.chain_lt member') same
  have parity : t'.1 % 2 = t.1 % 2 := (congrArg (fun q : Position => q.1 % 2) place).symm
  have sameSender := agree.sender_eq member' member parity
  have ordered := agree.ordered
  obtain ⟨early, late, split⟩ := List.append_of_mem member
  rw [split, List.pairwise_append, List.pairwise_cons] at ordered
  rw [split] at member'
  rcases List.mem_append.mp member' with inEarly | rest
  · exact absurd place.symm (ordered.2.2 t' inEarly t (by simp) sameSender).ne
  · rcases List.mem_cons.mp rest with rfl | inLate
    · rfl
    · exact absurd place (ordered.2.1.1 t' inLate sameSender.symm).ne

theorem Agreement.receiver_parity (agree : Agreement P secret w l top tags hist) {t : Tagged Key}
    (member : t ∈ tags) : t.1 % 2 = levelOf top t.2.sender.peer % 2 := by
  have sends := (agree.sealed t member).1.sender
  have := t.2.sender.parity_peer
  rw [(levelOf_cases t.2.sender.peer agree.pos).1]
  omega

end Log

/-- A sealed frame opens under the key of its position. -/
theorem Agreement.openUnder_frame (agree : Agreement P secret w l top tags hist) {t : Tagged Key}
    (member : t ∈ tags) :
    openUnder w.boxes (l.keyAt P t.position) t.2.header t.2.box.ciphertext t.2.ad =
      .ok t.2.box.plaintext := by
  obtain ⟨encoded, encodes, keyAt, nonce, aad⟩ := (agree.sealed t member).1.box
  refine openUnder_eq_ok.mpr ⟨encoded, encodes, ?_⟩
  have inBoxes : t.2.box ∈ w.boxes := by
    rw [World.boxes, agree.sent]
    exact List.mem_map_of_mem (List.mem_map_of_mem member)
  have opened := aeadDecrypt_box inBoxes ?_
  · rwa [keyAt, nonce, aad] at opened
  · -- equal associated data means equal headers, and those mean one frame
    intro box inBoxes' _ sameAad
    rw [World.boxes, agree.sent, List.map_map, List.mem_map] at inBoxes'
    obtain ⟨t', member', rfl⟩ := inBoxes'
    obtain ⟨encoded', encodes', -, -, aad'⟩ := (agree.sealed t' member').1.box
    simp only [Function.comp_apply] at sameAad ⊢
    rw [aad, aad'] at sameAad
    obtain ⟨sameDh, -, sameN, -⟩ := Header.encode_append_inj encodes' encodes sameAad
    rw [agree.tag_unique member' member (Prod.ext sameDh sameN)]

/-! ## Delivery -/

/-- The gaps a frame implies are within `MAX_SKIP_KEYS`: on the current chain from
`recv_n` to `header.n`; else on the prior chain up to `header.pn`, if there is one, and on
the new chain from its start. -/
def WithinWindow (s : RatchetState Key Priv) (header : Header) : Prop :=
  if s.dhRecvPub = some header.dh then header.n ≤ s.recvN + maxSkipKeys
  else (s.recvChainKey.isSome → header.pn ≤ s.recvN + maxSkipKeys) ∧ header.n ≤ maxSkipKeys

instance (s : RatchetState Key Priv) (header : Header) : Decidable (WithinWindow s header) :=
  inferInstanceAs (Decidable (if s.dhRecvPub = some header.dh then
      header.n ≤ s.recvN + maxSkipKeys
    else (s.recvChainKey.isSome → header.pn ≤ s.recvN + maxSkipKeys) ∧ header.n ≤ maxSkipKeys))

section Deliver

variable {t : Tagged Key}

theorem Agreement.decrypts_stashed (agree : Agreement P secret w l top tags hist)
    (member : t ∈ tags)
    (stashed : t.2.header.id ∈ (w.state t.2.sender.peer).skipped.keys) (fresh : Priv) :
    ∃ s', decrypt P w.boxes (w.state t.2.sender.peer) t.2.header t.2.box.ciphertext t.2.ad fresh =
      .ok (t.2.box.plaintext, s') := by
  have receives := agree.receives t.2.sender.peer
  obtain ⟨msgKey, present⟩ := (OrderedDict.mem_keys_iff _).mp stashed
  obtain ⟨unreturned, q, inHist, sameId, rfl⟩ := receives.stash.entries _ _ present
  have place : t.position = q := by
    obtain ⟨parity, -, before⟩ := receives.stash.stashed q inHist
    have low := before.of_frontOf parity
    have := levelOf_le top t.2.sender.peer
    rw [agree.id_frame member] at sameId
    exact agree.climbs.idOf_inj (agree.chain_lt member) (by omega) sameId
  have unseen : t.2.header.id ∉ (w.state t.2.sender.peer).decryptedSeen.keys :=
    fun seen => unreturned (receives.seen _ seen)
  exact ⟨_, decrypt_eq_ok.mpr ⟨unseen, .inl ⟨_, present, place ▸ agree.openUnder_frame member,
    rfl⟩⟩⟩

omit [DecidableEq Key] in
/-- What the receiver has not passed is on its current chain or one rung up. -/
theorem Agreement.ahead_cases (agree : Agreement P secret w l top tags hist) (member : t ∈ tags)
    (ahead : ¬ Before t.position (frontOf (levelOf top t.2.sender.peer)
      (w.state t.2.sender.peer).recvN)) :
    levelOf top t.2.sender.peer = t.1 + 2 ∧
        (w.state t.2.sender.peer).recvN ≤ t.2.header.n ∨
      levelOf top t.2.sender.peer = t.1 ∧ t.1 + 1 = top := by
  have parity := agree.receiver_parity member
  have below := (agree.sealed t member).2
  obtain ⟨-, levels⟩ := levelOf_cases t.2.sender agree.pos
  unfold frontOf Before Tagged.position at ahead
  split at ahead
  · simp only at ahead
    omega
  · simp only at ahead
    omega

theorem Agreement.decrypts_ahead (agree : Agreement P secret w l top tags hist)
    (member : t ∈ tags)
    (ahead : ¬ Before t.position (frontOf (levelOf top t.2.sender.peer)
      (w.state t.2.sender.peer).recvN))
    (window : WithinWindow (w.state t.2.sender.peer) t.2.header)
    (unstashed : (w.state t.2.sender.peer).skipped.get? t.2.header.id = none)
    (unseen : t.2.header.id ∉ (w.state t.2.sender.peer).decryptedSeen.keys)
    {fresh : Priv} (keys : FreshKeys P (w.generated ++ [fresh])) :
    ∃ s', decrypt P w.boxes (w.state t.2.sender.peer) t.2.header t.2.box.ciphertext t.2.ad fresh =
      .ok (t.2.box.plaintext, s') := by
  have sealed := (agree.sealed t member).1
  have opened := agree.openUnder_frame member
  have sends := agree.sends t.2.sender.peer
  have receives := agree.receives t.2.sender.peer
  obtain ⟨encoded, encodes, -⟩ := sealed.box
  obtain ⟨-, ⟨pnSmall, nSmall⟩, -⟩ := Header.encode_eq_ok.mp encodes
  generalize hs : w.state t.2.sender.peer = s at *
  -- it is enough to reach the frame's position with the chain key of that position
  suffices reach : ∃ ratcheted advanced, ratchetIfNew P s t.2.header fresh = .ok ratcheted ∧
      advanceTo P ratcheted t.2.header.n = .ok advanced ∧
      advanced.recvChainKey = some ((nextChain P)^[t.2.header.n] (l.chain t.1)) by
    obtain ⟨ratcheted, advanced, ratchets, advances, hasChain⟩ := reach
    exact ⟨_, decrypt_eq_ok.mpr ⟨unseen, .inr ⟨unstashed, ratcheted, advanced, _, ratchets,
      advances, hasChain, opened, rfl⟩⟩⟩
  rcases agree.ahead_cases member (hs ▸ ahead) with ⟨level, notPassed⟩ | ⟨level, isTop⟩
  · rw [hs] at notPassed
    obtain ⟨onChain, -⟩ := receives.onChain t.1 level
    obtain ⟨-, recvPub, -⟩ := sends.ready (t.1 + 1) level
    rw [← sealed.dh] at recvPub
    rw [WithinWindow, if_pos recvPub] at window
    obtain ⟨advanced, skips⟩ : ∃ advanced, skipRecvKeys P s t.2.header.n = .ok advanced :=
      skipKeys_isOk (fun _ => window) nSmall.le
    exact ⟨s, advanced, if_neg (not_not_intro recvPub), advanceTo_eq_ok.mpr ⟨notPassed, skips⟩,
      skipKeys_chain skips onChain recvPub notPassed⟩
  · have newKey : s.dhRecvPub ≠ some t.2.header.dh := by
      rw [sealed.dh]
      cases hL : levelOf top t.2.sender.peer with
      | zero =>
        rw [(sends.idle hL).2.2]
        exact fun impossible => by cases impossible
      | succ k =>
        rw [(sends.ready k hL).2.1]
        intro same
        have := agree.climbs.distinct _ _ (by omega) (by omega) (Option.some.inj same)
        omega
    rw [WithinWindow, if_neg newKey] at window
    obtain ⟨mid, skipsPrior⟩ : ∃ mid, skipPriorKeys P s t.2.header.pn = .ok mid :=
      skipKeys_isOk (fun hasChain => window.1 (Option.isSome_iff_ne_none.mpr hasChain)) pnSmall.le
    obtain ⟨priorChain, priorN, priorSkipped, rfl⟩ := skipKeys_frame skipsPrior
    have drawn : ∀ k ≤ top, l.key k ∈ w.generated ++ [fresh] :=
      fun k low => List.mem_append_left _ (agree.climbs.drawn k low)
    have accepted : isSmallOrderX25519 t.2.header.dh = false := by
      rw [sealed.dh]
      exact keys.accepted _ (drawn _ (by omega))
    have nonzero : P.exchange s.dhSend t.2.header.dh ≠ P.zeroKey := by
      rw [sealed.dh, sends.dhSend]
      exact keys.nonzero _ (drawn _ (levelOf_le _ _)) _ (drawn _ (by omega))
    have nonzero' : P.exchange fresh t.2.header.dh ≠ P.zeroKey := by
      rw [sealed.dh]
      exact keys.nonzero _ (by simp) _ (drawn _ (by omega))
    have ratchets : dhRatchet P s t.2.header fresh = .ok _ :=
      (dhRatchet_eq_ok P).mpr ⟨_, skipsPrior, accepted, nonzero, nonzero', rfl⟩
    obtain ⟨advanced, skips⟩ : ∃ advanced, skipRecvKeys P (RatchetState.ratcheted P { s with
        recvChainKey := priorChain
        recvN := priorN
        skipped := priorSkipped } t.2.header.dh fresh) t.2.header.n = .ok advanced :=
      skipKeys_isOk (fun _ => Nat.le_trans window.2 (Nat.le_add_left _ _)) nSmall.le
    refine ⟨_, advanced, (if_pos newKey).trans ratchets,
      advanceTo_eq_ok.mpr ⟨Nat.zero_le _, skips⟩, ?_⟩
    refine skipKeys_chain skips ?_ rfl (Nat.zero_le _)
    show some (kdfRoot P s.rootKey (P.exchange s.dhSend t.2.header.dh)).2 = some (l.chain t.1)
    rw [sends.root, sends.dhSend, sealed.dh, level, agree.climbs.step t.1 (by omega)]

end Deliver

/-! ## Overtaken frames -/

section Overtaken

variable {t : Tagged Key} {early late : List (Tagged Key)}

omit [DecidableEq Key]

/-- A position that `Overtaken` names is a frame that was overtaken in the log. -/
theorem Agreement.overtaken_of (agree : Agreement P secret w l top tags hist)
    (split : tags = early ++ t :: late)
    (overtaken : Overtaken P l (levelOf top t.2.sender.peer) (w.returnedTo t.2.sender.peer)
      t.position) : w.overtaken t.2 (late.map Prod.snd) = true := by
  have member : t ∈ tags := by simp [split]
  obtain ⟨earlyIds, q, lateIds, idsSplit, unreturned, before, parity, low, counted⟩ := overtaken
  obtain ⟨t', member', rfl⟩ := agree.complete q counted
  have sameSender : t'.2.sender = t.2.sender :=
    agree.sender_eq member' member (parity.trans (agree.receiver_parity member).symm)
  have inLate := agree.later_of_before split member' sameSender before
  have ne : l.idOf P t'.position ≠ l.idOf P t.position := fun same =>
    before.ne (agree.climbs.idOf_inj (agree.chain_lt member') (agree.chain_lt member) same).symm
  have kept : ∀ id ∈ earlyIds, decide (id ≠ l.idOf P t.position) = true := by
    intro id inEarly
    exact decide_eq_true fun same => unreturned (same ▸ inEarly)
  have next : (List.takeWhile (fun id => decide (id ≠ l.idOf P t.position))
      (l.idOf P t'.position :: lateIds)) = l.idOf P t'.position ::
        lateIds.takeWhile (fun id => decide (id ≠ l.idOf P t.position)) :=
    List.takeWhile_cons_of_pos (decide_eq_true ne)
  rw [World.overtaken, idsSplit, agree.id_frame member, List.takeWhile_append_of_pos kept, next,
    List.any_eq_true]
  refine ⟨l.idOf P t'.position, by simp, ?_⟩
  rw [List.any_eq_true]
  exact ⟨t'.2, List.mem_map_of_mem inLate, by simp [sameSender, agree.id_frame member']⟩

/-- The frame before the front that was not returned was overtaken. -/
theorem Agreement.overtaken_of_before (agree : Agreement P secret w l top tags hist)
    (split : tags = early ++ t :: late)
    (unreturned : t.2.header.id ∉ w.returnedTo t.2.sender.peer)
    (before : Before t.position (frontOf (levelOf top t.2.sender.peer)
      (w.state t.2.sender.peer).recvN)) : w.overtaken t.2 (late.map Prod.snd) = true := by
  have member : t ∈ tags := by simp [split]
  have receives := agree.receives t.2.sender.peer
  have parity := agree.receiver_parity member
  have low := before.of_frontOf (parity.trans (frontOf_parity _ _).symm)
  have low' : t.1 + 2 ≤ levelOf top t.2.sender.peer := low
  obtain ⟨k, level⟩ : ∃ k, levelOf top t.2.sender.peer = k + 2 :=
    ⟨levelOf top t.2.sender.peer - 2, by omega⟩
  obtain ⟨-, n, recvN, returned⟩ := receives.onChain k level
  have front : frontOf (levelOf top t.2.sender.peer) (w.state t.2.sender.peer).recvN =
      (k, n + 1) := by
    rw [frontOf, if_neg (by omega), level, recvN]
    rfl
  have counted : n < l.count k := by
    have := receives.stash.reached
    rw [front] at this
    exact this
  rw [front] at before
  have earlier : Before t.position (k, n) := by
    have notLast : t.position ≠ (k, n) := by
      intro same
      rw [agree.id_frame member, same] at unreturned
      exact unreturned returned
    rw [ne_eq, Prod.ext_iff] at notLast
    simp only [Before] at before notLast ⊢
    omega
  obtain ⟨earlyIds, lateIds, idsSplit⟩ := List.append_of_mem returned
  refine agree.overtaken_of split ⟨earlyIds, (k, n), lateIds, idsSplit, ?_, earlier, ?_, ?_,
    counted⟩
  · intro inEarly
    rw [agree.id_frame member] at unreturned
    exact unreturned (idsSplit ▸ List.mem_append_left _ inEarly)
  · simp only [level]
    omega
  · simp only [level]
    omega

/-- An overtaken frame is before the front. -/
theorem Agreement.before_of_overtaken (agree : Agreement P secret w l top tags hist)
    (split : tags = early ++ t :: late)
    (overtaken : w.overtaken t.2 (late.map Prod.snd) = true) :
    Before t.position (frontOf (levelOf top t.2.sender.peer)
      (w.state t.2.sender.peer).recvN) := by
  rw [World.overtaken, List.any_eq_true] at overtaken
  obtain ⟨id, returned, inLater⟩ := overtaken
  have returned := (List.takeWhile_sublist _).subset returned
  rw [List.any_eq_true] at inLater
  obtain ⟨frame, inLate, same⟩ := inLater
  obtain ⟨t', tagged, rfl⟩ := List.mem_map.mp inLate
  simp only [Bool.decide_and, Bool.and_eq_true, decide_eq_true_eq] at same
  obtain ⟨sameSender, rfl⟩ := same
  have member' : t' ∈ tags := by simp [split, tagged]
  have ordered := agree.ordered
  rw [split, List.pairwise_append, List.pairwise_cons] at ordered
  have before := ordered.2.1.1 t' tagged sameSender.symm
  obtain ⟨q, sameId, parity, passed⟩ :=
    (agree.receives t.2.sender.peer).stash.opened _ returned
  have low := passed.of_frontOf parity
  have := levelOf_le top t.2.sender.peer
  rw [agree.id_frame member'] at sameId
  rw [← agree.climbs.idOf_inj (agree.chain_lt member') (by omega) sameId] at passed
  exact before.trans passed

theorem World.le_overtakenCount (w : World Key Priv) (sender : Party) (chosen : Tagged Key → Bool)
    (frames : List (Tagged Key))
    (each : ∀ early t late, frames = early ++ t :: late → chosen t = true →
      t.2.sender = sender ∧ w.overtaken t.2 (late.map Prod.snd) = true) :
    (frames.filter chosen).length ≤ w.overtakenCount sender (frames.map Prod.snd) := by
  induction frames with
  | nil => simp
  | cons t frames ih =>
    have rest := ih fun early t' late split => each (t :: early) t' late (by simp [split])
    rw [List.map_cons, World.overtakenCount]
    by_cases isChosen : chosen t = true
    · obtain ⟨isSender, overtaken⟩ := each [] t frames rfl isChosen
      rw [List.filter_cons_of_pos isChosen, List.length_cons, if_pos ⟨isSender, overtaken⟩]
      omega
    · rw [List.filter_cons_of_neg isChosen]
      omega

/-- Eviction takes at least `MAX_SKIP_KEYS` overtaken frames. -/
theorem Agreement.stashed_of_few (agree : Agreement P secret w l top tags hist)
    (split : tags = early ++ t :: late)
    (unreturned : t.2.header.id ∉ w.returnedTo t.2.sender.peer)
    (overtaken : w.overtaken t.2 (late.map Prod.snd) = true)
    (few : w.overtakenCount t.2.sender (late.map Prod.snd) < maxSkipKeys) :
    t.2.header.id ∈ (w.state t.2.sender.peer).skipped.keys := by
  have member : t ∈ tags := by simp [split]
  have receives := agree.receives t.2.sender.peer
  have stash := receives.stash
  have parity := agree.receiver_parity member
  rw [agree.id_frame member] at unreturned ⊢
  have inHist : t.position ∈ hist t.2.sender.peer := by
    have passed := agree.before_of_overtaken split overtaken
    have sameParity := parity.trans (frontOf_parity _ (w.state t.2.sender.peer).recvN).symm
    exact (stash.covers t.position sameParity (agree.sealed t member).1.counted
      passed).resolve_left unreturned
  obtain ⟨pre, post, histSplit⟩ := List.append_of_mem inHist
  have sorted := stash.sorted
  rw [histSplit, List.pairwise_append, List.pairwise_cons] at sorted
  -- what was stashed after the frame are overtaken frames sealed after it
  have younger : ∀ q ∈ post, ∃ t' ∈ late, t'.position = q ∧ t'.2.sender = t.2.sender ∧
      q ∈ hist t.2.sender.peer := by
    intro q inPost
    have inHist' : q ∈ hist t.2.sender.peer := by simp [histSplit, inPost]
    obtain ⟨qParity, counted, -⟩ := stash.stashed q inHist'
    obtain ⟨t', member', rfl⟩ := agree.complete q counted
    rw [frontOf_parity] at qParity
    have sameSender := agree.sender_eq member' member (qParity.trans parity.symm)
    exact ⟨t', agree.later_of_before split member' sameSender (sorted.2.1.1 _ inPost), rfl,
      sameSender, inHist'⟩
  let chosen : Tagged Key → Bool := fun t' => t'.2.sender = t.2.sender ∧ t'.position ∈ post
  have count : (late.filter chosen).length ≤
      w.overtakenCount t.2.sender (late.map Prod.snd) := by
    refine w.le_overtakenCount t.2.sender chosen late fun early' t' late' lateSplit isChosen => ?_
    simp only [chosen, Bool.decide_and, Bool.and_eq_true, decide_eq_true_eq] at isChosen
    obtain ⟨sameSender, inPost⟩ := isChosen
    obtain ⟨-, -, -, -, inHist'⟩ := younger _ inPost
    have tagsSplit : tags = (early ++ t :: early') ++ t' :: late' := by
      rw [split, lateSplit]
      simp
    refine ⟨sameSender, agree.overtaken_of tagsSplit ?_⟩
    rw [sameSender]
    exact receives.overtaken _ inHist'
  have fewPost : post.length ≤ (late.filter chosen).length := by
    have distinct : post.Nodup := (sorted.2.1.2).imp Before.ne
    have part : post ⊆ (late.filter chosen).map Tagged.position := by
      intro q inPost
      obtain ⟨t', inLate, rfl, sameSender, -⟩ := younger q inPost
      refine List.mem_map_of_mem (List.mem_filter.mpr ⟨inLate, ?_⟩)
      simp only [chosen, sameSender, inPost, and_self, decide_true]
    have := List.Nodup.length_le_of_subset distinct part
    rwa [List.length_map] at this
  have mapped : (hist t.2.sender.peer).map (l.idOf P) =
      pre.map (l.idOf P) ++ l.idOf P t.position :: post.map (l.idOf P) := by
    rw [histSplit]
    simp
  rcases stash.window.kept _ _ _ mapped with present | returned | evicted
  · exact present
  · exact absurd returned unreturned
  · rw [List.length_map] at evicted
    omega

end Overtaken

/-! ## The session -/

/-- A sealed frame that has not been returned opens when it arrives, unless it is too far
ahead of the receiver or its key has been evicted. -/
theorem Agreement.delivered (agree : Agreement P secret w l top tags hist)
    {earlier later : List (Sent Key)} {frame : Sent Key}
    (split : w.sent = earlier ++ frame :: later) (unreturned : w.hasReturned frame = false)
    {fresh : Priv} (keys : FreshKeys P (w.generated ++ [fresh]))
    (reachable : frame.header.id ∈ (w.state frame.sender.peer).skipped.keys ∨
      (w.overtaken frame later = true ∧ w.overtakenCount frame.sender later < maxSkipKeys) ∨
      (w.overtaken frame later = false ∧
        WithinWindow (w.state frame.sender.peer) frame.header)) :
    ∃ s', decrypt P w.boxes (w.state frame.sender.peer) frame.header frame.box.ciphertext frame.ad
      fresh = .ok (frame.box.plaintext, s') := by
  rw [agree.sent, List.map_eq_append_iff] at split
  obtain ⟨early, rest, tagsSplit, -, restMap⟩ := split
  obtain ⟨t, late, rfl, rfl, rfl⟩ := List.map_eq_cons_iff.mp restMap
  have member : t ∈ tags := by simp [tagsSplit]
  rw [World.hasReturned, decide_eq_false_iff_not] at unreturned
  have byStash := fun stashed => agree.decrypts_stashed member stashed fresh
  rcases reachable with stashed | ⟨overtaken, few⟩ | ⟨onTime, window⟩
  · exact byStash stashed
  · exact byStash (agree.stashed_of_few tagsSplit unreturned overtaken few)
  · by_cases stashed : t.2.header.id ∈ (w.state t.2.sender.peer).skipped.keys
    · exact byStash stashed
    · have unseen : t.2.header.id ∉ (w.state t.2.sender.peer).decryptedSeen.keys :=
        fun seen => unreturned ((agree.receives t.2.sender.peer).seen _ seen)
      refine agree.decrypts_ahead member ?_ window ((OrderedDict.not_mem_keys_iff _).mp stashed)
        unseen keys
      intro before
      rw [agree.overtaken_of_before tagsSplit unreturned before] at onTime
      cases onTime

theorem session_guarantees (P : Primitives Key Priv) (secret : Key) (ideal : Ideal P secret)
    {alice bob : RatchetState Key Priv} {bobKey aliceKey : Priv}
    (init : initPair P secret bobKey aliceKey = .ok (alice, bob)) (actions : List (Action Priv))
    {w : World Key Priv}
    (ran : run (World.step P) (World.start alice bob bobKey aliceKey) actions = w)
    (keys : FreshKeys P w.generated) :
    (∀ r ∈ w.returned, ∃ frame ∈ w.sent, frame.sender = r.receiver.peer ∧
      frame.Carries r.header r.ad r.plaintext) ∧
    (w.returned.map (·.header.id)).Nodup ∧
    ∀ earlier frame later, w.sent = earlier ++ frame :: later → w.hasReturned frame = false →
      ∀ fresh, FreshKeys P (w.generated ++ [fresh]) →
        (frame.header.id ∈ (w.state frame.sender.peer).skipped.keys ∨
          (w.overtaken frame later = true ∧
            w.overtakenCount frame.sender later < maxSkipKeys) ∨
          (w.overtaken frame later = false ∧
            WithinWindow (w.state frame.sender.peer) frame.header)) →
        ∃ s', decrypt P w.boxes (w.state frame.sender.peer) frame.header frame.box.ciphertext
          frame.ad fresh = .ok (frame.box.plaintext, s') := by
  subst ran
  obtain ⟨l, top, tags, hist, agree⟩ := agreement_run ideal init actions keys
  refine ⟨agree.authentic, agree.once, ?_⟩
  intro earlier frame later split unreturned fresh freshKeys reachable
  exact agree.delivered split unreturned freshKeys reachable

/-! ## Symbolic primitives -/

/-- Keys as terms: every derivation is a constructor, so nothing collides. -/
inductive Term where
  | zero
  | secret
  | shared (low high : UInt8)
  | root (salt material : Term)
  | chain (salt material : Term)
  | next (key : Term)
  | message (key : Term)
  deriving DecidableEq

/-- Private key `k` has the public bytes `k, 7, 7, ...`. -/
def symbolic : Primitives Term UInt8 where
  publicBytes k := k :: List.replicate 31 7
  exchange a pub :=
    match pub with
    | [] => .zero
    | b :: _ => .shared (min a b) (max a b)
  zeroKey := .zero
  hkdfRoot salt material := (.root salt material, .chain salt material)
  hmac key tag := if tag = 2 then .next key else .message key
  aeadEncrypt _ _ plaintext _ := plaintext ++ List.replicate 16 0

theorem symbolic_ideal : Ideal symbolic .secret where
  next_injective := fun _ _ same => Term.next.inj same
  message_injective := fun _ _ same => Term.message.inj same
  root_injective := fun _ _ _ _ same => (Term.root.inj same).1
  chain_injective := fun _ _ _ _ same => (Term.chain.inj same).1
  secret_fresh := fun _ _ same => Term.noConfusion same

theorem symbolic_accepted (key : UInt8) :
    isSmallOrderX25519 (symbolic.publicBytes key) = false := by
  have second : ∀ point ∈ x25519SmallOrderPoints, point[1]? ≠ some 7 := by decide +kernel
  have unlisted : ∀ point ∈ x25519SmallOrderPoints, symbolic.publicBytes key ≠ point := by
    rintro _ member rfl
    exact second _ member rfl
  have noMatch : x25519SmallOrderPoints.any (symbolic.publicBytes key == ·) = false := by
    simpa [List.any_eq_false] using unlisted
  rw [isSmallOrderX25519, noMatch]
  rfl

theorem symbolic_freshKeys : FreshKeys symbolic [1, 2, 3, 4, 5] where
  distinct := by decide +kernel
  accepted := fun key _ => symbolic_accepted key
  commutes := by decide +kernel
  nonzero := by decide +kernel

/-- The state `init_alice` leaves with Bob's key 1 and Alice's key 2. -/
def symbolicAlice : RatchetState Term UInt8 where
  rootKey := .root .secret (.shared 1 2)
  dhSend := 2
  dhSendPub := symbolic.publicBytes 2
  dhRecvPub := some (symbolic.publicBytes 1)
  sendChainKey := some (.chain .secret (.shared 1 2))

theorem symbolic_initPair :
    initPair symbolic .secret 1 2 = .ok (symbolicAlice, initBob symbolic .secret 1) := by
  have nonzero := symbolic_freshKeys.nonzero 2 (by decide) 1 (by decide)
  have agreed : x25519Dh symbolic 2 (symbolic.publicBytes 1) = .ok (.shared 1 2) :=
    (x25519Dh_eq_ok symbolic).mpr ⟨symbolic_accepted 1, nonzero, by decide⟩
  simp only [initPair, initAlice, bind_eq_ok, require_eq_ok, exists_const, pure_eq_ok_iff,
    Prod.mk.injEq]
  exact ⟨_, ⟨by decide, _, agreed, rfl⟩, rfl, trivial⟩

/-- The header of Alice's message `n` on her first chain. -/
def firstChainHeader (n : Nat) : Header where
  v := 1
  flags := 0
  dh := symbolic.publicBytes 2
  pn := 0
  n := n

/-- Alice's first chain key. -/
def firstChain : Term := .chain .secret (.shared 1 2)

/-- Alice's message `n` on her first chain, without associated data. -/
def firstChainFrame (n : Nat) (plaintext : Bytes) : Sent Term where
  sender := .alice
  header := firstChainHeader n
  ad := []
  box := sealBox symbolic ((nextChain symbolic)^[n] firstChain) (firstChainHeader n)
    (firstChainHeader n).pack plaintext []

/-- A matched pair after Alice has sealed these messages. -/
def sealedWorld (plaintexts : List Bytes) : World Term UInt8 :=
  { World.start
      { symbolicAlice with
        sendChainKey := some ((nextChain symbolic)^[plaintexts.length] firstChain)
        sendN := plaintexts.length }
      (initBob symbolic .secret 1) 1 2 with
    sent := plaintexts.zipIdx.map fun entry => firstChainFrame entry.2 entry.1 }

theorem firstChainHeader_encode {n : Nat} (small : n < 2 ^ 32) :
    (firstChainHeader n).encode = .ok (firstChainHeader n).pack :=
  Header.encode_eq_ok.mpr ⟨rfl, ⟨Nat.two_pow_pos 32, small⟩, rfl⟩

theorem sealedWorld_encrypts (early : List Bytes) (plaintext : Bytes)
    (few : early.length < 2 ^ 32) :
    (sealedWorld early).encrypts symbolic .alice plaintext [] =
      sealedWorld (early ++ [plaintext]) := by
  have encrypted : encrypt symbolic ((sealedWorld early).state .alice) plaintext [] = _ :=
    encrypt_of_ready symbolic rfl few (firstChainHeader_encode few)
  rw [World.encrypts, encrypted]
  simp only [World.setState, sealedWorld, World.start, List.length_append, List.length_singleton,
    List.zipIdx_append, List.map_append, nextChain_iterate]
  congr 1
  · funext who
    cases who <;> rfl
  · rw [Nat.zero_add]
    rfl

theorem run_seals (plaintexts : List Bytes) (few : plaintexts.length ≤ 2 ^ 32) :
    run (World.step symbolic) (World.start symbolicAlice (initBob symbolic .secret 1) 1 2)
      (plaintexts.map fun plaintext => .encrypt .alice plaintext []) =
        sealedWorld plaintexts := by
  induction plaintexts using List.reverseRec with
  | nil => rfl
  | append_singleton early plaintext ih =>
    rw [List.length_append, List.length_singleton] at few
    rw [List.map_append, run_append, ih (by omega)]
    exact sealedWorld_encrypts early plaintext (by omega)

/-- Two messages sealed, none delivered: the second opens when it arrives first. -/
theorem session_guarantees_second :
    ∃ s', decrypt symbolic (sealedWorld [[104], [105]]).boxes (initBob symbolic .secret 1)
      (firstChainHeader 1) (105 :: List.replicate 16 0) [] 3 = .ok ([105], s') := by
  have all : FreshKeys symbolic ([1, 2, 3] ++ [4, 5]) := symbolic_freshKeys
  have keys : FreshKeys symbolic ((sealedWorld [[104], [105]]).generated ++ [3]) := all.of_append
  obtain ⟨-, -, delivered⟩ := session_guarantees symbolic .secret symbolic_ideal
    symbolic_initPair _ (run_seals [[104], [105]] (by decide)) keys.of_append
  exact delivered [firstChainFrame 0 [104]] (firstChainFrame 1 [105]) [] rfl rfl 3 keys
    (.inr (.inr ⟨rfl, by decide⟩))

end OneLink.DoubleRatchet
