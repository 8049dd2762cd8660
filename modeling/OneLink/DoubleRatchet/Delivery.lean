/-
# DoubleRatchet.Delivery — `decrypt` keeps the agreement

A frame that opens was sealed by the peer, and opens from one of three places:
the stash, the current receiving chain, or the chain one rung up.  Each of them
moves the receiver's `Receives` along, and the last adds a rung to the ladder.
-/
import OneLink.DoubleRatchet.Agreement

namespace OneLink.DoubleRatchet

open Library

set_option autoImplicit false

variable {Key Priv : Type} {P : Primitives Key Priv} {secret : Key}
  {w : World Key Priv} {l : Ladder Key Priv} {top : Nat} {tags : List (Tagged Key)}
  {hist : Party → List Position} {who : Party} {header : Header}
  {ciphertext ad plaintext : Bytes} {fresh : Priv} {s s' : RatchetState Key Priv}

/-! ## Which frame opened -/

theorem Agreement.id_eq (agree : Agreement P secret w l top tags hist) {t : Tagged Key}
    (member : t ∈ tags) (carries : t.2.Carries header ad plaintext) :
    header.id = l.idOf P (t.1, header.n) := by
  obtain ⟨⟨sameDh, -, -⟩, -, -⟩ := carries
  rw [Header.id, Ladder.idOf, ← sameDh, (agree.sealed t member).1.dh]

variable [DecidableEq Key]

/-- What opens under a message key is the frame of that key's position. -/
theorem Agreement.opened (agree : Agreement P secret w l top tags hist) (ideal : Ideal P secret)
    {chain : Key}
    (opens : openUnder w.boxes (messageKey P chain) header ciphertext ad = .ok plaintext) :
    ∃ t ∈ tags, t.2.Carries header ad plaintext ∧
      chain = (nextChain P)^[header.n] (l.chain t.1) := by
  obtain ⟨encoded, encodes, opened⟩ := openUnder_eq_ok.mp opens
  obtain ⟨box, member, sameKey, -, sameAad, -, samePlaintext⟩ := aeadDecrypt_eq_ok opened
  rw [World.boxes, agree.sent, List.map_map, List.mem_map] at member
  obtain ⟨t, tagged, rfl⟩ := member
  obtain ⟨encoded', encodes', keyAt, -, aad⟩ := (agree.sealed t tagged).1.box
  simp only [Function.comp_apply] at sameKey sameAad samePlaintext
  rw [aad] at sameAad
  obtain ⟨sameDh, samePn, sameN, sameAd⟩ := Header.encode_append_inj encodes' encodes sameAad
  refine ⟨t, tagged, ⟨⟨sameDh, samePn, sameN⟩, sameAd, samePlaintext⟩, ?_⟩
  rw [keyAt] at sameKey
  have sameChain := ideal.message_injective sameKey
  rw [← sameChain, sameN]

/-- A stashed key opens a frame of the peer, on a chain already left behind or current. -/
theorem Agreement.opensLate (agree : Agreement P secret w l top tags hist)
    (ideal : Ideal P secret)
    (late : OpensLate w.boxes (w.state who) header ciphertext ad plaintext s') :
    ∃ t ∈ tags, t.2.Carries header ad plaintext ∧ t.1 % 2 = levelOf top who % 2 := by
  obtain ⟨msgKey, present, opens, -⟩ := late
  have stash := (agree.receives who).stash
  obtain ⟨-, q, inHist, sameId, rfl⟩ := stash.entries _ _ present
  obtain ⟨t, member, carries, -⟩ := agree.opened ideal opens
  obtain ⟨parity, -, before⟩ := stash.stashed q inHist
  have low : q.1 < top := by
    have := before.of_frontOf parity
    have := levelOf_le top who
    omega
  rw [agree.id_eq member carries] at sameId
  have place := agree.climbs.idOf_inj (agree.chain_lt member) low sameId
  refine ⟨t, member, carries, ?_⟩
  rw [frontOf_parity, ← place] at parity
  exact parity

/-- Opening at the head of the current receiving chain. -/
structure FromChain (P : Primitives Key Priv) (l : Ladder Key Priv) (L : Nat)
    (s : RatchetState Key Priv) (header : Header) (k : Nat) (s' : RatchetState Key Priv) :
    Prop where
  level : L = k + 2
  ahead : s.recvN ≤ header.n
  result : ∃ advanced, skipRecvKeys P s header.n = .ok advanced ∧
    { advanced with
      recvChainKey := some ((nextChain P)^[header.n + 1] (l.chain k))
      recvN := advanced.recvN + 1 }.markSeen header.id = s'

/-- Opening on the chain one rung up, after a DH ratchet. -/
structure FromRatchet (P : Primitives Key Priv) (l : Ladder Key Priv) (L : Nat)
    (s : RatchetState Key Priv) (header : Header) (fresh : Priv) (k : Nat)
    (s' : RatchetState Key Priv) : Prop where
  level : L = k
  result : ∃ mid advanced, skipPriorKeys P s header.pn = .ok mid ∧
    skipRecvKeys P (mid.ratcheted P header.dh fresh) header.n = .ok advanced ∧
    { advanced with
      recvChainKey := some ((nextChain P)^[header.n + 1] (l.chain k))
      recvN := advanced.recvN + 1 }.markSeen header.id = s'

/-- What opens ahead of the stash is on the current chain or one rung up: any other
public key, replayed or reflected, gives a root of the wrong rung. -/
theorem Agreement.opensAhead (agree : Agreement P secret w l top tags hist)
    (ideal : Ideal P secret)
    (opens : OpensAhead P w.boxes (w.state who) header ciphertext ad fresh plaintext s') :
    ∃ t ∈ tags, t.2.Carries header ad plaintext ∧
      (FromChain P l (levelOf top who) (w.state who) header t.1 s' ∨
        FromRatchet P l (levelOf top who) (w.state who) header fresh t.1 s') := by
  obtain ⟨-, ratcheted, advanced, chain, ratchets, advances, hasChain, opened, result⟩ := opens
  obtain ⟨t, member, carries, rfl⟩ := agree.opened ideal opened
  obtain ⟨ahead, skips⟩ := advanceTo_eq_ok.mp advances
  rw [nextChain_iterate] at result
  have sends := agree.sends who
  have receives := agree.receives who
  have sameDh : header.dh = P.publicBytes (l.key (t.1 + 1)) :=
    carries.1.1.symm.trans (agree.sealed t member).1.dh
  have below := agree.chain_lt member
  refine ⟨t, member, carries, ?_⟩
  unfold ratchetIfNew at ratchets
  split at ratchets
  · -- a ratchet: the chain it derives comes from the root of the receiver's rung
    obtain ⟨mid, skipsPrior, -, -, -, rfl⟩ := dhRatchet_eq_ok P |>.mp ratchets
    refine .inr ⟨?_, mid, advanced, skipsPrior, skips, result⟩
    obtain ⟨priorChain, priorN, priorSkipped, rfl⟩ := skipKeys_frame skipsPrior
    have derived : advanced.recvChainKey = some ((nextChain P)^[header.n] (kdfRoot P
        (w.state who).rootKey (P.exchange (w.state who).dhSend header.dh)).2) :=
      skipKeys_chain skips rfl rfl ahead
    rw [hasChain] at derived
    have sameChain := ideal.next_injective.iterate header.n (Option.some.inj derived)
    have climbed : l.chain t.1 = (kdfRoot P (l.root t.1)
        (P.exchange (l.key t.1) (P.publicBytes (l.key (t.1 + 1))))).2 :=
      (congrArg Prod.snd (agree.climbs.step t.1 below)).symm
    rw [sends.root, climbed] at sameChain
    have sameRoot := ideal.chain_injective _ _ _ _ sameChain
    exact (agree.climbs.root_inj ideal t.1 _ (by omega) (levelOf_le _ who) sameRoot).symm
  · -- no ratchet: the frame carries the peer's current public key
    rename_i current
    simp only [ne_eq, not_not] at current
    cases ratchets
    refine .inl ⟨?_, ahead, advanced, skips, result⟩
    rcases Nat.lt_or_ge (levelOf top who) 2 with low | high
    · have none := receives.idle low
      rw [skipRecvKeys, skipKeys_of_none none] at skips
      cases skips
      rw [none] at hasChain
      cases hasChain
    · obtain ⟨k, level⟩ : ∃ k, levelOf top who = k + 2 := ⟨levelOf top who - 2, by omega⟩
      obtain ⟨-, recvPub, -⟩ := sends.ready (k + 1) level
      rw [recvPub, sameDh] at current
      have := agree.climbs.distinct _ _ (by have := levelOf_le top who; omega) below
        (Option.some.inj current)
      omega

/-! ## The receiver moves on -/

omit [DecidableEq Key] in
theorem mem_markSeen {id id' : MessageId} (member : id' ∈ (s.markSeen id).decryptedSeen.keys) :
    id' = id ∨ id' ∈ s.decryptedSeen.keys := by
  rw [RatchetState.markSeen, OrderedDict.keys_dropFirst] at member
  have assigned := List.mem_of_mem_drop member
  rw [OrderedDict.mem_keys_iff] at assigned ⊢
  obtain ⟨v, found⟩ := assigned
  rw [OrderedDict.get?_set] at found
  split at found
  · exact .inl (by simp_all)
  · exact .inr ⟨v, found⟩

section Receiver

variable {L : Nat} {ids : List MessageId} {past : List Position} {q : Position}

omit [DecidableEq Key]

theorem Overtaken.snoc (overtaken : Overtaken P l L ids q) (id : MessageId) :
    Overtaken P l L (ids ++ [id]) q := by
  obtain ⟨early, q', late, rfl, rest⟩ := overtaken
  exact ⟨early, q', late ++ [id], by simp, rest⟩

theorem Overtaken.climb (overtaken : Overtaken P l L ids q) : Overtaken P l (L + 2) ids q := by
  obtain ⟨early, q', late, rfl, unreturned, before, parity, low, counted⟩ := overtaken
  exact ⟨early, q', late, rfl, unreturned, before, by omega, by omega, counted⟩

theorem Stash.snoc {front : Position} {skipped : Skipped Key} {id : MessageId}
    (stash : Stash P l front skipped (fun id' => id' = id ∨ id' ∈ ids) past) :
    Stash P l front skipped (· ∈ ids ++ [id]) past := by
  have same : (fun id' => id' ∈ ids ++ [id]) = fun id' => id' = id ∨ id' ∈ ids := by
    funext id'
    simp [or_comm]
  rw [same]
  exact stash

/-- A stashed message is returned. -/
theorem Receives.fromStash (receives : Receives P l L s ids past) {id : MessageId} {msgKey : Key}
    (present : s.skipped.get? id = some msgKey) :
    Receives P l L ({ s with skipped := s.skipped.erase id }.markSeen id) (ids ++ [id]) past where
  stash := (receives.stash.openLate present).snoc
  idle := receives.idle
  onChain := by
    intro k level
    obtain ⟨onChain, n, recvN, returned⟩ := receives.onChain k level
    exact ⟨onChain, n, recvN, List.mem_append_left _ returned⟩
  seen := by
    intro id' member
    rcases mem_markSeen member with rfl | old
    · simp
    · exact List.mem_append_left _ (receives.seen id' old)
  overtaken := fun q member => (receives.overtaken q member).snoc id

/-- The message at the front of chain `k` is returned, whatever was stashed to get there. -/
theorem Receives.atHead {k n : Nat} (stash : Stash P l (k, n) s.skipped (· ∈ ids) past)
    (inj : ∀ q q' : Position, q.1 ≤ k → q'.1 ≤ k → l.idOf P q = l.idOf P q' → q = q')
    (counted : n < l.count k) (recvN : s.recvN = n)
    (seen : ∀ id ∈ s.decryptedSeen.keys, id ∈ ids)
    (overtaken : ∀ q ∈ past, Overtaken P l (k + 2) ids q ∨ l.idOf P q ∉ ids) :
    Receives P l (k + 2)
      ({ s with
        recvChainKey := some ((nextChain P)^[n + 1] (l.chain k))
        recvN := s.recvN + 1 }.markSeen (l.idOf P (k, n)))
      (ids ++ [l.idOf P (k, n)]) past where
  stash := by
    have front : frontOf (k + 2) (s.recvN + 1) = (k, n + 1) := by
      rw [frontOf, if_neg (by omega), recvN]
      rfl
    show Stash P l (frontOf (k + 2) (s.recvN + 1)) s.skipped _ past
    rw [front]
    exact (stash.openHead inj counted).snoc
  idle := by omega
  onChain := by
    intro j level
    obtain rfl : j = k := by omega
    refine ⟨?_, n, by rw [← recvN]; rfl, by simp⟩
    show some ((nextChain P)^[n + 1] (l.chain j)) = some ((nextChain P)^[s.recvN + 1] (l.chain j))
    rw [recvN]
  seen := by
    intro id member
    rcases mem_markSeen member with rfl | old
    · simp
    · exact List.mem_append_left _ (seen id old)
  overtaken := by
    intro q member
    rcases overtaken q member with before | unreturned
    · exact before.snoc _
    · obtain ⟨parity, -, before⟩ := stash.stashed q member
      exact ⟨ids, (k, n), [], rfl, unreturned, before, by simp only; omega, Nat.le_refl _,
        counted⟩

theorem Receives.fromChain {k : Nat} (receives : Receives P l L s ids past)
    (sends : Sends P l L s)
    (inj : ∀ q q' : Position, q.1 ≤ k → q'.1 ≤ k → l.idOf P q = l.idOf P q' → q = q')
    (counted : header.n < l.count k) (same : header.id = l.idOf P (k, header.n))
    (opens : FromChain P l L s header k s') :
    ∃ past', Receives P l L s' (ids ++ [header.id]) past' := by
  obtain ⟨rfl, ahead, advanced, skips, rfl⟩ := opens
  obtain ⟨onChain, -⟩ := receives.onChain k rfl
  obtain ⟨-, recvPub, -⟩ := sends.ready (k + 1) rfl
  have stash : Stash P l (k, s.recvN) s.skipped (· ∈ ids) past := by
    have := receives.stash
    rwa [frontOf, if_neg (by omega)] at this
  obtain ⟨skipped, rfl, stash'⟩ := stash.skip inj skips onChain recvPub counted.le
  have reached : max s.recvN header.n = header.n := Nat.max_eq_right ahead
  rw [reached] at stash' ⊢
  rw [same]
  refine ⟨_, Receives.atHead stash' inj counted rfl receives.seen ?_⟩
  intro q member
  rcases List.mem_append.mp member with old | new
  · exact .inl (receives.overtaken q old)
  · have place := Stash.mem_block.mp new
    refine .inr (stash.not_gone inj place.1.le ?_)
    simp only [Before]
    omega

/-- The chain a ratchet leaves is finished: its keys are stashed up to `header.pn`. -/
theorem Receives.leaveChain {mid : RatchetState Key Priv} (receives : Receives P l L s ids past)
    (sends : Sends P l L s)
    (inj : ∀ q q' : Position, q.1 ≤ L → q'.1 ≤ L → l.idOf P q = l.idOf P q' → q = q')
    (skips : skipPriorKeys P s (l.prevCount (L + 1)) = .ok mid) :
    ∃ past', Stash P l (L, 0) mid.skipped (· ∈ ids) past' ∧
      ∀ q ∈ past', Overtaken P l L ids q ∨ l.idOf P q ∉ ids := by
  rcases Nat.lt_or_ge L 2 with low | high
  · rw [skipPriorKeys, skipKeys_of_none (receives.idle low)] at skips
    cases skips
    have stash := receives.stash
    rw [frontOf, if_pos low] at stash
    exact ⟨past, stash, fun q member => .inl (receives.overtaken q member)⟩
  · obtain ⟨k, rfl⟩ : ∃ k, L = k + 2 := ⟨L - 2, by omega⟩
    have finished : l.prevCount (k + 2 + 1) = l.count k := by
      rw [Ladder.prevCount, if_neg (by omega)]
      rfl
    rw [finished] at skips
    obtain ⟨onChain, -⟩ := receives.onChain k rfl
    obtain ⟨-, recvPub, -⟩ := sends.ready (k + 1) rfl
    have stash : Stash P l (k, s.recvN) s.skipped (· ∈ ids) past := by
      have := receives.stash
      rwa [frontOf, if_neg (by omega)] at this
    have injLow : ∀ q q' : Position, q.1 ≤ k → q'.1 ≤ k → l.idOf P q = l.idOf P q' → q = q' :=
      fun q q' qLow qLow' => inj q q' (by omega) (by omega)
    obtain ⟨skipped, rfl, stash'⟩ := stash.skip injLow skips onChain recvPub (Nat.le_refl _)
    refine ⟨_, stash'.jump (by omega), ?_⟩
    intro q member
    rcases List.mem_append.mp member with old | new
    · exact .inl (receives.overtaken q old)
    · have place := Stash.mem_block.mp new
      refine .inr (stash.not_gone injLow place.1.le ?_)
      simp only [Before]
      omega

theorem Receives.fromRatchet (receives : Receives P l L s ids past) (sends : Sends P l L s)
    (inj : ∀ q q' : Position, q.1 ≤ L → q'.1 ≤ L → l.idOf P q = l.idOf P q' → q = q')
    (step : kdfRoot P (l.root L) (P.exchange (l.key L) (P.publicBytes (l.key (L + 1)))) =
      (l.root (L + 1), l.chain L))
    (dh : header.dh = P.publicBytes (l.key (L + 1))) (pn : header.pn = l.prevCount (L + 1))
    (counted : header.n < l.count L) (opens : FromRatchet P l L s header fresh L s') :
    ∃ past', Receives P l (L + 2) s' (ids ++ [header.id]) past' := by
  obtain ⟨-, mid, advanced, skipsPrior, skips, rfl⟩ := opens
  rw [pn] at skipsPrior
  obtain ⟨past', stash, overtaken⟩ := receives.leaveChain sends inj skipsPrior
  obtain ⟨priorChain, priorN, priorSkipped, rfl⟩ := skipKeys_frame skipsPrior
  have derived : (kdfRoot P s.rootKey (P.exchange s.dhSend header.dh)).2 = l.chain L := by
    rw [sends.root, sends.dhSend, dh, step]
  have same : header.id = l.idOf P (L, header.n) := by
    rw [Header.id, Ladder.idOf, dh]
  obtain ⟨skipped, rfl, stash'⟩ := Stash.skip (k := L)
    (s := RatchetState.ratcheted P { s with
      recvChainKey := priorChain
      recvN := priorN
      skipped := priorSkipped } header.dh fresh)
    stash inj skips (congrArg some derived) (congrArg some dh) counted.le
  have reached : max (0 : Nat) header.n = header.n := Nat.max_eq_right (Nat.zero_le _)
  have head := Receives.atHead (s := { RatchetState.ratcheted P s header.dh fresh with
      recvChainKey := some ((nextChain P)^[max 0 header.n] (l.chain L))
      recvN := max 0 header.n
      skipped := skipped }) (reached ▸ stash') inj counted reached receives.seen ?_
  · rw [same]
    exact ⟨_, head⟩
  · intro q member
    rcases List.mem_append.mp member with old | new
    · exact (overtaken q old).imp_left Overtaken.climb
    · have place := Stash.mem_block.mp new
      refine .inr (stash.not_gone inj place.1.le ?_)
      simp only [Before]
      omega

/-! ## A new rung -/

theorem Ladder.extend_idOf (low : q.1 < top) : (l.extend P top fresh).idOf P q = l.idOf P q := by
  rw [idOf, idOf, extend_key (by omega)]

theorem Ladder.extend_keyAt (low : q.1 < top) :
    (l.extend P top fresh).keyAt P q = l.keyAt P q := by
  rw [keyAt, keyAt, extend_chain low]

theorem Receives.extend (receives : Receives P l L s ids past) (low : L ≤ top + 1) :
    Receives P (l.extend P top fresh) L s ids past where
  stash := by
    refine receives.stash.of_agree ?_ receives.stash.reached
    intro q parity before
    have := before.of_frontOf parity
    exact ⟨Ladder.extend_idOf (by omega), Ladder.extend_keyAt (by omega), Iff.rfl⟩
  idle := receives.idle
  onChain := by
    intro k level
    rw [Ladder.extend_chain (by omega)]
    obtain ⟨onChain, n, recvN, returned⟩ := receives.onChain k level
    exact ⟨onChain, n, recvN, by rwa [Ladder.extend_idOf (show k < top by omega)]⟩
  seen := receives.seen
  overtaken := by
    intro q member
    obtain ⟨early, q', late, split, unreturned, before, parity, below, counted⟩ :=
      receives.overtaken q member
    have := before.fst_le
    refine ⟨early, q', late, ?_, ?_, before, parity, below, counted⟩
    · rw [Ladder.extend_idOf (by omega), split]
    · rwa [Ladder.extend_idOf (by omega)]

theorem Sends.extend (sends : Sends P l L s) (low : L ≤ top) :
    Sends P (l.extend P top fresh) L s where
  dhSend := by rw [Ladder.extend_key low, sends.dhSend]
  dhSendPub := by rw [Ladder.extend_key low, sends.dhSendPub]
  root := by rw [Ladder.extend_root low, sends.root]
  prev := sends.prev
  idle := sends.idle
  ready := by
    intro k level
    rw [Ladder.extend_key (by omega), Ladder.extend_chain (by omega)]
    exact sends.ready k level

theorem SealedOn.extend {k : Nat} {frame : Sent Key} (sealed : SealedOn P l k frame)
    (low : k < top) : SealedOn P (l.extend P top fresh) k frame where
  sender := sealed.sender
  dh := by rw [Ladder.extend_key (by omega), sealed.dh]
  pn := sealed.pn
  counted := sealed.counted
  box := by
    obtain ⟨encoded, encodes, keyAt, rest⟩ := sealed.box
    exact ⟨encoded, encodes, by rw [Ladder.extend_keyAt (by simpa using low), keyAt], rest⟩

/-- The sending half of a party that has just climbed from rung `L` to the new top. -/
theorem Sends.fromRatchet (sends : Sends P l L s) (topEq : top = L + 1)
    (step : kdfRoot P (l.root L) (P.exchange (l.key L) (P.publicBytes (l.key (L + 1)))) =
      (l.root (L + 1), l.chain L))
    (dh : header.dh = P.publicBytes (l.key (L + 1)))
    (commutes : P.exchange fresh (P.publicBytes (l.key (L + 1))) =
      P.exchange (l.key (L + 1)) (P.publicBytes fresh))
    (unused : l.count (L + 1) = 0) (opens : FromRatchet P l L s header fresh L s') :
    Sends P (l.extend P top fresh) (L + 2) s' := by
  obtain ⟨-, mid, advanced, skipsPrior, skips, rfl⟩ := opens
  obtain ⟨priorChain, priorN, priorSkipped, rfl⟩ := skipKeys_frame skipsPrior
  obtain ⟨newChain, newN, newSkipped, rfl⟩ := skipKeys_frame skips
  subst topEq
  have climbed : kdfRoot P (kdfRoot P s.rootKey (P.exchange s.dhSend header.dh)).1
      (P.exchange fresh header.dh) =
      ((l.extend P (L + 1) fresh).root (L + 2), (l.extend P (L + 1) fresh).chain (L + 1)) := by
    rw [sends.root, sends.dhSend, dh, step, commutes]
    simp [Ladder.extend]
  have newest : (l.extend P (L + 1) fresh).key (L + 2) = fresh := by simp [Ladder.extend]
  refine ⟨newest.symm, by rw [newest]; rfl, congrArg Prod.fst climbed, ?_, by omega, ?_⟩
  · show s.sendN = _
    cases L with
    | zero => exact (sends.idle rfl).2.1
    | succ k =>
      rw [(sends.ready k rfl).1, Ladder.prevCount, if_neg (by omega)]
      rfl
  · intro k level
    obtain rfl : k = L + 1 := by omega
    refine ⟨unused.symm, ?_, _, rfl, fun _ => congrArg Prod.snd climbed⟩
    rw [Ladder.extend_key (Nat.le_refl _), ← dh]
    rfl

end Receiver

/-! ## The step -/

section Step

omit [DecidableEq Key]

/-- The world after `who` has returned a message and moved to `s`. -/
def World.returns (w : World Key Priv) (who : Party) (header : Header) (ad plaintext : Bytes)
    (fresh : Priv) (s : RatchetState Key Priv) : World Key Priv :=
  { { w with generated := w.generated ++ [fresh] }.setState who s with
    returned := w.returned ++ [{ receiver := who, header, ad, plaintext }] }

theorem World.returnedTo_returns_self :
    (w.returns who header ad plaintext fresh s).returnedTo who =
      w.returnedTo who ++ [header.id] := by
  simp [World.returnedTo, World.returns, World.setState]

theorem World.returnedTo_returns_peer :
    (w.returns who header ad plaintext fresh s).returnedTo who.peer = w.returnedTo who.peer := by
  simp [World.returnedTo, World.returns, World.setState, Ne.symm who.peer_ne]

theorem World.mem_returnedTo {r : Returned} (member : r ∈ w.returned) :
    r.header.id ∈ w.returnedTo r.receiver :=
  List.mem_map_of_mem (List.mem_filter.mpr ⟨member, by simp⟩)

/-- A returned message of the peer: the two halves of `who` are new, all else is carried over. -/
theorem Agreement.returns {l' : Ladder Key Priv} {top' : Nat} {past : List Position}
    {t : Tagged Key} (agree : Agreement P secret w l top tags hist)
    (climbs : Climbs P secret l' top' (w.generated ++ [fresh])) (pos : 1 ≤ top')
    (counts : l'.count = l.count)
    (sealed : ∀ t ∈ tags, SealedOn P l' t.1 t.2 ∧ t.1 < levelOf top' t.2.sender)
    (sends : Sends P l' (levelOf top' who) s)
    (receives : Receives P l' (levelOf top' who) s (w.returnedTo who ++ [header.id]) past)
    (sendsPeer : Sends P l' (levelOf top' who.peer) (w.state who.peer))
    (receivesPeer : Receives P l' (levelOf top' who.peer) (w.state who.peer)
      (w.returnedTo who.peer) (hist who.peer))
    (member : t ∈ tags) (carries : t.2.Carries header ad plaintext)
    (parity : t.1 % 2 = levelOf top' who % 2) (unreturned : header.id ∉ w.returnedTo who) :
    Agreement P secret (w.returns who header ad plaintext fresh s) l' top' tags
      (Function.update hist who past) := by
  obtain ⟨whoParity, levels⟩ := levelOf_cases who pos
  constructor
  case climbs => exact climbs
  case pos => exact pos
  case sends =>
    intro other
    rcases who.eq_or_eq_peer other with rfl | rfl
    · simpa [World.returns] using sends
    · simpa [World.returns, World.setState_other _ who.peer_ne] using sendsPeer
  case receives =>
    intro other
    rcases who.eq_or_eq_peer other with rfl | rfl
    · rw [World.returnedTo_returns_self, Function.update_self]
      simpa [World.returns] using receives
    · rw [World.returnedTo_returns_peer, Function.update_of_ne who.peer_ne]
      simpa [World.returns, World.setState_other _ who.peer_ne] using receivesPeer
  case sent => exact agree.sent
  case sealed => exact sealed
  case ordered => exact agree.ordered
  case complete => rw [counts]; exact agree.complete
  case authentic =>
    intro r inReturned
    rcases List.mem_append.mp inReturned with old | new
    · exact agree.authentic r old
    · obtain rfl := List.mem_singleton.mp new
      refine ⟨t.2, ?_, ?_, carries⟩
      · show t.2 ∈ w.sent
        rw [agree.sent]
        exact List.mem_map_of_mem member
      · exact who.eq_peer_of_parity (sealed t member).1.sender (parity.trans whoParity)
  case once =>
    show ((w.returned ++ _).map _).Nodup
    rw [List.map_append, List.nodup_append]
    refine ⟨agree.once, by simp, ?_⟩
    intro id old id' new same
    simp only [List.map_cons, List.map_nil, List.mem_singleton] at new
    obtain ⟨r, inReturned, rfl⟩ := List.mem_map.mp old
    subst new
    have returned := World.mem_returnedTo inReturned
    rw [same] at returned
    rcases who.eq_or_eq_peer r.receiver with isWho | isPeer
    · rw [isWho] at returned
      exact unreturned returned
    · -- the peer receives on chains of the other parity
      rw [isPeer] at returned
      obtain ⟨q, sameId, qParity, before⟩ := receivesPeer.stash.opened _ returned
      have qLow := before.of_frontOf qParity
      rw [frontOf_parity] at qParity
      have place : header.id = l'.idOf P (t.1, header.n) := by
        rw [Header.id, Ladder.idOf, ← carries.1.1, (sealed t member).1.dh]
      rw [place] at sameId
      have tLow := (sealed t member).2
      have senderLow := levelOf_le top' t.2.sender
      have peerLow := levelOf_le top' who.peer
      have := climbs.idOf_inj (q := (t.1, header.n)) (show t.1 < top' by omega) (by omega) sameId
      rw [← this] at qParity
      simp only at qParity
      omega

end Step

omit [DecidableEq Key] in
theorem Agreement.idOf_inj_low (agree : Agreement P secret w l top tags hist) {k : Nat}
    (low : k < top) (q q' : Position) (qLow : q.1 ≤ k) (qLow' : q'.1 ≤ k)
    (same : l.idOf P q = l.idOf P q') : q = q' :=
  agree.climbs.idOf_inj (by omega) (by omega) same

/-- A `decrypt` that returns keeps the agreement. -/
theorem Agreement.decrypts (agree : Agreement P secret w l top tags hist) (ideal : Ideal P secret)
    (keys : FreshKeys P (w.generated ++ [fresh]))
    (decrypts : decrypt P w.boxes (w.state who) header ciphertext ad fresh = .ok (plaintext, s)) :
    ∃ l' top' hist',
      Agreement P secret (w.returns who header ad plaintext fresh s) l' top' tags hist' := by
  have sends := agree.sends who
  have receives := agree.receives who
  obtain ⟨whoParity, levels⟩ := levelOf_cases who agree.pos
  obtain ⟨-, late | ahead⟩ := decrypt_eq_ok.mp decrypts
  · obtain ⟨t, member, carries, parity⟩ := agree.opensLate ideal late
    obtain ⟨msgKey, present, -, rfl⟩ := late
    have unreturned := (receives.stash.entries _ _ present).1
    have sends' : Sends P l (levelOf top who)
        ({ w.state who with
          skipped := (w.state who).skipped.erase header.id }.markSeen header.id) :=
      ⟨sends.dhSend, sends.dhSendPub, sends.root, sends.prev, sends.idle, sends.ready⟩
    exact ⟨_, _, _, agree.returns (agree.climbs.more _) agree.pos rfl agree.sealed sends'
      (receives.fromStash present) (agree.sends who.peer) (agree.receives who.peer) member carries
      parity unreturned⟩
  · obtain ⟨t, member, carries, here | above⟩ := agree.opensAhead ideal ahead
    · have level := here.level
      have place := agree.id_eq member carries
      have low := agree.chain_lt member
      have inj := agree.idOf_inj_low low
      have counted : header.n < l.count t.1 := carries.1.2.2 ▸ (agree.sealed t member).1.counted
      obtain ⟨past, receives'⟩ := receives.fromChain sends inj counted place here
      have unreturned : header.id ∉ w.returnedTo who := by
        have front : frontOf (levelOf top who) (w.state who).recvN =
            (t.1, (w.state who).recvN) := by
          rw [frontOf, if_neg (by omega), level]
          rfl
        have stash := receives.stash
        rw [front] at stash
        rw [place]
        refine stash.not_gone inj (q := (t.1, header.n)) (Nat.le_refl _) ?_
        have := here.ahead
        simp only [Before]
        omega
      have sends' : Sends P l (levelOf top who) s := by
        obtain ⟨advanced, skips, rfl⟩ := here.result
        obtain ⟨chain, n, skipped, rfl⟩ := skipKeys_frame skips
        exact ⟨sends.dhSend, sends.dhSendPub, sends.root, sends.prev, sends.idle, sends.ready⟩
      exact ⟨_, _, _, agree.returns (agree.climbs.more _) agree.pos rfl agree.sealed sends'
        receives' (agree.sends who.peer) (agree.receives who.peer) member carries (by omega)
        unreturned⟩
    · -- the receiver was one rung below the top, and climbs past it
      have level := above.level
      have low := agree.chain_lt member
      have below : levelOf top who + 1 = top := by omega
      have sealed := (agree.sealed t member).1
      have counted : header.n < l.count t.1 := carries.1.2.2 ▸ sealed.counted
      rw [← level] at sealed counted above low
      have dh := carries.1.1.symm.trans sealed.dh
      have pn := carries.1.2.1.symm.trans sealed.pn
      have inj := agree.idOf_inj_low low
      have step := agree.climbs.step _ low
      obtain ⟨past, receives'⟩ := receives.fromRatchet sends inj step dh pn counted above
      obtain ⟨climbed, stays⟩ := levelOf_succ who agree.pos below
      have topDrawn : l.key (levelOf top who + 1) ∈ w.generated ++ [fresh] :=
        List.mem_append_left _ (agree.climbs.drawn _ (by omega))
      have unused : l.count (levelOf top who + 1) = 0 := by
        by_contra used
        obtain ⟨t', member', at'⟩ := agree.complete (levelOf top who + 1, 0)
          (Nat.pos_of_ne_zero used)
        have := agree.chain_lt member'
        have := congrArg Prod.fst at'
        simp only [Tagged.position] at this
        omega
      have sends' := sends.fromRatchet below.symm step dh
        (keys.commutes fresh (by simp) _ topDrawn) unused above
      have unreturned : header.id ∉ w.returnedTo who := by
        intro returned
        obtain ⟨q, sameId, parity, before⟩ := receives.stash.opened _ returned
        have := before.of_frontOf parity
        rw [agree.id_eq member carries] at sameId
        have := congrArg Prod.fst (agree.climbs.idOf_inj (q := (t.1, header.n)) (by simp only; omega)
          (show q.1 < top by omega) sameId)
        simp only at this
        omega
      refine ⟨l.extend P top fresh, top + 1, Function.update hist who past, agree.returns (agree.climbs.extend keys)
        (by omega) rfl ?_ ?_ ?_ ?_ ?_ member carries (by omega) unreturned⟩
      · intro t' member'
        obtain ⟨sealed', below'⟩ := agree.sealed t' member'
        refine ⟨sealed'.extend (agree.chain_lt member'), ?_⟩
        rcases who.eq_or_eq_peer t'.2.sender with isWho | isPeer
        · rw [isWho] at below' ⊢
          omega
        · rw [isPeer] at below' ⊢
          omega
      · rw [climbed]
        exact sends'
      · rw [climbed]
        exact receives'.extend (by omega)
      · rw [stays]
        exact (agree.sends who.peer).extend (levelOf_le _ _)
      · rw [stays]
        exact (agree.receives who.peer).extend (by omega)

theorem World.delivers_of_ok
    (decrypts : decrypt P w.boxes (w.state who) header ciphertext ad fresh = .ok (plaintext, s)) :
    w.delivers P who header ciphertext ad fresh =
      w.returns who header ad plaintext fresh s := by
  simp only [World.delivers, decrypts]
  rfl

theorem Agreement.delivers (agree : Agreement P secret w l top tags hist) (ideal : Ideal P secret)
    (keys : FreshKeys P (w.generated ++ [fresh])) :
    ∃ l' top' hist',
      Agreement P secret (w.delivers P who header ciphertext ad fresh) l' top' tags hist' := by
  cases outcome : decrypt P w.boxes (w.state who) header ciphertext ad fresh with
  | error err =>
    simp only [World.delivers, outcome]
    exact ⟨l, top, hist, { agree with climbs := agree.climbs.more _ }⟩
  | ok result =>
    obtain ⟨plaintext, s⟩ := result
    rw [World.delivers_of_ok outcome]
    exact agree.decrypts ideal keys outcome

end OneLink.DoubleRatchet
