/-
# DoubleRatchet.Agreement — what the two ratchets agree on, in every run

`Agreement` ties a world to a ladder: each party stands on one of its two top
rungs, every sealed frame carries the key of its position, and each receiver's
stash is the `Stash` of the positions it has passed.  A `decrypt` that returns
has opened a sealed frame of the peer, from one of three places
(`Agreement.opens`): the stash, the current receiving chain, or the chain one
rung up.  No collision of roots means that a replayed public key, or a party's
own, opens nothing.
-/
import OneLink.DoubleRatchet.Ladder
import Mathlib.Data.List.Induction

namespace OneLink.DoubleRatchet

open Library

set_option autoImplicit false

variable {Key Priv : Type}

/-! ## Rungs -/

def Party.parity : Party → Nat
  | .alice => 1
  | .bob => 0

/-- The rung a party stands on: the top one, or the one below. -/
def levelOf (top : Nat) (who : Party) : Nat := if top % 2 = who.parity then top else top - 1

section Level

variable {top : Nat} (who : Party)

theorem Party.parity_peer : who.parity + who.peer.parity = 1 := by cases who <;> rfl

theorem levelOf_cases (pos : 1 ≤ top) :
    levelOf top who % 2 = who.parity ∧
      (levelOf top who = top ∧ levelOf top who.peer + 1 = top ∨
        levelOf top who + 1 = top ∧ levelOf top who.peer = top) := by
  rcases Nat.mod_two_eq_zero_or_one top with even | odd
  · cases who <;> simp only [levelOf, Party.parity, Party.peer, even] <;> simp <;> omega
  · cases who <;> simp only [levelOf, Party.parity, Party.peer, odd] <;> simp <;> omega

theorem levelOf_le (top : Nat) (who : Party) : levelOf top who ≤ top := by
  unfold levelOf
  split <;> omega

/-- The party below the top climbs two rungs, and its peer stays. -/
theorem levelOf_succ (pos : 1 ≤ top) (below : levelOf top who + 1 = top) :
    levelOf (top + 1) who = levelOf top who + 2 ∧
      levelOf (top + 1) who.peer = levelOf top who.peer := by
  have cases := levelOf_cases who pos
  have cases' := levelOf_cases who (show 1 ≤ top + 1 by omega)
  omega

/-- The receiver of chain `k` is the peer of its sender. -/
theorem Party.eq_peer_of_parity {sender : Party} {k : Nat} (sends : (k + 1) % 2 = sender.parity)
    (receives : k % 2 = who.parity) : sender = who.peer := by
  cases who <;> cases sender <;> simp only [Party.parity, Party.peer] at * <;> omega

end Level

/-- How far a party on rung `L` has received. -/
def frontOf (L recvN : Nat) : Position := if L < 2 then (L, 0) else (L - 2, recvN)

theorem frontOf_parity (L recvN : Nat) : (frontOf L recvN).1 % 2 = L % 2 := by
  unfold frontOf
  split
  · rfl
  · show (L - 2) % 2 = L % 2
    omega

/-- What a party on rung `L` has passed lies two rungs down, or deeper. -/
theorem Before.of_frontOf {q : Position} {L recvN : Nat} (before : Before q (frontOf L recvN))
    (parity : q.1 % 2 = (frontOf L recvN).1 % 2) : q.1 + 2 ≤ L := by
  rw [frontOf_parity] at parity
  unfold frontOf Before at before
  split at before
  · simp only at before
    omega
  · simp only at before
    omega

/-! ## The invariant -/

/-- The sending half of a party on rung `L`.  When `prev_send_n` does not fit its 32
bits nothing can be sealed, and the chain key moves on without a message. -/
structure Sends (P : Primitives Key Priv) (l : Ladder Key Priv) (L : Nat)
    (s : RatchetState Key Priv) : Prop where
  dhSend : s.dhSend = l.key L
  dhSendPub : s.dhSendPub = P.publicBytes (l.key L)
  root : s.rootKey = l.root L
  prev : s.prevSendN = l.prevCount L
  idle : L = 0 → s.sendChainKey = none ∧ s.sendN = 0 ∧ s.dhRecvPub = none
  ready : ∀ k, L = k + 1 → s.sendN = l.count k ∧ s.dhRecvPub = some (P.publicBytes (l.key k)) ∧
    ∃ chain, s.sendChainKey = some chain ∧
      (s.prevSendN < 2 ^ 32 → chain = (nextChain P)^[s.sendN] (l.chain k))

/-- A party on rung `L` that has returned `ids`, in this order, returned a later
position before it returned `q` (if it has). -/
def Overtaken (P : Primitives Key Priv) (l : Ladder Key Priv) (L : Nat) (ids : List MessageId)
    (q : Position) : Prop :=
  ∃ early q' late, ids = early ++ l.idOf P q' :: late ∧ l.idOf P q ∉ early ∧ Before q q' ∧
    q'.1 % 2 = L % 2 ∧ q'.1 + 2 ≤ L ∧ q'.2 < l.count q'.1

/-- The receiving half of a party on rung `L` that has returned `ids`, in this order,
and stashed `hist`. -/
structure Receives (P : Primitives Key Priv) (l : Ladder Key Priv) (L : Nat)
    (s : RatchetState Key Priv) (ids : List MessageId) (hist : List Position) : Prop where
  stash : Stash P l (frontOf L s.recvN) s.skipped (· ∈ ids) hist
  idle : L < 2 → s.recvChainKey = none
  onChain : ∀ k, L = k + 2 → s.recvChainKey = some ((nextChain P)^[s.recvN] (l.chain k)) ∧
    ∃ n, s.recvN = n + 1 ∧ l.idOf P (k, n) ∈ ids
  seen : ∀ id ∈ s.decryptedSeen.keys, id ∈ ids
  overtaken : ∀ q ∈ hist, Overtaken P l L ids q

/-- A frame sealed on chain `k`. -/
structure SealedOn (P : Primitives Key Priv) (l : Ladder Key Priv) (k : Nat) (frame : Sent Key) :
    Prop where
  sender : (k + 1) % 2 = frame.sender.parity
  dh : frame.header.dh = P.publicBytes (l.key (k + 1))
  pn : frame.header.pn = l.prevCount (k + 1)
  counted : frame.header.n < l.count k
  box : ∃ encoded, frame.header.encode = .ok encoded ∧
    frame.box.key = l.keyAt P (k, frame.header.n) ∧
    frame.box.nonce = aeadNonce frame.header.n ∧ frame.box.aad = encoded ++ frame.ad

/-- A frame with the chain it was sealed on. -/
abbrev Tagged (Key : Type) := Nat × Sent Key

def Tagged.position (t : Tagged Key) : Position := (t.1, t.2.header.n)

structure Agreement (P : Primitives Key Priv) (secret : Key) (w : World Key Priv)
    (l : Ladder Key Priv) (top : Nat) (tags : List (Tagged Key)) (hist : Party → List Position) :
    Prop where
  climbs : Climbs P secret l top w.generated
  pos : 1 ≤ top
  sends : ∀ who, Sends P l (levelOf top who) (w.state who)
  receives : ∀ who, Receives P l (levelOf top who) (w.state who) (w.returnedTo who) (hist who)
  sent : w.sent = tags.map Prod.snd
  sealed : ∀ t ∈ tags, SealedOn P l t.1 t.2 ∧ t.1 < levelOf top t.2.sender
  ordered : tags.Pairwise fun t t' => t.2.sender = t'.2.sender → Before t.position t'.position
  complete : ∀ q : Position, q.2 < l.count q.1 → ∃ t ∈ tags, t.position = q
  authentic : ∀ r ∈ w.returned, ∃ frame ∈ w.sent, frame.sender = r.receiver.peer ∧
    frame.Carries r.header r.ad r.plaintext
  once : (w.returned.map (·.header.id)).Nodup

variable {P : Primitives Key Priv} {secret : Key}

/-! ## The start -/

/-- The two rungs of a matched pair. -/
def Ladder.start (P : Primitives Key Priv) (secret : Key) (bobKey aliceKey : Priv) :
    Ladder Key Priv :=
  let step := kdfRoot P secret (P.exchange bobKey (P.publicBytes aliceKey))
  { key := fun k => if k = 0 then bobKey else aliceKey
    root := fun k => if k = 0 then secret else step.1
    chain := fun _ => step.2
    count := fun _ => 0 }

theorem agreement_start [DecidableEq Key] {alice bob : RatchetState Key Priv}
    {bobKey aliceKey : Priv} (init : initPair P secret bobKey aliceKey = .ok (alice, bob))
    (keys : FreshKeys P [bobKey, aliceKey]) :
    Agreement P secret (World.start alice bob bobKey aliceKey)
      (Ladder.start P secret bobKey aliceKey) 1 [] (fun _ => []) := by
  simp only [initPair, initAlice, bind_eq_ok, require_eq_ok, exists_const, x25519Dh_eq_ok,
    pure_eq_ok_iff, Prod.mk.injEq] at init
  obtain ⟨_, ⟨-, out, ⟨-, -, rfl⟩, rfl⟩, rfl, rfl⟩ := init
  have commutes := keys.commutes aliceKey (by simp) bobKey (by simp)
  have distinct : P.publicBytes bobKey ≠ P.publicBytes aliceKey := by
    have := keys.distinct
    simp only [List.map_cons, List.map_nil, List.nodup_cons, List.mem_singleton] at this
    exact this.1
  constructor
  case climbs =>
    refine ⟨rfl, ?_, ?_, ?_⟩
    · intro k low
      obtain rfl : k = 0 := by omega
      rfl
    · intro k low
      by_cases first : k = 0 <;> simp [Ladder.start, World.start, first]
    · intro j k jLow kLow same
      by_cases j0 : j = 0 <;> by_cases k0 : k = 0 <;>
        simp only [Ladder.start, j0, k0, if_true, if_false] at same
      · omega
      · exact absurd same distinct
      · exact absurd same.symm distinct
      · omega
  case pos => exact Nat.le_refl _
  case sends =>
    intro who
    cases who with
    | alice =>
      refine ⟨rfl, rfl, ?_, rfl, by simp [levelOf, Party.parity], ?_⟩
      · show (kdfRoot P secret (P.exchange aliceKey (P.publicBytes bobKey))).1 = _
        rw [commutes]
        rfl
      · intro k level
        obtain rfl : k = 0 := by
          have : levelOf 1 .alice = 1 := rfl
          omega
        refine ⟨rfl, rfl, _, rfl, fun _ => ?_⟩
        show (kdfRoot P secret (P.exchange aliceKey (P.publicBytes bobKey))).2 = _
        rw [commutes]
        rfl
    | bob => exact ⟨rfl, rfl, rfl, rfl, fun _ => ⟨rfl, rfl, rfl⟩, by simp [levelOf, Party.parity]⟩
  case receives =>
    have emptyStash : ∀ who, Stash P (Ladder.start P secret bobKey aliceKey)
        (frontOf (levelOf 1 who) 0) (OrderedDict.empty : Skipped Key) (· ∈ ([] : List MessageId))
        [] := by
      intro who
      have := levelOf_le 1 who
      rw [frontOf, if_pos (by omega)]
      simpa using Stash.empty (P := P) (l := Ladder.start P secret bobKey aliceKey)
        (show levelOf 1 who < 2 by omega)
    intro who
    have := levelOf_le 1 who
    cases who with
    | alice => exact ⟨emptyStash .alice, fun _ => rfl, by omega, by simp [World.start], by simp⟩
    | bob => exact ⟨emptyStash .bob, fun _ => rfl, by omega, by simp [World.start, initBob], by simp⟩
  case sent => rfl
  case sealed => simp
  case ordered => exact List.Pairwise.nil
  case complete => simp [Ladder.start]
  case authentic => simp [World.start]
  case once => simp [World.start]

/-! ## `encrypt` -/

section Encrypt

variable {l : Ladder Key Priv} {j L : Nat}

theorem Ladder.count_sealOn_self : (l.sealOn j).count j = l.count j + 1 := by simp [Ladder.sealOn]

theorem Ladder.count_sealOn_ne {k : Nat} (ne : k ≠ j) : (l.sealOn j).count k = l.count k :=
  Function.update_of_ne ne _ _

theorem Ladder.count_le_sealOn (k : Nat) : l.count k ≤ (l.sealOn j).count k := by
  by_cases same : k = j
  · rw [same, count_sealOn_self]
    omega
  · rw [count_sealOn_ne same]

theorem Ladder.prevCount_sealOn (low : L < j + 3) : (l.sealOn j).prevCount L = l.prevCount L := by
  unfold prevCount
  split
  · rfl
  · exact count_sealOn_ne (by omega)

/-- Sealing on chain `j` leaves a party's sending half, but for the sender's own count. -/
theorem Sends.sealOn {s : RatchetState Key Priv} (sends : Sends P l L s) (low : L < j + 3)
    (other : L ≠ j + 1) : Sends P (l.sealOn j) L s where
  dhSend := sends.dhSend
  dhSendPub := sends.dhSendPub
  root := sends.root
  prev := by rw [Ladder.prevCount_sealOn low, sends.prev]
  idle := sends.idle
  ready := by
    intro k level
    rw [Ladder.count_sealOn_ne (by omega)]
    exact sends.ready k level

/-- A receiver is not disturbed by a message sealed at or beyond its front. -/
theorem Receives.sealOn {s : RatchetState Key Priv} {ids : List MessageId} {hist : List Position}
    (receives : Receives P l L s ids hist) (low : L ≤ j + 2) :
    Receives P (l.sealOn j) L s ids hist where
  stash := by
    have reached := receives.stash.reached
    refine receives.stash.of_agree ?_ (Nat.le_trans reached (Ladder.count_le_sealOn _))
    intro q parity before
    refine ⟨rfl, rfl, ?_⟩
    by_cases here : q.1 = j
    · have bound : q.2 < l.count q.1 := by
        rw [frontOf_parity] at parity
        unfold frontOf at before reached
        unfold Before at before
        split at before
        · simp only at before
          omega
        · rename_i high
          rw [if_neg high] at reached
          simp only at before reached
          have onFront : L - 2 = q.1 := by omega
          rw [onFront] at reached before
          omega
      exact ⟨fun _ => bound, fun _ => Nat.lt_of_lt_of_le bound (Ladder.count_le_sealOn _)⟩
    · rw [Ladder.count_sealOn_ne here]
  idle := receives.idle
  onChain := receives.onChain
  seen := receives.seen
  overtaken := by
    intro q member
    obtain ⟨early, q', late, split, unreturned, before, parity, low', counted⟩ :=
      receives.overtaken q member
    exact ⟨early, q', late, split, unreturned, before, parity, low',
      Nat.lt_of_lt_of_le counted (Ladder.count_le_sealOn _)⟩

theorem SealedOn.sealOn {k : Nat} {frame : Sent Key} (sealed : SealedOn P l k frame)
    (low : k + 1 < j + 3) : SealedOn P (l.sealOn j) k frame where
  sender := sealed.sender
  dh := sealed.dh
  pn := by rw [Ladder.prevCount_sealOn low, sealed.pn]
  counted := Nat.lt_of_lt_of_le sealed.counted (Ladder.count_le_sealOn _)
  box := sealed.box

variable {w : World Key Priv} {top : Nat} {tags : List (Tagged Key)}
  {hist : Party → List Position}

theorem World.setState_self (w : World Key Priv) (who : Party) : w.setState who (w.state who) = w := by
  simp [World.setState]

theorem World.setState_other (w : World Key Priv) {who other : Party} (ne : other ≠ who)
    (s : RatchetState Key Priv) : (w.setState who s).state other = w.state other :=
  Function.update_of_ne ne _ _

@[simp] theorem World.setState_who (w : World Key Priv) (who : Party)
    (s : RatchetState Key Priv) : (w.setState who s).state who = s :=
  Function.update_self _ _ _

theorem Agreement.chain_lt (agree : Agreement P secret w l top tags hist) {t : Tagged Key}
    (member : t ∈ tags) : t.1 < top :=
  Nat.lt_of_lt_of_le (agree.sealed t member).2 (levelOf_le _ _)

/-- A chain key that moves without a message: only where nothing fits the header any more. -/
theorem Agreement.stepChain (agree : Agreement P secret w l top tags hist) {who : Party}
    {chain : Key} (hasChain : (w.state who).sendChainKey = some chain)
    (stuck : ¬ (w.state who).prevSendN < 2 ^ 32) (chain' : Key) :
    Agreement P secret (w.setState who { w.state who with sendChainKey := some chain' })
      l top tags hist := by
  refine { agree with sends := ?_, receives := ?_ }
  · intro other
    rcases who.eq_or_eq_peer other with rfl | rfl
    · have sends := agree.sends other
      rw [World.setState_who]
      refine ⟨sends.dhSend, sends.dhSendPub, sends.root, sends.prev, ?_, ?_⟩
      · intro level
        rw [(sends.idle level).1] at hasChain
        cases hasChain
      · intro k level
        obtain ⟨count, recvPub, -⟩ := sends.ready k level
        exact ⟨count, recvPub, chain', rfl, fun fits => absurd fits stuck⟩
    · rw [World.setState_other w who.peer_ne]
      exact agree.sends who.peer
  · intro other
    rcases who.eq_or_eq_peer other with rfl | rfl
    · have receives := agree.receives other
      rw [World.setState_who]
      exact ⟨receives.stash, receives.idle, receives.onChain, receives.seen, receives.overtaken⟩
    · rw [World.setState_other w who.peer_ne]
      exact agree.receives who.peer

/-- The frame that `encrypt` seals at the head of the sending chain. -/
def RatchetState.sealed (P : Primitives Key Priv) (s : RatchetState Key Priv) (who : Party)
    (chain : Key) (encoded plaintext ad : Bytes) : Sent Key where
  sender := who
  header := s.sendHeader
  ad := ad
  box := sealBox P chain s.sendHeader encoded plaintext ad

/-- A message sealed at the head of the sender's chain. -/
theorem Agreement.seals (agree : Agreement P secret w l top tags hist) {who : Party} {chain : Key}
    {encoded plaintext ad : Bytes} (hasChain : (w.state who).sendChainKey = some chain)
    (encodes : (w.state who).sendHeader.encode = .ok encoded) :
    ∃ l' tags', Agreement P secret
      { w.setState who { w.state who with
          sendChainKey := some (nextChain P chain)
          sendN := (w.state who).sendN + 1 } with
        sent := w.sent ++ [(w.state who).sealed P who chain encoded plaintext ad] }
      l' top tags' hist := by
  have sends := agree.sends who
  obtain ⟨parity, levels⟩ := levelOf_cases who agree.pos
  obtain ⟨j, level⟩ : ∃ j, levelOf top who = j + 1 := by
    refine Nat.exists_eq_succ_of_ne_zero fun zero => ?_
    rw [(sends.idle zero).1] at hasChain
    cases hasChain
  obtain ⟨count, recvPub, chain', hasChain', chainAt⟩ := sends.ready j level
  obtain rfl : chain' = chain := by
    rw [hasChain] at hasChain'
    exact (Option.some.inj hasChain').symm
  obtain ⟨-, ⟨fits, -⟩, -⟩ := Header.encode_eq_ok.mp encodes
  have position := chainAt fits
  have topLow : top ≤ j + 2 := by omega
  refine ⟨l.sealOn j, tags ++ [(j, (w.state who).sealed P who chain' encoded plaintext ad)], ?_⟩
  constructor
  case climbs => exact agree.climbs.sealOn j
  case pos => exact agree.pos
  case sends =>
    intro other
    rcases who.eq_or_eq_peer other with rfl | rfl
    · simp only [World.setState_who]
      refine ⟨sends.dhSend, sends.dhSendPub, sends.root, ?_, by omega, ?_⟩
      · show (w.state other).prevSendN = _
        rw [Ladder.prevCount_sealOn (by omega), sends.prev]
      · intro k level'
        obtain rfl : k = j := by omega
        refine ⟨?_, recvPub, _, rfl, fun _ => ?_⟩
        · show (w.state other).sendN + 1 = _
          rw [count, Ladder.count_sealOn_self]
        · show nextChain P chain' = (nextChain P)^[(w.state other).sendN + 1] (l.chain k)
          rw [position, nextChain_iterate]
    · simp only [World.setState_other w who.peer_ne]
      exact (agree.sends who.peer).sealOn (by omega) (by omega)
  case receives =>
    intro other
    rcases who.eq_or_eq_peer other with rfl | rfl
    · have receives := (agree.receives other).sealOn (show levelOf top other ≤ j + 2 by omega)
      simp only [World.setState_who]
      exact ⟨receives.stash, receives.idle, receives.onChain, receives.seen, receives.overtaken⟩
    · simp only [World.setState_other w who.peer_ne]
      exact (agree.receives who.peer).sealOn (by omega)
  case sent => simp [agree.sent]
  case sealed =>
    intro t member
    rcases List.mem_append.mp member with old | new
    · obtain ⟨sealed, below⟩ := agree.sealed t old
      have := agree.chain_lt old
      exact ⟨sealed.sealOn (by omega), below⟩
    · obtain rfl := List.mem_singleton.mp new
      refine ⟨⟨level ▸ parity, ?_, ?_, ?_, encoded, encodes, ?_, rfl, rfl⟩, ?_⟩
      · show (w.state who).dhSendPub = _
        rw [sends.dhSendPub, level]
        rfl
      · show (w.state who).prevSendN = _
        rw [sends.prev, Ladder.prevCount_sealOn (by omega), level]
      · show (w.state who).sendN < _
        rw [count, Ladder.count_sealOn_self]
        exact Nat.lt_succ_self _
      · show messageKey P chain' = messageKey P ((nextChain P)^[(w.state who).sendN] (l.chain j))
        rw [position]
      · show j < levelOf top who
        omega
  case ordered =>
    rw [List.pairwise_append]
    refine ⟨agree.ordered, List.pairwise_singleton _ _, ?_⟩
    intro t old t' new sameSender
    obtain rfl := List.mem_singleton.mp new
    obtain ⟨sealed, below⟩ := agree.sealed t old
    have sender : t.2.sender = who := sameSender
    rw [sender, level] at below
    have counted := sealed.counted
    show t.1 < j ∨ t.1 = j ∧ t.2.header.n < (w.state who).sendN
    rw [count]
    by_cases here : t.1 = j
    · rw [here] at counted
      exact .inr ⟨here, counted⟩
    · exact .inl (by omega)
  case complete =>
    intro q counted
    by_cases new : q = (j, l.count j)
    · refine ⟨_, List.mem_append_right _ (List.mem_singleton_self _), ?_⟩
      show (j, (w.state who).sendN) = q
      rw [count, new]
    · have old : q.2 < l.count q.1 := by
        by_cases here : q.1 = j
        · rw [here, Ladder.count_sealOn_self] at counted
          rw [here]
          have : q.2 ≠ l.count j := fun same => new (Prod.ext here same)
          omega
        · rwa [Ladder.count_sealOn_ne here] at counted
      obtain ⟨t, member, at'⟩ := agree.complete q old
      exact ⟨t, List.mem_append_left _ member, at'⟩
  case authentic =>
    intro r member
    obtain ⟨frame, sent, rest⟩ := agree.authentic r member
    exact ⟨frame, List.mem_append_left _ sent, rest⟩
  case once => exact agree.once

theorem Agreement.encrypts (agree : Agreement P secret w l top tags hist)
    (keys : FreshKeys P w.generated) (who : Party) (plaintext ad : Bytes) :
    ∃ l' tags', Agreement P secret (w.encrypts P who plaintext ad) l' top tags' hist := by
  unfold World.encrypts
  rcases encrypt_cases P (w.state who) plaintext ad with ⟨err, fails⟩ |
    ⟨chain, hasChain, fits, ⟨err, refused, fails⟩ | ⟨encoded, encodes, sealsIt⟩⟩
  · rw [fails]
    simp only [World.setState_self]
    exact ⟨l, tags, agree⟩
  · rw [fails]
    refine ⟨l, tags, agree.stepChain hasChain ?_ _⟩
    intro small
    have sends := agree.sends who
    have length : (w.state who).dhSendPub.length = 32 := by
      rw [sends.dhSendPub]
      exact isSmallOrderX25519_length
        (keys.accepted _ (agree.climbs.drawn _ (levelOf_le _ who)))
    have encodes : (w.state who).sendHeader.encode = .ok _ :=
      Header.encode_eq_ok.mpr ⟨length, ⟨small, fits⟩, rfl⟩
    rw [encodes] at refused
    cases refused
  · rw [sealsIt]
    exact agree.seals hasChain encodes

end Encrypt

end OneLink.DoubleRatchet
