/-
# PairQr.Agreement -- what the sessions of honest parties agree on

The attacker supplies every byte string.  `Unforged` and `Unguessed` say what it
cannot supply at one call: a signature of an honest identity over a message that
no session of it signed, and the tag of a key between two honest ephemeral keys
that no session computed.  A run of such calls keeps `World.Sound`; with no
collision among what the sessions hashed, `Agreement` follows.
-/
import OneLink.PairQr.History
import Mathlib.Logic.ExistsUnique

namespace OneLink.PairQr

set_option autoImplicit false

open Library

variable {C : Crypto} {Id I S : Type}

/-! ## What the attacker cannot do -/

/-- Some honest identity has this verifying key. -/
def Setup.Honest (σ : Setup C Id I S) (identity : Octets 32) : Prop := ∃ id, σ.identity id = identity

/-- The inviter session signed a confirm over this transcript. -/
def World.SignedConfirm (w : World C I S) (i : I) (t : TranscriptHash) : Prop :=
  (w.inviters i).machine.transcript = some t ∧ ∃ f, .confirmed f ∈ (w.inviters i).events

/-- The messages that the sessions of an identity have signed. -/
def Setup.Signed (σ : Setup C Id I S) (w : World C I S) (identity : Octets 32) (message : Bytes) :
    Prop :=
  (∃ i, σ.identity (σ.inviterId i) = identity ∧
      message = (w.inviters i).machine.invite.bodyBytes) ∨
    (∃ i t, σ.identity (σ.inviterId i) = identity ∧ w.SignedConfirm i t ∧
      message = confirmPayload t) ∨
    ∃ s b, w.scanners s = some b ∧ σ.identity (σ.scannerId s) = identity ∧
      message = responsePayload b.machine.invite.bodyBytes b.machine.response.nonce
        b.machine.response.ephemeralX25519Pk

/-- The signature that a call checks: the key, the message and the signature. -/
def World.Checks (w : World C I S) : Action I S → Octets 32 → Bytes → Octets 64 → Prop
  | .inviter i (.receiveResponse bytes), identity, message, sig =>
    ∃ resp, PairResponse.decodeRaw bytes = .ok resp ∧ identity = resp.idPubkey ∧
      message = responsePayload (w.inviters i).machine.invite.bodyBytes resp.nonce
        resp.ephemeralX25519Pk ∧ sig = resp.signature
  | .scan _ bytes _, identity, message, sig =>
    ∃ inv, Invite.decodeRaw bytes = .ok inv ∧ identity = inv.idPubkey ∧ message = inv.bodyBytes ∧
      sig = inv.signature
  | .scanner _ c, identity, message, sig =>
    ∃ conf, PairConfirm.decodeRaw c.signedConfirm = .ok conf ∧ identity = conf.idPubkey ∧
      message = confirmPayload conf.transcript ∧ sig = conf.signature
  | _, _, _, _ => False

/-- A signature that verifies under an honest identity is on a message it signed. -/
def Setup.Unforged (σ : Setup C Id I S) (w : World C I S) (a : Action I S) : Prop :=
  ∀ identity message sig, w.Checks a identity message sig → σ.Honest identity →
    C.verify identity message sig = true → σ.Signed w identity message

/-- The keys mixed from a base key between two honest ephemeral keys. -/
def Setup.SecretKey (σ : Setup C Id I S) (key : ChainKey) : Prop :=
  ∃ i s t factor2Key, key = mixFactor2Recip C
    (deriveChainKey C t (C.diffieHellman (σ.inviterSecret i) (C.publicKey (σ.scannerSecret s))))
    factor2Key

/-- The tags that sessions have sent: the key and the message of each. -/
def World.Tagged (w : World C I S) (key : ChainKey) (message : Bytes) : Prop :=
  (∃ i t, (w.inviters i).machine.transcript = some t ∧ (w.inviters i).Mixed key ∧
      message = tagInput t .inviter) ∨
    ∃ s b factor2Key, w.scanners s = some b ∧ .released (some factor2Key) key ∈ b.events ∧
      message = tagInput b.machine.transcript .scanner

/-- An acknowledgement under a secret key is a tag that a session sent. -/
def Setup.Unguessed (σ : Setup C Id I S) (w : World C I S) : Action I S → Prop
  | .inviter i (.receiveFactor2Ack ack) =>
    ∀ key t, (w.inviters i).machine.pendingChainKey = some key →
      (w.inviters i).machine.transcript = some t → σ.SecretKey key →
      ack = (C.keyedHash key (tagInput t .scanner)).val → w.Tagged key (tagInput t .scanner)
  | _ => True

def Setup.Allowed (σ : Setup C Id I S) (w : World C I S) (a : Action I S) : Prop :=
  σ.Unforged w a ∧ σ.Unguessed w a

/-- What the sessions have hashed into transcripts and mixed keys. -/
inductive World.Hashed (w : World C I S) : Bytes → Prop where
  | response (i : I) (resp : PairResponse) (some : (w.inviters i).machine.response = some resp) :
      World.Hashed w (transcriptInput (w.inviters i).machine.invite resp)
  | invite (s : S) (b : ScannerSession C) (some : w.scanners s = some b) :
      World.Hashed w (transcriptInput b.machine.invite b.machine.response)
  | inviterMix (i : I) (base : ChainKey) (factor2Key : Octets 32)
      (accepted : .accepted base ∈ (w.inviters i).events)
      (confirmed : .confirmed (some factor2Key) ∈ (w.inviters i).events) :
      World.Hashed w (mixInput base factor2Key)
  | scannerMix (s : S) (b : ScannerSession C) (base key : ChainKey) (factor2Key : Octets 32)
      (some : w.scanners s = some b) (scanned : .scanned base ∈ b.events)
      (released : .released (.some factor2Key) key ∈ b.events) :
      World.Hashed w (mixInput base factor2Key)

def World.CollisionFree (w : World C I S) : Prop :=
  ∀ x y, w.Hashed x → w.Hashed y → C.hash x = C.hash y → x = y

/-- No two sessions draw the same nonce. -/
structure Setup.Fresh (σ : Setup C Id I S) : Prop where
  inviterNonce : Function.Injective σ.inviterNonce
  scannerNonce : Function.Injective σ.scannerNonce

/-! ## The invariant -/

/-- No step takes back what a session did. -/
structure World.Extends (w w' : World C I S) : Prop where
  inviters : ∀ i, InviterSession.Extends (w.inviters i) (w'.inviters i)
  scanners : ∀ s b, w.scanners s = some b →
    ∃ b', w'.scanners s = some b' ∧ ScannerSession.Extends b b'

/-- A scanner session of the response's identity sent its nonce and ephemeral key. -/
def Setup.Sent (σ : Setup C Id I S) (w : World C I S) (resp : PairResponse) : Prop :=
  ∃ s b, w.scanners s = some b ∧ σ.identity (σ.scannerId s) = resp.idPubkey ∧
    b.machine.response.nonce = resp.nonce ∧
    b.machine.response.ephemeralX25519Pk = resp.ephemeralX25519Pk

structure World.Sound (σ : Setup C Id I S) (w : World C I S) : Prop where
  inviter : ∀ i, InviterSession.Sound σ i (w.inviters i)
  scanner : ∀ s b, w.scanners s = some b → ScannerSession.Sound σ s b
  responses : ∀ i resp, (w.inviters i).machine.response = some resp → σ.Honest resp.idPubkey →
    σ.Sent w resp
  confirms : ∀ s b f key, w.scanners s = some b → .released f key ∈ b.events →
    σ.Honest b.machine.invite.idPubkey → ∃ i,
      σ.identity (σ.inviterId i) = b.machine.invite.idPubkey ∧
        w.SignedConfirm i b.machine.transcript
  acks : ∀ i key, .acked key ∈ (w.inviters i).events → σ.SecretKey key →
    ∃ s b factor2Key, w.scanners s = some b ∧ .released (some factor2Key) key ∈ b.events ∧
      (w.inviters i).machine.transcript = some b.machine.transcript

section Extends

variable {w w' : World C I S}

theorem World.Extends.signedConfirm (grown : World.Extends w w') {i : I} {t : TranscriptHash}
    (signed : w.SignedConfirm i t) : w'.SignedConfirm i t := by
  obtain ⟨transcript, f, confirmed⟩ := signed
  exact ⟨(grown.inviters i).transcript t transcript, f, (grown.inviters i).events _ confirmed⟩

theorem World.Extends.sent {σ : Setup C Id I S} (grown : World.Extends w w') {resp : PairResponse}
    (sent : σ.Sent w resp) : σ.Sent w' resp := by
  obtain ⟨s, b, scanned, identity, nonce, ephemeral⟩ := sent
  obtain ⟨b', scanned', later⟩ := grown.scanners s b scanned
  exact ⟨s, b', scanned', identity, by rw [later.response, nonce],
    by rw [later.response, ephemeral]⟩

end Extends

theorem World.Sound.initial (σ : Setup C Id I S) : World.Sound σ σ.initial where
  inviter i := InviterSession.Sound.initial σ i
  scanner _ _ some := nomatch some
  responses _ _ some := nomatch some
  confirms _ _ _ _ some := nomatch some
  acks _ _ mem := nomatch mem

/-! ## Who signed -/

section Signed

variable {σ : Setup C Id I S} {w : World C I S}

/-- Only a scanner session signs a response payload. -/
theorem Setup.Signed.response {identity : Octets 32} {bind : Bytes} {nonce ephemPk : Octets 32}
    (signed : σ.Signed w identity (responsePayload bind nonce ephemPk)) :
    ∃ s b, w.scanners s = some b ∧ σ.identity (σ.scannerId s) = identity ∧
      b.machine.response.nonce = nonce ∧ b.machine.response.ephemeralX25519Pk = ephemPk := by
  rcases signed with ⟨i, -, body⟩ | ⟨i, t, -, -, confirm⟩ | ⟨s, b, scanned, owner, payload⟩
  · exact absurd body (responsePayload_ne_bodyBytes _ _ _ _)
  · exact absurd confirm.symm (confirmPayload_ne_responsePayload _ _ _ _)
  · obtain ⟨-, rfl, rfl⟩ := responsePayload_inj payload
    exact ⟨s, b, scanned, owner, rfl, rfl⟩

/-- Only an inviter session signs a confirm payload. -/
theorem Setup.Signed.confirm {identity : Octets 32} {t : TranscriptHash}
    (signed : σ.Signed w identity (confirmPayload t)) :
    ∃ i, σ.identity (σ.inviterId i) = identity ∧ w.SignedConfirm i t := by
  rcases signed with ⟨i, -, body⟩ | ⟨i, t', owner, confirmed, payload⟩ | ⟨s, b, -, -, response⟩
  · exact absurd body (confirmPayload_ne_bodyBytes _ _)
  · rw [confirmPayload_inj payload]
    exact ⟨i, owner, confirmed⟩
  · exact absurd response (confirmPayload_ne_responsePayload _ _ _ _)

theorem Setup.not_released_of_scanned {s : S} {inviteBytes : Bytes} {nowUnix : UInt64}
    {b : ScannerSession C} (started : σ.scanned s inviteBytes nowUnix = some b)
    (f : Option (Octets 32)) (key : ChainKey) : .released f key ∉ b.events := by
  unfold Setup.scanned at started
  split at started
  · cases started
  · rw [Option.some.injEq] at started
    rw [← started]
    simp

end Signed

/-! ## One step -/

section Step

variable [DecidableEq I] [DecidableEq S] {σ : Setup C Id I S} {w : World C I S}

/-- An action leaves an inviter session as it is or is a call on it. -/
theorem Setup.inviters_step (σ : Setup C Id I S) (w : World C I S) (a : Action I S) (i : I) :
    (σ.step w a).inviters i = w.inviters i ∨
      ∃ c, a = .inviter i c ∧ InviterStep (w.inviters i) c ((σ.step w a).inviters i) := by
  cases a with
  | inviter j c =>
    by_cases at_j : i = j
    · subst at_j
      have called : (σ.step w (.inviter i c)).inviters i = ((w.inviters i).call c).2 :=
        Function.update_self _ _ _
      rw [called]
      exact .inr ⟨c, rfl, ((w.inviters i).call_cases c).2⟩
    · exact .inl (Function.update_of_ne at_j _ _)
  | scan s inviteBytes nowUnix =>
    simp only [Setup.step]
    split <;> exact .inl rfl
  | scanner s c => exact .inl rfl

/-- A scanner session after an action was there before, was just scanned, or was called. -/
theorem Setup.scanners_step {a : Action I S} {s : S} {b' : ScannerSession C}
    (found : (σ.step w a).scanners s = some b') :
    w.scanners s = some b' ∨
      (∃ inviteBytes nowUnix, a = .scan s inviteBytes nowUnix ∧
        σ.scanned s inviteBytes nowUnix = some b') ∨
      ∃ b c, a = .scanner s c ∧ w.scanners s = some b ∧ ScannerStep b c b' := by
  cases a with
  | inviter j c => exact .inl found
  | scan s' inviteBytes nowUnix =>
    simp only [Setup.step] at found
    split at found
    · exact .inl found
    · by_cases at_s : s = s'
      · subst at_s
        have updated : Function.update w.scanners s (σ.scanned s inviteBytes nowUnix) s =
          some b' := found
        rw [Function.update_self] at updated
        exact .inr (.inl ⟨inviteBytes, nowUnix, rfl, updated⟩)
      · have kept : w.scanners s = some b' :=
          (Function.update_of_ne at_s _ _).symm.trans found
        exact .inl kept
  | scanner s' c =>
    simp only [Setup.step] at found
    by_cases at_s : s = s'
    · subst at_s
      rw [Function.update_self, Option.map_eq_some_iff] at found
      obtain ⟨b, before, rfl⟩ := found
      exact .inr (.inr ⟨b, c, rfl, before, (b.call_cases c).2⟩)
    · rw [Function.update_of_ne at_s] at found
      exact .inl found

/-- A scanner session that is there stays there. -/
theorem Setup.scanners_stay (σ : Setup C Id I S) (a : Action I S) {s : S} {b : ScannerSession C}
    (found : w.scanners s = some b) :
    ∃ b', (σ.step w a).scanners s = some b' ∧ ScannerSession.Extends b b' := by
  have still : ScannerSession.Extends b b := ⟨rfl, rfl, rfl, fun _ mem => mem⟩
  cases a with
  | inviter i c => exact ⟨b, found, still⟩
  | scan s' inviteBytes nowUnix =>
    simp only [Setup.step]
    split
    · exact ⟨b, found, still⟩
    · next none =>
      have other : s ≠ s' := by
        rintro rfl
        rw [none] at found
        cases found
      exact ⟨b, (Function.update_of_ne other _ _).trans found, still⟩
  | scanner s' c =>
    by_cases at_s : s = s'
    · subst at_s
      have called : Function.update w.scanners s ((w.scanners s).map fun b => (b.call c).2) s =
          some (b.call c).2 := by
        rw [Function.update_self, found, Option.map_some]
      exact ⟨(b.call c).2, called, (b.call_cases c).2.extends⟩
    · exact ⟨b, (Function.update_of_ne at_s _ _).trans found, still⟩

theorem World.Sound.extends (sound : World.Sound σ w) (a : Action I S) :
    World.Extends w (σ.step w a) := by
  refine ⟨?_, fun s b found => σ.scanners_stay a found⟩
  intro i
  rcases σ.inviters_step w a i with same | ⟨c, -, step⟩
  · rw [same]
    exact ⟨rfl, fun _ h => h, fun _ h => h, fun _ mem => mem⟩
  · exact (sound.inviter i).extends step

theorem World.Sound.responses_step (sound : World.Sound σ w) {a : Action I S}
    (unforged : σ.Unforged w a) (i : I) (resp : PairResponse)
    (found : ((σ.step w a).inviters i).machine.response = some resp)
    (honest : σ.Honest resp.idPubkey) : σ.Sent (σ.step w a) resp := by
  have grown := sound.extends a
  have before (old : (w.inviters i).machine.response = some resp) : σ.Sent (σ.step w a) resp :=
    grown.sent (sound.responses i resp old honest)
  rcases σ.inviters_step w a i with same | ⟨c, rfl, step⟩
  · rw [same] at found
    exact before found
  · generalize (σ.step w (.inviter i c)).inviters i = after at step found
    cases step with
    | failed c => exact before found
    | accept bytes response esk awaiting secret decoded =>
      obtain rfl : response = resp := Option.some.inj found
      obtain ⟨raw, genuine⟩ := PairResponse.decodeAndVerify_eq_ok decoded
      have signed := unforged _ _ _ ⟨response, raw, rfl, rfl, rfl⟩ honest genuine
      exact grown.sent signed.response
    | confirm t key awaiting transcript pending => exact before found
    | mix factor2Key t base awaiting transcript pending => exact before found
    | ack bytes t key awaiting transcript pending matched => exact before found
    | abort => exact before found

theorem World.Sound.confirms_step (sound : World.Sound σ w) {a : Action I S}
    (unforged : σ.Unforged w a) (s : S) (b' : ScannerSession C) (f : Option (Octets 32))
    (key : ChainKey) (found : (σ.step w a).scanners s = some b')
    (released : .released f key ∈ b'.events) (honest : σ.Honest b'.machine.invite.idPubkey) :
    ∃ i, σ.identity (σ.inviterId i) = b'.machine.invite.idPubkey ∧
      (σ.step w a).SignedConfirm i b'.machine.transcript := by
  have grown := sound.extends a
  rcases Setup.scanners_step found with same | ⟨inviteBytes, nowUnix, -, started⟩ |
    ⟨b, c, rfl, known, step⟩
  · obtain ⟨i, owner, signed⟩ := sound.confirms s b' f key same released honest
    exact ⟨i, owner, grown.signedConfirm signed⟩
  · exact absurd released (Setup.not_released_of_scanned started f key)
  · cases step with
    | failed c =>
      obtain ⟨i, owner, signed⟩ := sound.confirms s b' f key known released honest
      exact ⟨i, owner, grown.signedConfirm signed⟩
    | release c conf base factor2 awaiting pending decoded notAbort =>
      obtain ⟨raw, pinned, agreed, genuine⟩ := PairConfirm.decodeAndVerify_eq_ok decoded
      rw [← pinned] at honest
      have signed := unforged _ _ _ ⟨conf, raw, rfl, rfl, rfl⟩ honest genuine
      obtain ⟨i, owner, confirmed⟩ := signed.confirm
      rw [agreed] at confirmed
      exact ⟨i, owner.trans pinned, grown.signedConfirm confirmed⟩
    | abort =>
      rw [List.mem_append, List.mem_singleton] at released
      obtain ⟨i, owner, signed⟩ :=
        sound.confirms s b f key known (released.resolve_right nofun) honest
      exact ⟨i, owner, grown.signedConfirm signed⟩

theorem World.Sound.acks_step (sound : World.Sound σ w) {a : Action I S}
    (unguessed : σ.Unguessed w a) (i : I) (key : ChainKey)
    (acked : .acked key ∈ ((σ.step w a).inviters i).events) (secret : σ.SecretKey key) :
    ∃ s b factor2Key, (σ.step w a).scanners s = some b ∧
      .released (some factor2Key) key ∈ b.events ∧
      ((σ.step w a).inviters i).machine.transcript = some b.machine.transcript := by
  have grown := sound.extends a
  have later {s : S} {b : ScannerSession C} {factor2Key : Octets 32}
      (known : w.scanners s = some b) (released : .released (some factor2Key) key ∈ b.events)
      (agreed : (w.inviters i).machine.transcript = some b.machine.transcript) :
      ∃ s b factor2Key, (σ.step w a).scanners s = some b ∧
        .released (some factor2Key) key ∈ b.events ∧
        ((σ.step w a).inviters i).machine.transcript = some b.machine.transcript := by
    obtain ⟨b', known', extended⟩ := grown.scanners s b known
    refine ⟨s, b', factor2Key, known', extended.events _ released, ?_⟩
    rw [extended.transcript]
    exact (grown.inviters i).transcript _ agreed
  have before (old : .acked key ∈ (w.inviters i).events) :
      ∃ s b factor2Key, (σ.step w a).scanners s = some b ∧
        .released (some factor2Key) key ∈ b.events ∧
        ((σ.step w a).inviters i).machine.transcript = some b.machine.transcript := by
    obtain ⟨s, b, factor2Key, known, released, agreed⟩ := sound.acks i key old secret
    exact later known released agreed
  rcases σ.inviters_step w a i with same | ⟨c, rfl, step⟩
  · rw [same] at acked
    exact before acked
  · generalize (σ.step w (.inviter i c)).inviters i = after at step acked before later
    cases step with
    | failed c => exact before acked
    | accept bytes response esk awaiting _ decoded =>
      rw [List.mem_append, List.mem_singleton] at acked
      exact before (acked.resolve_right (by simp))
    | confirm t k awaiting transcript pending =>
      simp only [List.mem_append, List.mem_cons, List.not_mem_nil, or_false, reduceCtorEq] at acked
      exact before acked
    | mix factor2Key t base awaiting transcript pending =>
      rw [List.mem_append, List.mem_singleton] at acked
      exact before (acked.resolve_right (by simp))
    | ack bytes t k awaiting transcript pending matched =>
      rw [List.mem_append, List.mem_singleton, InviterEvent.acked.injEq] at acked
      rcases acked with old | rfl
      · exact before old
      · rcases unguessed key t pending transcript secret matched with
          ⟨j, t', -, -, input⟩ | ⟨s, b, factor2Key, known, released, input⟩
        · cases (tagInput_inj input).2
        · rw [(tagInput_inj input).1] at transcript
          exact later known released transcript
    | abort =>
      rw [List.mem_append, List.mem_singleton] at acked
      exact before (acked.resolve_right (by simp))

/-- Every allowed action keeps the invariant. -/
theorem World.Sound.step (sound : World.Sound σ w) {a : Action I S} (allowed : σ.Allowed w a) :
    World.Sound σ (σ.step w a) where
  inviter i := by
    rcases σ.inviters_step w a i with same | ⟨c, -, step⟩
    · rw [same]
      exact sound.inviter i
    · exact (sound.inviter i).step step
  scanner s b found := by
    rcases Setup.scanners_step found with same | ⟨inviteBytes, nowUnix, -, started⟩ |
      ⟨b, c, -, known, step⟩
    · exact sound.scanner s b same
    · exact ScannerSession.Sound.initial started
    · exact (sound.scanner s b known).step step
  responses := sound.responses_step allowed.1
  confirms := sound.confirms_step allowed.1
  acks := sound.acks_step allowed.2

theorem World.Sound.run {actions : List (Action I S)}
    (allowed : EachStep σ.step σ.Allowed σ.initial actions) :
    World.Sound σ (Library.run σ.step σ.initial actions) :=
  run_invariant (fun _ _ sound guard => sound.step guard) (World.Sound.initial σ) allowed

end Step

/-! ## Agreement -/

/-- The inviter session holds what the scanner session holds. -/
def World.Matches (w : World C I S) (i : I) (b : ScannerSession C) : Prop :=
  (w.inviters i).machine.invite = b.machine.invite ∧
    (w.inviters i).machine.response = some b.machine.response ∧
    (w.inviters i).machine.transcript = some b.machine.transcript ∧
    ∃ base, .accepted base ∈ (w.inviters i).events ∧ .scanned base ∈ b.events

structure Agreement (σ : Setup C Id I S) (w : World C I S) : Prop where
  /-- A scanner that released a key has exactly one inviter session. -/
  scannerAgrees : ∀ s b f key, w.scanners s = some b → .released f key ∈ b.events →
    σ.Honest b.machine.invite.idPubkey →
    ∃ i, (σ.identity (σ.inviterId i) = b.machine.invite.idPubkey ∧
        w.SignedConfirm i b.machine.transcript ∧ w.Matches i b) ∧
      ∀ j, w.SignedConfirm j b.machine.transcript → j = i
  /-- An inviter session has at most one scanner session. -/
  scannersApart : ∀ i s s' b b', w.scanners s = some b → w.scanners s' = some b' →
    (w.inviters i).machine.transcript = some b.machine.transcript →
    (w.inviters i).machine.transcript = some b'.machine.transcript → s = s'
  /-- A key released by an acknowledgement is the one the scanner released. -/
  ackAgrees : ∀ i resp key, (w.inviters i).machine.response = some resp →
    σ.Honest resp.idPubkey → .acked key ∈ (w.inviters i).events →
    ∃ s b factor2Key, w.scanners s = some b ∧
      (w.inviters i).machine.transcript = some b.machine.transcript ∧
      (∀ f, .confirmed f ∈ (w.inviters i).events ↔ f = some factor2Key) ∧
      .released (some factor2Key) key ∈ b.events
  /-- A session releases a key at most once, and never after it ended. -/
  inviterOnce : ∀ i, SealedOnce InviterEvent.releases InviterEvent.ends (w.inviters i).events
  scannerOnce : ∀ s b, w.scanners s = some b →
    SealedOnce ScannerEvent.releases ScannerEvent.ends b.events
  /-- A call that returns an error leaves its session as it was. -/
  inviterFails : ∀ i c e, ((w.inviters i).call c).1 = .error e →
    ((w.inviters i).call c).2 = w.inviters i
  scannerFails : ∀ s b c e, w.scanners s = some b → (b.call c).1 = .error e → (b.call c).2 = b

section Agreement

variable {σ : Setup C Id I S} {w : World C I S}

/-- Equal transcripts are transcripts of the same frames. -/
theorem World.Sound.same_frames (sound : World.Sound σ w) (free : w.CollisionFree) {i : I} {s : S}
    {b : ScannerSession C} (known : w.scanners s = some b)
    (agreed : (w.inviters i).machine.transcript = some b.machine.transcript) :
    (w.inviters i).machine.invite = b.machine.invite ∧
      (w.inviters i).machine.response = some b.machine.response := by
  have scanner := sound.scanner s b known
  rw [(sound.inviter i).transcript, Option.map_eq_some_iff] at agreed
  obtain ⟨resp, response, hashed⟩ := agreed
  rw [scanner.transcript, ← (sound.inviter i).invite] at hashed
  have inputs := free _ _ (.response i resp response) (.invite s b known) hashed
  obtain ⟨invite, answer⟩ := transcriptInput_inj scanner.fits inputs.symm
  exact ⟨invite.symm, by rw [response, answer]⟩

theorem World.Sound.matches (sound : World.Sound σ w) (free : w.CollisionFree)
    (commutes : ∀ a b : C.StaticSecret,
      C.diffieHellman a (C.publicKey b) = C.diffieHellman b (C.publicKey a))
    {i : I} {s : S} {b : ScannerSession C} (known : w.scanners s = some b)
    (signed : w.SignedConfirm i b.machine.transcript) : w.Matches i b := by
  obtain ⟨agreed, f, confirmed⟩ := signed
  obtain ⟨invite, response⟩ := sound.same_frames free known agreed
  obtain ⟨base, accepted⟩ := (sound.inviter i).confirmed f confirmed
  refine ⟨invite, response, agreed, base, accepted, ?_⟩
  have scanner := sound.scanner s b known
  have derived := (sound.inviter i).accepted base accepted
  rw [response, Option.map_some, Option.some.injEq] at derived
  have own : σ.invite i = b.machine.invite := (sound.inviter i).invite.symm.trans invite
  have sent : b.machine.response.ephemeralX25519Pk = C.publicKey (σ.scannerSecret s) := by
    rw [scanner.response]
    rfl
  have shown : b.machine.invite.ephemeralX25519Pk = C.publicKey (σ.inviterSecret i) := by
    rw [← own]
    rfl
  rw [scanner.scanned, ← derived, Setup.baseKey, own, scanner.transcript, sent, shown,
    commutes (σ.inviterSecret i)]

theorem World.Sound.scanners_apart (sound : World.Sound σ w) (free : w.CollisionFree)
    (fresh : σ.Fresh) {i : I} {s s' : S} {b b' : ScannerSession C} (known : w.scanners s = some b)
    (known' : w.scanners s' = some b')
    (agreed : (w.inviters i).machine.transcript = some b.machine.transcript)
    (agreed' : (w.inviters i).machine.transcript = some b'.machine.transcript) : s = s' := by
  have response := (sound.same_frames free known agreed).2
  rw [(sound.same_frames free known' agreed').2, Option.some.injEq,
    (sound.scanner s b known).response, (sound.scanner s' b' known').response] at response
  exact (fresh.scannerNonce (congrArg PairResponse.nonce response)).symm

theorem World.Sound.inviters_apart (sound : World.Sound σ w) (free : w.CollisionFree)
    (fresh : σ.Fresh) {i j : I} {s : S} {b : ScannerSession C} (known : w.scanners s = some b)
    (agreed : (w.inviters i).machine.transcript = some b.machine.transcript)
    (agreed' : (w.inviters j).machine.transcript = some b.machine.transcript) : j = i := by
  have same : σ.invite j = σ.invite i := by
    rw [← (sound.inviter j).invite, ← (sound.inviter i).invite,
      (sound.same_frames free known agreed).1, (sound.same_frames free known agreed').1]
  exact fresh.inviterNonce (congrArg Invite.nonce same)

theorem World.Sound.ack_agrees (sound : World.Sound σ w) (free : w.CollisionFree) {i : I}
    {resp : PairResponse} {key : ChainKey}
    (response : (w.inviters i).machine.response = some resp) (honest : σ.Honest resp.idPubkey)
    (acked : .acked key ∈ (w.inviters i).events) :
    ∃ s b factor2Key, w.scanners s = some b ∧
      (w.inviters i).machine.transcript = some b.machine.transcript ∧
      (∀ f, .confirmed f ∈ (w.inviters i).events ↔ f = some factor2Key) ∧
      .released (some factor2Key) key ∈ b.events := by
  obtain ⟨base, factor2Key, accepted, confirmed, rfl⟩ := (sound.inviter i).acked key acked
  -- The response came from an honest scanner session, so both ephemeral keys are honest.
  obtain ⟨s, b, known, -, -, ephemeral⟩ := sound.responses i resp response honest
  have derived := (sound.inviter i).accepted base accepted
  rw [response, Option.map_some, Option.some.injEq] at derived
  have sent : resp.ephemeralX25519Pk = C.publicKey (σ.scannerSecret s) := by
    rw [← ephemeral, (sound.scanner s b known).response]
    rfl
  have secret : σ.SecretKey (mixFactor2Recip C base factor2Key) :=
    ⟨i, s, transcriptHash C (σ.invite i) resp, factor2Key, by rw [← derived, Setup.baseKey, sent]⟩
  obtain ⟨s', b', f, known', released, agreed⟩ := sound.acks i _ acked secret
  obtain ⟨base', scanned, same⟩ := (sound.scanner s' b' known').released _ _ released
  have inputs := free _ _ (.inviterMix i base factor2Key accepted confirmed)
    (.scannerMix s' b' base' _ f known' scanned released) same
  obtain ⟨-, rfl⟩ := mixInput_inj inputs
  refine ⟨s', b', factor2Key, known', agreed, ?_, released⟩
  intro g
  constructor
  · intro other
    exact (sound.inviter i).confirmedOnce g _ other confirmed
  · rintro rfl
    exact confirmed

end Agreement

/-- **Pairing agreement.**  Whatever the attacker hands to the calls, short of a
forged signature or a guessed tag, the sessions of honest identities agree. -/
theorem pairing_agreement [DecidableEq I] [DecidableEq S] (σ : Setup C Id I S)
    (commutes : ∀ a b : C.StaticSecret,
      C.diffieHellman a (C.publicKey b) = C.diffieHellman b (C.publicKey a))
    (fresh : σ.Fresh) (actions : List (Action I S))
    (allowed : EachStep σ.step σ.Allowed σ.initial actions)
    (free : (run σ.step σ.initial actions).CollisionFree) :
    Agreement σ (run σ.step σ.initial actions) := by
  have sound := World.Sound.run allowed
  refine
    { scannerAgrees := ?_
      scannersApart := fun _ _ _ _ _ known known' agreed agreed' =>
        sound.scanners_apart free fresh known known' agreed agreed'
      ackAgrees := fun _ _ _ response honest acked => sound.ack_agrees free response honest acked
      inviterOnce := fun i => (sound.inviter i).sealedOnce
      scannerOnce := fun s b known => (sound.scanner s b known).sealedOnce
      inviterFails := ?_
      scannerFails := ?_ }
  · intro s b f key known released honest
    obtain ⟨i, owner, signed⟩ := sound.confirms s b f key known released honest
    refine ⟨i, ⟨owner, signed, sound.matches free commutes known signed⟩, ?_⟩
    intro j confirmed
    exact sound.inviters_apart free fresh known signed.1 confirmed.1
  · intro i c e failed
    rcases (((run σ.step σ.initial actions).inviters i).call_cases c).1 with ⟨_, same⟩ | done
    · rw [same]
    · rw [failed] at done
      cases done
  · intro s b c e known failed
    rcases (b.call_cases c).1 with ⟨_, same⟩ | done
    · rw [same]
    · rw [failed] at done
      cases done

/-! ### A whole run of one pairing -/

/-- The two parties of a pairing as a setup of one session each. -/
def Parties.setup {C : Crypto} (p : Parties C) : Setup C Bool Unit Unit where
  signingKey inviter := bif inviter then p.inviterSigning else p.scannerSigning
  inviterId _ := true
  inviterSecret _ := p.inviterSecret
  inviterNonce _ := p.inviterNonce
  expiryUnix _ := p.expiryUnix
  scope _ := p.scope
  scannerId _ := false
  scannerSecret _ := p.scannerSecret
  scannerNonce _ := p.scannerNonce

/-- A world of one inviter session and one scanner session. -/
def World.pair {C : Crypto} (a : InviterSession C) (b : Option (ScannerSession C)) :
    World C Unit Unit := ⟨fun _ => a, fun _ => b⟩

section Honest

variable {C : Crypto} (p : Parties C) (factor2Key : Octets 32)

/-- The frame that carries the confirm and its tag. -/
def Parties.confirmFrame : Bytes :=
  (PairConfirm.sign C p.inviterSigning p.scanner.transcript).encode ++
    (factor2ConfirmationTag C (mixFactor2Recip C p.baseKey factor2Key)
      p.scanner.transcript .inviter).val

def Parties.ackFrame : Bytes :=
  (factor2ConfirmationTag C (mixFactor2Recip C p.baseKey factor2Key)
    p.scanner.transcript .scanner).val

/-- The calls of a pairing with Factor-2, each given the frame the other side sent. -/
def Parties.calls : List (Action Unit Unit) :=
  [.scan () p.invite.encode p.nowUnix,
    .inviter () (.receiveResponse p.scanner.response.encode),
    .inviter () (.confirmWithFactor2 factor2Key),
    .scanner () (.receiveConfirmWithFactor2 (p.confirmFrame factor2Key) factor2Key),
    .inviter () (.receiveFactor2Ack (p.ackFrame factor2Key))]

/-- The inviter once it signed its confirm. -/
def Parties.confirming : Inviter C :=
  { p.answered with
    pendingChainKey := some (mixFactor2Recip C p.baseKey factor2Key)
    state := .awaitingFactor2Ack
    ephemeralSecret := none }

def Parties.finishedInviter : Inviter C :=
  { p.answered with pendingChainKey := none, state := .done, ephemeralSecret := none }

def Parties.finishedScanner : Scanner C :=
  { p.scanner with pendingChainKey := none, state := .done, ephemeralSecret := none }

variable {p factor2Key}

theorem step_pair_inviter {σ : Setup C Bool Unit Unit} {a : InviterSession C}
    {b : Option (ScannerSession C)} (c : InviterCall) :
    σ.step (World.pair a b) (.inviter () c) = World.pair (a.call c).2 b := by
  simp only [Setup.step, World.pair]
  congr 1

theorem step_pair_scanner {σ : Setup C Bool Unit Unit} {a : InviterSession C}
    {b : ScannerSession C} (c : ScannerCall) :
    σ.step (World.pair a (some b)) (.scanner () c) = World.pair a (some (b.call c).2) := by
  simp only [Setup.step, World.pair]
  congr 1

/-- The worlds of the run. -/
def Parties.afterScan (p : Parties C) : World C Unit Unit :=
  World.pair ⟨p.setup.newInviter (), []⟩ (some ⟨p.scanner, [.scanned p.baseKey]⟩)

def Parties.afterResponse (p : Parties C) : World C Unit Unit :=
  World.pair ⟨p.answered, [.accepted p.baseKey]⟩ (some ⟨p.scanner, [.scanned p.baseKey]⟩)

def Parties.afterConfirm (p : Parties C) (factor2Key : Octets 32) : World C Unit Unit :=
  World.pair ⟨p.confirming factor2Key, [.accepted p.baseKey, .confirmed (some factor2Key)]⟩
    (some ⟨p.scanner, [.scanned p.baseKey]⟩)

def Parties.afterRelease (p : Parties C) (factor2Key : Octets 32) : World C Unit Unit :=
  World.pair ⟨p.confirming factor2Key, [.accepted p.baseKey, .confirmed (some factor2Key)]⟩
    (some ⟨p.finishedScanner, [.scanned p.baseKey,
      .released (some factor2Key) (mixFactor2Recip C p.baseKey factor2Key)]⟩)

def Parties.afterAck (p : Parties C) (factor2Key : Octets 32) : World C Unit Unit :=
  World.pair ⟨p.finishedInviter, [.accepted p.baseKey, .confirmed (some factor2Key),
      .acked (mixFactor2Recip C p.baseKey factor2Key)]⟩
    (some ⟨p.finishedScanner, [.scanned p.baseKey,
      .released (some factor2Key) (mixFactor2Recip C p.baseKey factor2Key)]⟩)

variable (correct : C.Correct)
  (nonzero : ¬ allZero (C.diffieHellman p.scannerSecret (C.publicKey p.inviterSecret)) = true)
  (before : p.nowUnix < p.expiryUnix) (fits : p.invite.encode.length ≤ inviteMaxBytes)

include correct

include nonzero before fits in
theorem step_scan : p.setup.step p.setup.initial (.scan () p.invite.encode p.nowUnix) =
    p.afterScan := by
  have scanned : p.setup.scanned () p.invite.encode p.nowUnix =
      some ⟨p.scanner, [.scanned p.baseKey]⟩ := by
    have scan : Scanner.scan (p.setup.signingKey (p.setup.scannerId ())) p.invite.encode p.nowUnix
        (p.setup.scannerSecret ()) (p.setup.scannerNonce ()) =
        .ok (p.scanner, p.scanner.response.encode) := scan_invite correct nonzero before fits
    rw [Setup.scanned, scan]
    rfl
  simp only [Setup.step, Setup.initial, scanned, Parties.afterScan, World.pair]
  congr 1

include nonzero fits in
theorem step_receiveResponse :
    p.setup.step p.afterScan (.inviter () (.receiveResponse p.scanner.response.encode)) =
      p.afterResponse := by
  have received : (p.setup.newInviter ()).receiveResponse p.scanner.response.encode =
      (.ok p.scanner.sas, p.answered) := receiveResponse_scanner correct nonzero fits
  rw [Parties.afterScan, step_pair_inviter]
  simp only [InviterSession.call, received]
  rfl

omit correct in
theorem step_confirmWithFactor2 :
    p.setup.step p.afterResponse (.inviter () (.confirmWithFactor2 factor2Key)) =
      p.afterConfirm factor2Key := by
  rw [Parties.afterResponse, step_pair_inviter]
  simp only [InviterSession.call, confirmWithFactor2_answered]
  rfl

theorem step_receiveConfirmWithFactor2 :
    p.setup.step (p.afterConfirm factor2Key)
        (.scanner () (.receiveConfirmWithFactor2 (p.confirmFrame factor2Key) factor2Key)) =
      p.afterRelease factor2Key := by
  rw [Parties.afterConfirm, step_pair_scanner]
  simp only [ScannerSession.call, Parties.confirmFrame, receiveConfirmWithFactor2_scanner correct]
  rfl

omit correct in
theorem step_receiveFactor2Ack :
    p.setup.step (p.afterRelease factor2Key)
        (.inviter () (.receiveFactor2Ack (p.ackFrame factor2Key))) =
      p.afterAck factor2Key := by
  rw [Parties.afterRelease, step_pair_inviter]
  have received : (p.confirming factor2Key).receiveFactor2Ack (p.ackFrame factor2Key) =
      (.ok (mixFactor2Recip C p.baseKey factor2Key), p.finishedInviter) :=
    receiveFactor2Ack_answered factor2Key
  simp only [InviterSession.call, received]
  rfl

include nonzero before fits in
/-- In an honest run every signature that is checked was made by a session. -/
theorem calls_allowed :
    EachStep p.setup.step p.setup.Allowed p.setup.initial (p.calls factor2Key) := by
  have inviterKey : p.setup.identity (p.setup.inviterId ()) = C.verifyingKey p.inviterSigning := rfl
  have scannerKey : p.setup.identity (p.setup.scannerId ()) = C.verifyingKey p.scannerSigning := rfl
  refine ⟨⟨?_, trivial⟩, ?_⟩
  · rintro identity message sig ⟨inv, raw, rfl, rfl, rfl⟩ - -
    rw [Invite.decodeRaw_encode fits, Except.ok.injEq] at raw
    subst raw
    exact .inl ⟨(), inviterKey, rfl⟩
  rw [step_scan correct nonzero before fits]
  refine ⟨⟨?_, trivial⟩, ?_⟩
  · rintro identity message sig ⟨resp, raw, rfl, rfl, rfl⟩ - -
    rw [PairResponse.decodeRaw_encode, Except.ok.injEq] at raw
    subst raw
    exact .inr (.inr ⟨(), _, rfl, scannerKey, rfl⟩)
  rw [step_receiveResponse correct nonzero fits]
  refine ⟨⟨nofun, trivial⟩, ?_⟩
  rw [step_confirmWithFactor2]
  refine ⟨⟨?_, trivial⟩, ?_⟩
  · rintro identity message sig ⟨conf, raw, rfl, rfl, rfl⟩ - -
    rw [ScannerCall.signedConfirm, Parties.confirmFrame,
      List.take_left' (PairConfirm.length_encode _), PairConfirm.decodeRaw_encode,
      Except.ok.injEq] at raw
    subst raw
    exact .inr (.inl ⟨(), _, inviterKey,
      ⟨rfl, some factor2Key, List.mem_cons_of_mem _ (List.mem_singleton.mpr rfl)⟩, rfl⟩)
  rw [step_receiveConfirmWithFactor2 correct]
  refine ⟨⟨nofun, ?_⟩, trivial⟩
  intro key t pending transcript _ _
  obtain rfl : mixFactor2Recip C p.baseKey factor2Key = key := Option.some.inj pending
  obtain rfl : p.scanner.transcript = t := Option.some.inj transcript
  exact .inr ⟨(), _, factor2Key, rfl, List.mem_cons_of_mem _ (List.mem_singleton.mpr rfl), rfl⟩

include nonzero before fits in
theorem run_calls : run p.setup.step p.setup.initial (p.calls factor2Key) =
    p.afterAck factor2Key := by
  simp only [Parties.calls, run_cons, run_nil, step_scan correct nonzero before fits,
    step_receiveResponse correct nonzero fits, step_confirmWithFactor2,
    step_receiveConfirmWithFactor2 correct, step_receiveFactor2Ack]

omit correct in
/-- The pairing hashed one transcript and mixed one key. -/
theorem hashed_afterAck {x : Bytes} (hashed : (p.afterAck factor2Key).Hashed x) :
    x = transcriptInput p.invite p.scanner.response ∨ x = mixInput p.baseKey factor2Key := by
  cases hashed with
  | response i resp found =>
    obtain rfl : p.scanner.response = resp := Option.some.inj found
    exact .inl rfl
  | invite s b found =>
    obtain rfl := Option.some.inj found
    exact .inl rfl
  | inviterMix i base f accepted confirmed =>
    simp only [Parties.afterAck, World.pair, List.mem_cons, InviterEvent.accepted.injEq,
      reduceCtorEq, List.not_mem_nil, or_self, or_false, InviterEvent.confirmed.injEq,
      Option.some.injEq, false_or] at accepted confirmed
    rw [accepted, confirmed]
    exact .inr rfl
  | scannerMix s b base key f found scanned released =>
    obtain rfl := Option.some.inj found
    simp only [List.mem_cons, ScannerEvent.scanned.injEq, reduceCtorEq, List.not_mem_nil, or_self,
      or_false, ScannerEvent.released.injEq, Option.some.injEq, false_or] at scanned released
    rw [scanned, released.1]
    exact .inr rfl

end Honest

theorem pairing_agreement_contact :
    Agreement (toyParties (utf8 "contact") none).setup
      (run (toyParties (utf8 "contact") none).setup.step
        (toyParties (utf8 "contact") none).setup.initial
        ((toyParties (utf8 "contact") none).calls (filled 32 7))) := by
  have fits : (toyParties (utf8 "contact") none).invite.encode.length ≤ inviteMaxBytes :=
    (toyParties (utf8 "contact") none).invite.encode_fits.mpr (by decide)
  refine pairing_agreement _ toyCrypto_correct.commutes
    ⟨fun _ _ _ => rfl, fun _ _ _ => rfl⟩ _
    (calls_allowed toyCrypto_correct (by decide) (by decide) fits) ?_
  rw [run_calls toyCrypto_correct (by decide) (by decide) fits]
  have apart : toyCrypto.hash (transcriptInput (toyParties (utf8 "contact") none).invite
      (toyParties (utf8 "contact") none).scanner.response) ≠
      toyCrypto.hash (mixInput (toyParties (utf8 "contact") none).baseKey (filled 32 7)) := by
    decide +kernel
  intro x y first second same
  rcases hashed_afterAck first with rfl | rfl <;> rcases hashed_afterAck second with rfl | rfl
  · rfl
  · exact absurd same apart
  · exact absurd same.symm apart
  · rfl

end OneLink.PairQr
