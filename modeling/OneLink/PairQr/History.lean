/-
# PairQr.History -- what a session holds and what it did

`InviterSession.Sound` and `ScannerSession.Sound` tie the fields of a machine to
the events of its session; every call keeps them (`InviterSession.Sound.call`,
`ScannerSession.Sound.call`).  In particular a key is released at most once, and
never after an abort (`SealedOnce`).
-/
import OneLink.PairQr.Sessions

namespace OneLink.PairQr

set_option autoImplicit false

open Library

/-! ## Releases -/

/-- An event that releases a key comes after no event that ends the session. -/
def SealedOnce {Event : Type} (releases ends : Event → Bool) (events : List Event) : Prop :=
  events.Pairwise fun earlier later => releases later = true → ends earlier = false

section SealedOnce

variable {Event : Type} {releases ends : Event → Bool} {events : List Event} {e : Event}

theorem SealedOnce.quiet (sealed : SealedOnce releases ends events) (quiet : releases e = false) :
    SealedOnce releases ends (events ++ [e]) := by
  refine List.pairwise_append.mpr ⟨sealed, List.pairwise_singleton _ _, ?_⟩
  intro earlier _ later last released
  rw [List.mem_singleton.mp last, quiet] at released
  cases released

theorem SealedOnce.last (sealed : SealedOnce releases ends events)
    (unended : ∀ earlier ∈ events, ends earlier = false) :
    SealedOnce releases ends (events ++ [e]) := by
  refine List.pairwise_append.mpr ⟨sealed, List.pairwise_singleton _ _, ?_⟩
  intro earlier before later _ _
  exact unended earlier before

end SealedOnce

/-! ## Inviter sessions -/

section Inviter

variable {C : Crypto} {Id I S : Type}

def Setup.invite (σ : Setup C Id I S) (i : I) : Invite := (σ.newInviter i).invite

/-- The key an inviter session derives from a response. -/
def Setup.baseKey (σ : Setup C Id I S) (i : I) (response : PairResponse) : ChainKey :=
  deriveChainKey C (transcriptHash C (σ.invite i) response)
    (C.diffieHellman (σ.inviterSecret i) response.ephemeralX25519Pk)

/-- The key is a base key of the session mixed with its Factor-2 key. -/
def InviterSession.Mixed (a : InviterSession C) (key : ChainKey) : Prop :=
  ∃ base factor2Key, .accepted base ∈ a.events ∧ .confirmed (some factor2Key) ∈ a.events ∧
    key = mixFactor2Recip C base factor2Key

/-- An inviter session: its fields, and the events they stand for. -/
structure InviterSession.Sound (σ : Setup C Id I S) (i : I) (a : InviterSession C) : Prop where
  invite : a.machine.invite = σ.invite i
  secret : ∀ esk, a.machine.ephemeralSecret = some esk → esk = σ.inviterSecret i
  transcript : a.machine.transcript = a.machine.response.map (transcriptHash C (σ.invite i))
  fresh : a.machine.state = .awaitingResponse → a.machine.response = none ∧ a.events = []
  accepted : ∀ base, .accepted base ∈ a.events →
    a.machine.response.map (σ.baseKey i) = some base
  pending : ∀ key, a.machine.pendingChainKey = some key →
    (a.machine.state = .awaitingUserConfirm → .accepted key ∈ a.events) ∧
      (a.machine.state = .awaitingFactor2Ack → a.Mixed key)
  unconfirmed : a.machine.state = .awaitingUserConfirm → ∀ f, .confirmed f ∉ a.events
  confirmed : ∀ f, .confirmed f ∈ a.events → ∃ base, .accepted base ∈ a.events
  confirmedOnce : ∀ f g, .confirmed f ∈ a.events → .confirmed g ∈ a.events → f = g
  acked : ∀ key, .acked key ∈ a.events → a.Mixed key
  unended : a.machine.state = .awaitingUserConfirm ∨ a.machine.state = .awaitingFactor2Ack →
    ∀ e ∈ a.events, e.ends = false
  sealedOnce : SealedOnce InviterEvent.releases InviterEvent.ends a.events

theorem InviterSession.Sound.initial (σ : Setup C Id I S) (i : I) :
    InviterSession.Sound σ i ⟨σ.newInviter i, []⟩ where
  invite := rfl
  secret _ some := (Option.some.inj some).symm
  transcript := rfl
  fresh _ := ⟨rfl, rfl⟩
  accepted _ mem := nomatch mem
  pending _ some := nomatch some
  unconfirmed awaiting := nomatch awaiting
  confirmed _ mem := nomatch mem
  confirmedOnce _ _ mem := nomatch mem
  acked _ mem := nomatch mem
  unended _ _ mem := nomatch mem
  sealedOnce := List.Pairwise.nil

/-- Events that only grow keep what was mixed from them. -/
theorem InviterSession.Mixed.mono {a a' : InviterSession C} {key : ChainKey}
    (mixed : a.Mixed key) (more : ∀ e ∈ a.events, e ∈ a'.events) : a'.Mixed key := by
  obtain ⟨base, factor2Key, accepted, confirmed, rfl⟩ := mixed
  exact ⟨base, factor2Key, more _ accepted, more _ confirmed, rfl⟩

/-- No call takes back what a session did or accepted. -/
structure InviterSession.Extends (a a' : InviterSession C) : Prop where
  invite : a'.machine.invite = a.machine.invite
  response : ∀ r, a.machine.response = some r → a'.machine.response = some r
  transcript : ∀ t, a.machine.transcript = some t → a'.machine.transcript = some t
  events : ∀ e ∈ a.events, e ∈ a'.events

theorem InviterSession.Sound.extends {σ : Setup C Id I S} {i : I} {a a' : InviterSession C}
    {c : InviterCall} (sound : InviterSession.Sound σ i a) (step : InviterStep a c a') :
    InviterSession.Extends a a' := by
  cases step with
  | failed c => exact ⟨rfl, fun _ h => h, fun _ h => h, fun _ h => h⟩
  | accept bytes response esk awaiting secret decoded =>
    have empty := (sound.fresh awaiting).1
    refine ⟨rfl, ?_, ?_, fun e mem => List.mem_append_left _ mem⟩
    · intro r some
      rw [empty] at some
      cases some
    · intro t some
      rw [sound.transcript, empty] at some
      cases some
  | confirm t key awaiting transcript pending =>
    exact ⟨rfl, fun _ h => h, fun _ h => h, fun e mem => List.mem_append_left _ mem⟩
  | mix factor2Key t base awaiting transcript pending =>
    exact ⟨rfl, fun _ h => h, fun _ h => h, fun e mem => List.mem_append_left _ mem⟩
  | ack bytes t key awaiting transcript pending matched =>
    exact ⟨rfl, fun _ h => h, fun _ h => h, fun e mem => List.mem_append_left _ mem⟩
  | abort => exact ⟨rfl, fun _ h => h, fun _ h => h, fun e mem => List.mem_append_left _ mem⟩

theorem InviterSession.Sound.step {σ : Setup C Id I S} {i : I} {a a' : InviterSession C}
    {c : InviterCall} (sound : InviterSession.Sound σ i a) (step : InviterStep a c a') :
    InviterSession.Sound σ i a' := by
  have grown := sound.extends step
  cases step with
  | failed c => exact sound
  | accept bytes response esk awaiting secret decoded =>
    obtain ⟨-, empty⟩ := sound.fresh awaiting
    have key : deriveChainKey C (transcriptHash C a.machine.invite response)
        (C.diffieHellman esk response.ephemeralX25519Pk) = σ.baseKey i response := by
      rw [Setup.baseKey, sound.invite, sound.secret esk secret]
    rw [empty, List.nil_append, key]
    refine
      { invite := sound.invite
        secret := sound.secret
        transcript := by rw [sound.invite]; rfl
        fresh := by simp
        accepted := ?_
        pending := ?_
        unconfirmed := ?_
        confirmed := ?_
        confirmedOnce := ?_
        acked := ?_
        unended := ?_
        sealedOnce := List.pairwise_singleton _ _ }
    · intro base mem
      rw [List.mem_singleton, InviterEvent.accepted.injEq] at mem
      rw [mem, Option.map_some]
    · intro base some
      rw [Option.some.injEq] at some
      rw [← some]
      exact ⟨fun _ => List.mem_singleton.mpr rfl, by simp⟩
    · intro _ f mem
      cases List.mem_singleton.mp mem
    · intro f mem
      cases List.mem_singleton.mp mem
    · intro f g mem
      cases List.mem_singleton.mp mem
    · intro key mem
      cases List.mem_singleton.mp mem
    · intro _ e mem
      rw [List.mem_singleton.mp mem]
      rfl
  | confirm t key awaiting transcript pending =>
    have held := (sound.pending key pending).1 awaiting
    have unended := sound.unended (.inl awaiting)
    refine
      { invite := sound.invite
        secret := by simp
        transcript := sound.transcript
        fresh := by simp
        accepted := ?_
        pending := by simp
        unconfirmed := by simp
        confirmed := fun f _ => ⟨key, grown.events _ held⟩
        confirmedOnce := ?_
        acked := ?_
        unended := ?_
        sealedOnce := ?_ }
    · intro base mem
      simp only [List.mem_append, List.mem_cons, List.not_mem_nil, or_false, reduceCtorEq] at mem
      exact sound.accepted base mem
    · have only (f : Option (Octets 32))
          (mem : .confirmed f ∈ a.events ++ [.confirmed none, .released key]) : f = none := by
        simp only [List.mem_append, List.mem_cons, List.not_mem_nil, or_false, reduceCtorEq,
          InviterEvent.confirmed.injEq, sound.unconfirmed awaiting f, false_or] at mem
        exact mem
      intro f g first second
      rw [only f first, only g second]
    · intro k mem
      simp only [List.mem_append, List.mem_cons, List.not_mem_nil, or_false, reduceCtorEq] at mem
      exact (sound.acked k mem).mono grown.events
    · rintro (done | done) <;> cases done
    · have confirmed : SealedOnce InviterEvent.releases InviterEvent.ends
          (a.events ++ [.confirmed none]) := sound.sealedOnce.quiet rfl
      have released := confirmed.last (e := .released key) fun e mem => by
        rw [List.mem_append, List.mem_singleton] at mem
        rcases mem with before | rfl
        · exact unended e before
        · rfl
      rwa [List.append_assoc] at released
  | mix factor2Key t base awaiting transcript pending =>
    have held := (sound.pending base pending).1 awaiting
    have mixed : InviterSession.Mixed
        ⟨{ a.machine with
            pendingChainKey := some (mixFactor2Recip C base factor2Key)
            state := .awaitingFactor2Ack
            ephemeralSecret := none }, a.events ++ [.confirmed (some factor2Key)]⟩
        (mixFactor2Recip C base factor2Key) :=
      ⟨base, factor2Key, grown.events _ held, by simp, rfl⟩
    refine
      { invite := sound.invite
        secret := by simp
        transcript := sound.transcript
        fresh := by simp
        accepted := ?_
        pending := ?_
        unconfirmed := by simp
        confirmed := fun f _ => ⟨base, grown.events _ held⟩
        confirmedOnce := ?_
        acked := ?_
        unended := ?_
        sealedOnce := sound.sealedOnce.quiet rfl }
    · intro k mem
      simp only [List.mem_append, List.mem_singleton, or_false, reduceCtorEq] at mem
      exact sound.accepted k mem
    · intro k some
      rw [Option.some.injEq] at some
      rw [← some]
      exact ⟨by simp, fun _ => mixed⟩
    · have only (f : Option (Octets 32))
          (mem : .confirmed f ∈ a.events ++ [.confirmed (some factor2Key)]) :
          f = some factor2Key := by
        simp only [List.mem_append, List.mem_singleton, InviterEvent.confirmed.injEq,
          sound.unconfirmed awaiting f, false_or] at mem
        exact mem
      intro f g first second
      rw [only f first, only g second]
    · intro k mem
      simp only [List.mem_append, List.mem_singleton, or_false, reduceCtorEq] at mem
      exact (sound.acked k mem).mono grown.events
    · intro _ e mem
      rw [List.mem_append, List.mem_singleton] at mem
      rcases mem with before | rfl
      · exact sound.unended (.inl awaiting) e before
      · rfl
  | ack bytes t key awaiting transcript pending matched =>
    have held := (sound.pending key pending).2 awaiting
    refine
      { invite := sound.invite
        secret := sound.secret
        transcript := sound.transcript
        fresh := by simp
        accepted := ?_
        pending := by simp
        unconfirmed := by simp
        confirmed := ?_
        confirmedOnce := ?_
        acked := ?_
        unended := ?_
        sealedOnce := sound.sealedOnce.last (sound.unended (.inr awaiting)) }
    · intro k mem
      simp only [List.mem_append, List.mem_singleton, or_false, reduceCtorEq] at mem
      exact sound.accepted k mem
    · intro f mem
      simp only [List.mem_append, List.mem_singleton, or_false, reduceCtorEq] at mem
      obtain ⟨base, accepted⟩ := sound.confirmed f mem
      exact ⟨base, grown.events _ accepted⟩
    · intro f g first second
      simp only [List.mem_append, List.mem_singleton, or_false, reduceCtorEq] at first second
      exact sound.confirmedOnce f g first second
    · intro k mem
      simp only [List.mem_append, List.mem_singleton, InviterEvent.acked.injEq] at mem
      rcases mem with before | rfl
      · exact (sound.acked k before).mono grown.events
      · exact held.mono grown.events
    · rintro (done | done) <;> cases done
  | abort =>
    refine
      { invite := sound.invite
        secret := by simp [Inviter.abort]
        transcript := sound.transcript
        fresh := by simp [Inviter.abort]
        accepted := ?_
        pending := by simp [Inviter.abort]
        unconfirmed := by simp [Inviter.abort]
        confirmed := ?_
        confirmedOnce := ?_
        acked := ?_
        unended := ?_
        sealedOnce := sound.sealedOnce.quiet rfl }
    · intro k mem
      simp only [List.mem_append, List.mem_singleton, or_false, reduceCtorEq] at mem
      exact sound.accepted k mem
    · intro f mem
      simp only [List.mem_append, List.mem_singleton, or_false, reduceCtorEq] at mem
      obtain ⟨base, accepted⟩ := sound.confirmed f mem
      exact ⟨base, grown.events _ accepted⟩
    · intro f g first second
      simp only [List.mem_append, List.mem_singleton, or_false, reduceCtorEq] at first second
      exact sound.confirmedOnce f g first second
    · intro k mem
      simp only [List.mem_append, List.mem_singleton, or_false, reduceCtorEq] at mem
      exact (sound.acked k mem).mono grown.events
    · rintro (done | done) <;> cases done

end Inviter

/-! ## Scanner sessions -/

section Scanner

variable {C : Crypto} {Id I S : Type}

/-- A scanner session: its fields, and the events they stand for. -/
structure ScannerSession.Sound (σ : Setup C Id I S) (s : S) (b : ScannerSession C) : Prop where
  response : b.machine.response = Scanner.respond (σ.signingKey (σ.scannerId s))
    (σ.scannerSecret s) (σ.scannerNonce s) b.machine.invite
  transcript : b.machine.transcript = transcriptHash C b.machine.invite b.machine.response
  fits : b.machine.invite.encode.length ≤ inviteMaxBytes
  scanned : ∀ base, .scanned base ∈ b.events ↔ base = deriveChainKey C b.machine.transcript
    (C.diffieHellman (σ.scannerSecret s) b.machine.invite.ephemeralX25519Pk)
  pending : ∀ key, b.machine.pendingChainKey = some key → .scanned key ∈ b.events
  released : ∀ f key, .released f key ∈ b.events →
    ∃ base, .scanned base ∈ b.events ∧ key = releasedKey C base f
  unended : b.machine.state = .awaitingConfirm → ∀ e ∈ b.events, e.ends = false
  sealedOnce : SealedOnce ScannerEvent.releases ScannerEvent.ends b.events

theorem ScannerSession.Sound.initial {σ : Setup C Id I S} {s : S} {b : ScannerSession C}
    {inviteBytes : Bytes} {nowUnix : UInt64} (started : σ.scanned s inviteBytes nowUnix = some b) :
    ScannerSession.Sound σ s b := by
  unfold Setup.scanned at started
  split at started
  · cases started
  · next m reply ok =>
    obtain ⟨invite, raw, -, rfl, -⟩ := Scanner.scan_eq_ok ok
    rw [Option.some.injEq] at started
    subst started
    obtain ⟨same, fits⟩ := Invite.decodeRaw_eq_ok raw
    rw [same] at fits
    refine
      { response := rfl
        transcript := rfl
        fits := fits
        scanned := ?_
        pending := ?_
        released := ?_
        unended := ?_
        sealedOnce := List.pairwise_singleton _ _ }
    · intro base
      exact List.mem_singleton.trans (iff_of_eq (ScannerEvent.scanned.injEq _ _))
    · intro key some
      exact List.mem_singleton.mpr (congrArg _ (Option.some.inj some).symm)
    · intro f key mem
      exact nomatch List.mem_singleton.mp mem
    · intro _ e mem
      rw [List.mem_singleton.mp mem]
      rfl

/-- No call changes what a session scanned or takes back what it did. -/
structure ScannerSession.Extends (b b' : ScannerSession C) : Prop where
  invite : b'.machine.invite = b.machine.invite
  response : b'.machine.response = b.machine.response
  transcript : b'.machine.transcript = b.machine.transcript
  events : ∀ e ∈ b.events, e ∈ b'.events

theorem ScannerStep.extends {b b' : ScannerSession C} {c : ScannerCall} (step : ScannerStep b c b') :
    ScannerSession.Extends b b' := by
  cases step with
  | failed c => exact ⟨rfl, rfl, rfl, fun _ mem => mem⟩
  | release c conf base factor2 awaiting pending decoded notAbort =>
    exact ⟨rfl, rfl, rfl, fun e mem => List.mem_append_left _ mem⟩
  | abort => exact ⟨rfl, rfl, rfl, fun e mem => List.mem_append_left _ mem⟩

theorem ScannerSession.Sound.step {σ : Setup C Id I S} {s : S} {b b' : ScannerSession C}
    {c : ScannerCall} (sound : ScannerSession.Sound σ s b) (step : ScannerStep b c b') :
    ScannerSession.Sound σ s b' := by
  have grown := step.extends
  cases step with
  | failed c => exact sound
  | release c conf base factor2 awaiting pending decoded notAbort =>
    have held := sound.pending base pending
    refine
      { response := sound.response
        transcript := sound.transcript
        fits := sound.fits
        scanned := ?_
        pending := nofun
        released := ?_
        unended := nofun
        sealedOnce := sound.sealedOnce.last (sound.unended awaiting) }
    · intro k
      simp only [List.mem_append, List.mem_singleton, or_false, reduceCtorEq]
      exact sound.scanned k
    · intro f key mem
      simp only [List.mem_append, List.mem_singleton, ScannerEvent.released.injEq] at mem
      rcases mem with before | ⟨rfl, rfl⟩
      · obtain ⟨k, scanned, mixed⟩ := sound.released f key before
        exact ⟨k, grown.events _ scanned, mixed⟩
      · exact ⟨base, grown.events _ held, rfl⟩
  | abort =>
    refine
      { response := sound.response
        transcript := sound.transcript
        fits := sound.fits
        scanned := ?_
        pending := nofun
        released := ?_
        unended := nofun
        sealedOnce := sound.sealedOnce.quiet rfl }
    · intro k
      simp only [List.mem_append, List.mem_singleton, or_false, reduceCtorEq]
      exact sound.scanned k
    · intro f key mem
      simp only [List.mem_append, List.mem_singleton, or_false, reduceCtorEq] at mem
      obtain ⟨k, scanned, mixed⟩ := sound.released f key mem
      exact ⟨k, grown.events _ scanned, mixed⟩

end Scanner

end OneLink.PairQr
