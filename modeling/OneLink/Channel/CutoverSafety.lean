/-
# Channel.CutoverSafety — the two modes never mix

`Direction` is what holds between a sender, its wire and its receiver.  Every step
keeps it in both directions as long as `recv` is not entered on its legacy path once
it has returned the peer's CAPS.  The run at the end does enter it there: the suspended
receive then decrypts a ratchet frame under the legacy key.
-/
import OneLink.Channel.Tasks

namespace OneLink.Channel

open Library
open OneLink.DoubleRatchet (Party)

set_option autoImplicit false

namespace Endpoint

variable {cfg : Config}

/-! ## Between two endpoints -/

/-- The frames from `s` to `r`, and the one commit among them. -/
structure Direction (cfg : Config) (s r : Endpoint) (w : List Frame) : Prop where
  wire : Wire cfg.isCaps s.txSeq r.rxSeq (s.capsWritten cfg) r.capsTaken w
  controls : ∀ frame ∈ w, frame.isControl → s.drState.isSome ∧ s.role = .alice ∧
    cfg.cutoverCap ∧ ∃ payload, s.cutoverCommitPayload cfg = some payload ∧ frame = .ratchet payload
  once : w.countP Frame.isControl + r.commitReceived.toNat ≤ s.commitWritten.toNat

namespace Direction

variable {s s' r r' : Endpoint} {w : List Frame}

theorem sender (d : Direction cfg s r w) (role : s'.role = s.role) (txSeq : s'.txSeq = s.txSeq)
    (capsWritten : s'.capsWritten cfg = s.capsWritten cfg)
    (commitWritten : s'.commitWritten = s.commitWritten)
    (active : s.drState.isSome → s'.drState.isSome ∧
      s'.cutoverCommitPayload cfg = s.cutoverCommitPayload cfg) : Direction cfg s' r w where
  wire := by rw [txSeq, capsWritten]; exact d.wire
  controls frame mem control := by
    obtain ⟨old, alice, capable, payload, made, same⟩ := d.controls frame mem control
    obtain ⟨still, payloadEq⟩ := active old
    exact ⟨still, role.trans alice, capable, payload, payloadEq.trans made, same⟩
  once := by rw [commitWritten]; exact d.once

theorem receiver (d : Direction cfg s r w) (rxSeq : r'.rxSeq = r.rxSeq)
    (capsTaken : r'.capsTaken = r.capsTaken)
    (commitReceived : r'.commitReceived = r.commitReceived) : Direction cfg s r' w where
  wire := by rw [rxSeq, capsTaken]; exact d.wire
  controls := d.controls
  once := by rw [commitReceived]; exact d.once

theorem quietSender (d : Direction cfg s r w) (quiet : Quiet cfg s s') : Direction cfg s' r w :=
  d.sender quiet.role quiet.txSeq quiet.capsWritten quiet.commitWritten quiet.active

theorem quietReceiver (d : Direction cfg s r w) (quiet : Quiet cfg r r') : Direction cfg s r' w :=
  d.receiver quiet.rxSeq quiet.capsTaken quiet.commitReceived

theorem countP_append_single (w : List Frame) (frame : Frame) :
    (w ++ [frame]).countP Frame.isControl =
      w.countP Frame.isControl + frame.isControl.toNat := by
  rw [List.countP_append, List.countP_singleton]
  cases frame.isControl <;> rfl

theorem writeLegacy (d : Direction cfg s r w) {plaintext : Bytes}
    (writes : WritesLegacy cfg s s' plaintext) :
    Direction cfg s' r (w ++ [.legacy s.txSeq plaintext]) where
  wire := by
    have before := d.wire
    rw [writes.unwritten] at before
    rw [writes.txSeq, writes.capsWritten]
    exact before.writeLegacy plaintext
  controls frame mem control := by
    obtain old | rfl := (List.mem_append.mp mem).imp_right List.mem_singleton.mp
    · exact absurd (d.controls frame old control).1 (by simp [writes.inactive])
    · cases control
  once := by
    rw [countP_append_single, writes.commitWritten]
    exact d.once

theorem writeRatchet (d : Direction cfg s r w) (sound : s.Sound cfg) {plaintext : Bytes}
    (writes : WritesRatchet cfg s s' plaintext) :
    Direction cfg s' r (w ++ [.ratchet plaintext]) where
  wire := by
    have written : s.capsWritten cfg = true := by
      rw [Endpoint.capsWritten, capsSent_of_active sound writes.active, Bool.true_or]
    have before := d.wire
    rw [written] at before
    rw [writes.txSeq, writes.capsWritten, written]
    exact before.writeRatchet plaintext
  controls frame mem control := by
    rw [writes.role, writes.payload]
    obtain old | rfl := (List.mem_append.mp mem).imp_right List.mem_singleton.mp
    · exact ⟨writes.active', (d.controls frame old control).2⟩
    · obtain ⟨plain, -⟩ | ⟨owes, made, -, -⟩ := writes.kind
      · exact absurd control (by simp [Frame.isControl, plain])
      · exact ⟨writes.active', owes.2.1, owes.2.2.1, plaintext, made, rfl⟩
  once := by
    have once := d.once
    rw [countP_append_single]
    obtain ⟨plain, same⟩ | ⟨-, made, unwritten, written⟩ := writes.kind
    · rw [same]
      simpa [Frame.isControl, plain] using once
    · rw [unwritten] at once
      rw [written]
      simp only [Frame.isControl, isPrefixOf_payload made, Bool.toNat_true, Bool.toNat_false]
        at once ⊢
      omega

theorem readLegacy {frame : Frame} {rest : List Frame} (d : Direction cfg s r (frame :: rest))
    (untaken : r.capsTaken = false) :
    ∃ plaintext, frame = .legacy r.rxSeq plaintext ∧
      Direction cfg s (r.recvLegacy cfg (.legacy r.rxSeq plaintext)) rest := by
  have before := d.wire
  rw [untaken] at before
  obtain ⟨plaintext, rfl, after⟩ := before.readLegacy rfl
  refine ⟨plaintext, rfl, ?_⟩
  rw [recvLegacy, if_pos rfl]
  constructor
  · simpa [untaken] using after
  · exact fun frame mem control => d.controls frame (List.mem_cons_of_mem _ mem) control
  · simpa [List.countP_cons, Frame.isControl] using d.once

theorem readRatchet {frame : Frame} {rest : List Frame} (d : Direction cfg s r (frame :: rest))
    (taken : r.capsTaken = true) :
    ∃ plaintext, frame = .ratchet plaintext ∧
      ∀ r', ReadsRatchet cfg r r' plaintext → Direction cfg s r' rest := by
  have before := d.wire
  rw [taken] at before
  obtain ⟨⟨plaintext, rfl⟩, after⟩ := before.readRatchet rfl
  refine ⟨plaintext, rfl, fun r' reads => ?_⟩
  constructor
  · have rxSeq : r'.rxSeq = r.rxSeq := reads.quiet.rxSeq
    have capsTaken : r'.capsTaken = r.capsTaken := reads.quiet.capsTaken
    rw [rxSeq, capsTaken, taken]
    exact after
  · exact fun frame mem control => d.controls frame (List.mem_cons_of_mem _ mem) control
  · have once := d.once
    rw [List.countP_cons] at once
    have fits : r'.commitReceived.toNat ≤
        r.commitReceived.toNat + if (Frame.ratchet plaintext).isControl then 1 else 0 := by
      obtain same | isCommit := reads.commitReceived
      · rw [same]
        exact Nat.le_add_right ..
      · rw [Frame.isControl, if_pos isCommit]
        exact (Bool.toNat_le _).trans (Nat.le_add_left ..)
    omega

/-- A commit that reaches an active responder is accepted: both boundaries are frozen
where the two CAPS were taken. -/
theorem acceptCommit_ok {plaintext : Bytes} {rest back : List Frame}
    (d : Direction cfg s r (.ratchet plaintext :: rest)) (reverse : Direction cfg r s back)
    (soundSender : s.Sound cfg) (sound : r.Sound cfg) (active : r.drState.isSome)
    (bob : s.role = .alice → r.role = .bob)
    (isCommit : commitPrefix.isPrefixOf plaintext = true) :
    acceptCommit cfg { r with drState := some ⟨true⟩ } plaintext = .ok () := by
  obtain ⟨activeSender, alice, capable, payload, made, same⟩ :=
    d.controls _ List.mem_cons_self isCommit
  cases same
  have control : (Frame.ratchet plaintext).isControl = true := isCommit
  have peerCapable : r.peerDrCutoverCapable = true := by
    rw [sound.peerCutover, (sound.active active).2.1, capable, Bool.and_self]
  have fresh : r.commitReceived = false := by
    have once := d.once
    rw [List.countP_cons, if_pos control] at once
    have most := Bool.toNat_le s.commitWritten
    cases received : r.commitReceived with
    | false => rfl
    | true =>
      rw [received, Bool.toNat_true] at once
      omega
  have sentAgrees : s.txSeq = r.rxSeq := by
    have wire := d.wire
    rw [taken_of_active sound active] at wire
    exact wire.counts_of_taken
  have receivedAgrees : r.txSeq = s.rxSeq := by
    have wire := reverse.wire
    rw [taken_of_active soundSender activeSender] at wire
    exact wire.counts_of_taken
  have valid : validateCutoverCommit cfg { r with drState := some ⟨true⟩ } plaintext = .ok () := by
    apply validate_payload made
    · rw [(sound.active active).2.2, soundSender.txFinal (capsSent_of_active soundSender
        activeSender), sentAgrees]
    · rw [sound.txFinal (capsSent_of_active sound active), (soundSender.active
        activeSender).2.2, receivedAgrees]
  rw [acceptCommit, if_neg (by simp [peerCapable, bob alice]), if_neg (by simp [fresh]), valid]

end Direction

/-- Decoded in the mode it was sent in, and no commit refused. -/
def Event.Clean : Event → Prop
  | .decoded _ sent used => sent = used
  | .commitRejected .. => False

end Endpoint

/-! ## The channel -/

namespace Link

open Endpoint

variable (cfg : Config)

structure Sound (x : Link) : Prop where
  role : ∀ who, (x.endpoint who).role = who
  endpoint : ∀ who, (x.endpoint who).Sound cfg
  direction : ∀ who, Direction cfg (x.endpoint who) (x.endpoint who.peer) (x.wire who)
  log : ∀ event ∈ x.log, event.Clean

/-- The condition on a run: no call of `recv` takes the legacy path after the peer's
CAPS. -/
def RecvInTime (x : Link) : Action → Prop
  | .beginRecv who => (x.endpoint who).RecvInTime
  | _ => True

instance (x : Link) : (action : Action) → Decidable (x.RecvInTime action)
  | .beginRecv who => inferInstanceAs (Decidable (x.endpoint who).RecvInTime)
  | .beginSend .. | .beginCommit _ | .resumeSend _ | .noteCapsReceived _
  | .maybeActivateRatchet _ | .readFrame .. | .close _ => .isTrue trivial

variable {cfg}

theorem sound_start : (start).Sound cfg where
  role _ := rfl
  endpoint who := by
    constructor <;> simp [start]
  direction who := by
    have before : Wire cfg.isCaps 0 0 false false (legacyRun 0 []) := .before rfl (by simp)
    exact ⟨before, by simp [start], by simp [start]⟩
  log := by simp [start]

/-- A step keeps the invariant and the counters of an active endpoint. -/
structure Advances (cfg : Config) (x y : Link) : Prop where
  sound : y.Sound cfg
  frozen : ∀ who, Frozen (x.endpoint who) (y.endpoint who)

theorem Advances.refl {x : Link} (sound : x.Sound cfg) : Advances cfg x x :=
  ⟨sound, fun _ active => ⟨rfl, rfl, active⟩⟩

/-- The invariant from the acting side and its peer. -/
theorem Sound.of_sides {x y : Link} (sound : x.Sound cfg) (who : Party)
    (peer : y.endpoint who.peer = x.endpoint who.peer)
    (role : (y.endpoint who).role = who) (own : (y.endpoint who).Sound cfg)
    (out : Direction cfg (y.endpoint who) (x.endpoint who.peer) (y.wire who))
    (back : Direction cfg (x.endpoint who.peer) (y.endpoint who) (y.wire who.peer))
    (log : ∀ event ∈ y.log, event.Clean) : y.Sound cfg where
  role p := by
    obtain rfl | rfl := Party.eq_or_eq_peer who p
    · exact role
    · rw [peer]
      exact sound.role _
  endpoint p := by
    obtain rfl | rfl := Party.eq_or_eq_peer who p
    · exact own
    · rw [peer]
      exact sound.endpoint _
  direction p := by
    obtain rfl | rfl := Party.eq_or_eq_peer who p
    · rw [peer]
      exact out
    · rw [peer, Party.peer_peer]
      exact back
  log := log

theorem Sound.advances {x y : Link} (sound : y.Sound cfg) (who : Party)
    (peer : y.endpoint who.peer = x.endpoint who.peer)
    (frozen : Frozen (x.endpoint who) (y.endpoint who)) : Advances cfg x y := by
  refine ⟨sound, fun p => ?_⟩
  obtain rfl | rfl := Party.eq_or_eq_peer who p
  · exact frozen
  · rw [peer]
    exact fun active => ⟨rfl, rfl, active⟩

theorem Sound.back {x : Link} (sound : x.Sound cfg) (who : Party) :
    Direction cfg (x.endpoint who.peer) (x.endpoint who) (x.wire who.peer) := by
  have back := sound.direction who.peer
  rwa [Party.peer_peer] at back

theorem Sound.put {x : Link} (sound : x.Sound cfg) {who : Party} {e : Endpoint}
    (own : e.Sound cfg) (quiet : Quiet cfg (x.endpoint who) e) :
    Advances cfg x (x.put who e) := by
  have acting : (x.put who e).endpoint who = e := Function.update_self ..
  have peer : (x.put who e).endpoint who.peer = x.endpoint who.peer :=
    Function.update_of_ne (Party.peer_ne who) ..
  refine (sound.of_sides who peer ?_ ?_ ?_ ?_ sound.log).advances who peer
    (by rw [acting]; exact quiet.frozen)
  · rw [acting, quiet.role]
    exact sound.role who
  · rwa [acting]
  · rw [acting]
    exact (sound.direction who).quietSender quiet
  · rw [acting]
    exact (sound.back who).quietReceiver quiet

theorem resumeSend_advances {x : Link} (sound : x.Sound cfg) (who : Party) :
    Advances cfg x (x.step cfg (.resumeSend who)) := by
  obtain ⟨own, resumes⟩ := resumeSend_cases (sound.endpoint who)
  simp only [step]
  generalize (x.endpoint who).resumeSend cfg = result at own resumes ⊢
  obtain ⟨e, frames⟩ := result
  have acting : ({ x.put who e with
      wire := Function.update x.wire who (x.wire who ++ frames) } : Link).endpoint who = e :=
    Function.update_self ..
  have peer : ({ x.put who e with
      wire := Function.update x.wire who (x.wire who ++ frames) } : Link).endpoint who.peer =
        x.endpoint who.peer :=
    Function.update_of_ne (Party.peer_ne who) ..
  refine (sound.of_sides who peer ?_ ?_ ?_ ?_ sound.log).advances who peer
    (by rw [acting]; exact resumes.frozen)
  all_goals rw [acting]
  · cases resumes with
    | quiet quiet => rw [quiet.role, sound.role]
    | legacy writes => rw [writes.role, sound.role]
    | ratchet writes => rw [writes.role, sound.role]
  · exact own
  · simp only [Function.update_self]
    cases resumes with
    | quiet quiet =>
      rw [List.append_nil]
      exact (sound.direction who).quietSender quiet
    | legacy writes => exact (sound.direction who).writeLegacy writes
    | ratchet writes => exact (sound.direction who).writeRatchet (sound.endpoint who) writes
  · simp only [Function.update_of_ne (Party.peer_ne who)]
    cases resumes with
    | quiet quiet => exact (sound.back who).quietReceiver quiet
    | legacy writes =>
      exact (sound.back who).receiver writes.rxSeq writes.capsTaken writes.commitReceived
    | ratchet writes =>
      exact (sound.back who).receiver writes.rxSeq writes.capsTaken writes.commitReceived

/-- A frame is decoded in the mode it was sent in, and its reader stays sound. -/
theorem readFrame_advances {x : Link} (sound : x.Sound cfg) (who : Party) (opens : Bool) :
    Advances cfg x (x.step cfg (.readFrame who opens)) := by
  simp only [step]
  split
  · next path frame rest suspended front =>
      have own := sound.endpoint who
      have back := sound.back who
      rw [front] at back
      cases path with
      | legacy =>
        have untaken := own.legacyRecv suspended
        have inactive := inactive_of_untaken own untaken
        obtain ⟨plaintext, rfl, after⟩ := back.readLegacy untaken
        have result := recvLegacy_sound own untaken plaintext
        have read :
            (x.endpoint who).readFrame cfg opens (.legacy (x.endpoint who).rxSeq plaintext) =
            ((x.endpoint who).recvLegacy cfg (.legacy (x.endpoint who).rxSeq plaintext),
              [.decoded (x.endpoint who).role .legacy .legacy]) := by
          simp only [readFrame, suspended, Frame.mode]
        rw [read]
        refine (sound.of_sides who (Function.update_of_ne (Party.peer_ne who) ..)
          ?_ ?_ ?_ ?_ ?_).advances who (Function.update_of_ne (Party.peer_ne who) ..) ?_
        all_goals simp only [Function.update_self]
        · simp only [recvLegacy, if_true, sound.role]
        · exact result
        · rw [Function.update_of_ne (Party.peer_ne who).symm]
          rw [recvLegacy, if_pos rfl]
          exact (sound.direction who).sender rfl rfl rfl rfl
            fun active => absurd active (by simp [inactive])
        · exact after
        · intro event mem
          obtain old | rfl := (List.mem_append.mp mem).imp_right List.mem_singleton.mp
          · exact sound.log event old
          · exact rfl
        · exact fun active => absurd active (by simp [inactive])
      | ratchet =>
        have active := own.ratchetRecv suspended
        obtain ⟨plaintext, rfl, after⟩ := back.readRatchet (taken_of_active own active)
        have bob : (x.endpoint who.peer).role = .alice → (x.endpoint who).role = .bob := by
          rw [sound.role, sound.role]
          cases who <;> simp [Party.peer]
        obtain ⟨reads, quiet⟩ := recvRatchet_reads own active opens fun isCommit =>
          back.acceptCommit_ok (sound.direction who) (sound.endpoint who.peer) own active bob
            isCommit
        simp only [readFrame, suspended, Frame.mode]
        generalize (x.endpoint who).recvRatchet cfg opens (.ratchet plaintext) = result
          at reads quiet
        obtain ⟨e, events⟩ := result
        simp only at quiet
        subst quiet
        refine (sound.of_sides who (Function.update_of_ne (Party.peer_ne who) ..)
          ?_ ?_ ?_ ?_ ?_).advances who (Function.update_of_ne (Party.peer_ne who) ..) ?_
        all_goals simp only [Function.update_self]
        · exact reads.quiet.role.trans (sound.role who)
        · exact reads.sound
        · rw [Function.update_of_ne (Party.peer_ne who).symm]
          exact (sound.direction who).sender reads.quiet.role reads.quiet.txSeq
            reads.quiet.capsWritten reads.quiet.commitWritten reads.quiet.active
        · exact after e reads
        · intro event mem
          obtain old | rfl := (List.mem_append.mp mem).imp_right List.mem_singleton.mp
          · exact sound.log event old
          · exact rfl
        · exact reads.quiet.frozen
  · exact .refl sound

theorem step_advances {x : Link} {action : Action} (sound : x.Sound cfg)
    (inTime : x.RecvInTime action) : Advances cfg x (x.step cfg action) := by
  cases action with
  | beginSend who message =>
    simp only [step]
    split
    · next free =>
        have enters := beginSend_enters (sound.endpoint who) message
        have leaves : Enters cfg (x.endpoint who) (x.endpoint who).sending := by
          rw [free]
          exact enters_none
        exact sound.put ((sound.endpoint who).enter enters) (.enter enters leaves)
    · exact .refl sound
  | beginCommit who =>
    simp only [step]
    split
    · next free =>
        have enters := beginCommit_enters (sound.endpoint who)
        have leaves : Enters cfg (x.endpoint who) (x.endpoint who).sending := by
          rw [free]
          exact enters_none
        exact sound.put ((sound.endpoint who).enter enters) (.enter enters leaves)
    · exact .refl sound
  | resumeSend who => exact resumeSend_advances sound who
  | noteCapsReceived who =>
    simp only [step]
    split
    · next taken =>
        obtain ⟨own, quiet⟩ := noteCapsReceived_quiet (sound.endpoint who) taken
        exact sound.put own quiet
    · exact .refl sound
  | maybeActivateRatchet who =>
    obtain ⟨own, quiet⟩ := maybeActivateRatchet_quiet (sound.endpoint who)
    exact sound.put own quiet
  | beginRecv who =>
    simp only [step]
    split
    · obtain ⟨own, quiet⟩ := beginRecv_quiet (sound.endpoint who) inTime
      exact sound.put own quiet
    · exact .refl sound
  | readFrame who opens => exact readFrame_advances sound who opens
  | close who =>
    obtain ⟨own, quiet⟩ := close_quiet (sound.endpoint who)
    exact sound.put own quiet

/-- An active endpoint's counters over the rest of a run. -/
theorem run_frozen {x : Link} {actions : List Action} (sound : x.Sound cfg)
    (inTime : EachStep (step cfg) RecvInTime x actions) (who : Party) :
    Frozen (x.endpoint who) ((run (step cfg) x actions).endpoint who) := by
  induction actions generalizing x with
  | nil => exact fun active => ⟨rfl, rfl, active⟩
  | cons action rest ih =>
    intro active
    have first := step_advances sound inTime.1
    obtain ⟨txSeq, rxSeq, still⟩ := first.frozen who active
    obtain ⟨txLater, rxLater, after⟩ := ih first.sound inTime.2 still
    exact ⟨txLater.trans txSeq, rxLater.trans rxSeq, after⟩

theorem run_sound {actions : List Action}
    (inTime : EachStep (step cfg) RecvInTime start actions) :
    (run (step cfg) start actions).Sound cfg := by
  apply run_invariant (fun x action sound inTime => ?_) sound_start inTime
  exact (step_advances sound inTime).sound

/-- Two active endpoints froze the same boundaries. -/
theorem Sound.boundaries {x : Link} (sound : x.Sound cfg) {who : Party}
    (active : (x.endpoint who).drState.isSome) (activePeer : (x.endpoint who.peer).drState.isSome) :
    (x.endpoint who).legacyTxFinalSeq = (x.endpoint who.peer).legacyRxFinalSeq := by
  have own := sound.endpoint who
  have peer := sound.endpoint who.peer
  have wire := (sound.direction who).wire
  rw [taken_of_active peer activePeer] at wire
  rw [own.txFinal (capsSent_of_active own active), (peer.active activePeer).2.2,
    wire.counts_of_taken]

end Link

/-- In every run that enters `recv` in time, each frame is decoded in the mode it was
sent in and no commit is refused; active endpoints froze the same boundaries, and from
its activation on an endpoint neither sends nor accepts a legacy frame. -/
theorem cutover_never_mixes (cfg : Config) (actions : List Action)
    (inTime : EachStep (Link.step cfg) Link.RecvInTime .start actions) :
    (∀ event ∈ (run (Link.step cfg) .start actions).log, event.Clean) ∧
    (∀ who, ((run (Link.step cfg) .start actions).endpoint who).drState.isSome →
      ((run (Link.step cfg) .start actions).endpoint who.peer).drState.isSome →
      ((run (Link.step cfg) .start actions).endpoint who).legacyTxFinalSeq =
        ((run (Link.step cfg) .start actions).endpoint who.peer).legacyRxFinalSeq) ∧
    ∀ early late, actions = early ++ late →
      (∀ who, ((run (Link.step cfg) .start early).endpoint who).commitSent ∨
          ((run (Link.step cfg) .start early).endpoint who).commitReceived →
        ((run (Link.step cfg) .start early).endpoint who).drState.isSome) ∧
      ∀ who, ((run (Link.step cfg) .start early).endpoint who).drState.isSome →
        ((run (Link.step cfg) .start actions).endpoint who).txSeq =
            ((run (Link.step cfg) .start early).endpoint who).txSeq ∧
          ((run (Link.step cfg) .start actions).endpoint who).rxSeq =
            ((run (Link.step cfg) .start early).endpoint who).rxSeq := by
  have sound := Link.run_sound inTime
  refine ⟨sound.log, fun who active activePeer => sound.boundaries active activePeer, ?_⟩
  rintro early late rfl
  obtain ⟨inTimeEarly, inTimeLate⟩ := eachStep_append.mp inTime
  have soundEarly := Link.run_sound inTimeEarly
  refine ⟨fun who committed => ?_, fun who active => ?_⟩
  · obtain sent | received := committed
    · exact ((soundEarly.endpoint who).commitSent sent).1
    · exact (soundEarly.endpoint who).commitReceived received
  · rw [run_append]
    obtain ⟨txSeq, rxSeq, -⟩ := Link.run_frozen soundEarly inTimeLate who active
    exact ⟨txSeq, rxSeq⟩

/-! ## Two runs -/

def sampleConfig : Config where
  transcriptHash := List.replicate 32 7
  transcript_length := List.length_replicate
  cutoverCap := true
  isCaps := fun plaintext => plaintext = [1]

def sampleCaps : Message := ⟨[1], by decide⟩

def sampleText : Message := ⟨[2], by decide⟩

/-- Both send CAPS before they receive, and talk. -/
def orderlyCutover : List Action :=
  [.beginSend .alice sampleCaps, .resumeSend .alice, .resumeSend .alice, .beginRecv .alice,
    .beginSend .bob sampleCaps, .resumeSend .bob, .resumeSend .bob, .beginRecv .bob,
    .readFrame .bob true, .noteCapsReceived .bob, .maybeActivateRatchet .bob, .beginRecv .bob,
    .readFrame .alice true, .noteCapsReceived .alice, .maybeActivateRatchet .alice,
    .beginRecv .alice, .beginSend .bob sampleText, .beginSend .alice sampleText,
    .resumeSend .alice, .resumeSend .alice, .readFrame .bob true, .resumeSend .bob,
    .resumeSend .bob, .readFrame .alice true]

theorem orderlyCutover_clean :
    EachStep (Link.step sampleConfig) Link.RecvInTime .start orderlyCutover ∧
      (run (Link.step sampleConfig) .start orderlyCutover).log.length = 4 ∧
      ∀ event ∈ (run (Link.step sampleConfig) .start orderlyCutover).log, event.Clean := by
  have inTime : EachStep (Link.step sampleConfig) Link.RecvInTime .start orderlyCutover := by
    decide +kernel
  exact ⟨inTime, by decide +kernel, (cutover_never_mixes sampleConfig orderlyCutover inTime).1⟩

/-- Bob receives Alice's CAPS first and waits in `recv` again while his own CAPS goes
out. -/
def receiveFirst : List Action :=
  [.beginSend .alice sampleCaps, .resumeSend .alice, .resumeSend .alice,
    .beginRecv .bob, .readFrame .bob true, .noteCapsReceived .bob, .maybeActivateRatchet .bob,
    .beginRecv .bob,
    .beginSend .bob sampleCaps, .resumeSend .bob, .resumeSend .bob, .maybeActivateRatchet .bob,
    .beginRecv .alice, .readFrame .alice true, .noteCapsReceived .alice,
    .maybeActivateRatchet .alice, .beginCommit .alice, .resumeSend .alice, .readFrame .bob true]

/-- Alice's commit, a ratchet frame, is decrypted under the legacy key. -/
theorem receiveFirst_mixes :
    .decoded .bob .ratchet .legacy ∈ (run (Link.step sampleConfig) .start receiveFirst).log ∧
      ((run (Link.step sampleConfig) .start receiveFirst).endpoint .bob).drState.isSome ∧
      ¬ ∀ event ∈ (run (Link.step sampleConfig) .start receiveFirst).log, event.Clean := by
  have mixed : .decoded .bob .ratchet .legacy ∈
      (run (Link.step sampleConfig) .start receiveFirst).log := by decide +kernel
  refine ⟨mixed, by decide +kernel, fun clean => ?_⟩
  have same : Mode.ratchet = Mode.legacy := clean _ mixed
  cases same

end OneLink.Channel
