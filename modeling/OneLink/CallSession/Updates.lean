/-
# CallSession.Updates -- what a replica can do to its session

Every update leaves each register as it is or writes it under the update's own
writer (`int_apply`, `text_apply`), and the session it starts from is absorbed by
the one it leads to (`below_apply`).  A register is named by a slot; the slot of
a participant that is not there yet is unset.
-/
import OneLink.CallSession.Session

namespace OneLink.CallSessions

set_option autoImplicit false

open Library

/-! ## Registers by name -/

inductive IntSlot where
  | intensity | targetIntensity | currentRung | endedAtMs | endReason | liveResumableUntilMs
  | identityVerified | recordingState
deriving DecidableEq, Repr

inductive TextSlot where
  | activePath
  | preference (key : String) (which : Preference)
deriving DecidableEq, Repr

/-- Two registers that carry one stamp are one register. -/
def Agree {T : Type} (a b : LWWRegister T) : Prop := a.stamp = b.stamp → a = b

/-- Unset, or written at a stamp above that of an unset register. -/
def Floored {T : Type} (r : LWWRegister T) : Prop :=
  r = .unset ∨ (LWWRegister.unset : LWWRegister T).stamp < r.stamp

theorem Floored.unset_merge {T : Type} {r : LWWRegister T} (floored : Floored r) :
    LWWRegister.unset.merge r = r := by
  obtain rfl | above := floored
  · exact LWWRegister.band.idem _
  · exact LWWRegister.merge_of_lt above

theorem Floored.merge_unset {T : Type} {r : LWWRegister T} (floored : Floored r) :
    r.merge .unset = r := by
  obtain rfl | above := floored
  · exact LWWRegister.band.idem _
  · exact LWWRegister.merge_of_le above.le

namespace CallSession

def int (s : CallSession) : IntSlot → LWWRegister Int
  | .intensity => s.intensity
  | .targetIntensity => s.targetIntensity
  | .currentRung => s.currentRung
  | .endedAtMs => s.endedAtMs
  | .endReason => s.endReason
  | .liveResumableUntilMs => s.liveResumableUntilMs
  | .identityVerified => s.identityVerified
  | .recordingState => s.recordingState

def text (s : CallSession) : TextSlot → LWWRegister String
  | .activePath => s.activePath
  | .preference key which =>
    match s.participants.get? key with
    | some p => p.register which
    | none => .unset

theorem int_join (a b : CallSession) (x : IntSlot) : (a.join b).int x = (a.int x).merge (b.int x) := by
  cases x <;> rfl

theorem text_join {a b : CallSession} {x : TextSlot} (left : Floored (a.text x))
    (right : Floored (b.text x)) : (a.join b).text x = (a.text x).merge (b.text x) := by
  cases x with
  | activePath => rfl
  | preference key which =>
    simp only [text] at left right ⊢
    simp only [join, joinWith, SortedMap.get?_mergeWith]
    cases here : a.participants.get? key with
    | none =>
      cases there : b.participants.get? key with
      | none => exact (LWWRegister.band.idem _).symm
      | some q =>
        simp only [there] at right
        exact right.unset_merge.symm
    | some p =>
      cases there : b.participants.get? key with
      | none =>
        simp only [here] at left
        exact left.merge_unset.symm
      | some q => exact ParticipantState.register_join p q which

/-- Every participant is filed under the text of its master key. -/
def Keyed (s : CallSession) : Prop :=
  ∀ k p, s.participants.get? k = some p → k = hexText p.masterVk

theorem sameKeys {a b : CallSession} (left : Keyed a) (right : Keyed b) :
    ∀ k p q, a.participants.get? k = some p → b.participants.get? k = some q →
      p.masterVk = q.masterVk :=
  fun k p q here there => hexText_inj ((left k p here).symm.trans (right k q there))

theorem keyed_join {a b : CallSession} (left : Keyed a) (right : Keyed b) : Keyed (a.join b) := by
  intro k p present
  simp only [join, joinWith, SortedMap.get?_mergeWith] at present
  cases here : a.participants.get? k with
  | none =>
    rw [here, Option.merge_none_left] at present
    exact right k p present
  | some q =>
    rw [here] at present
    cases there : b.participants.get? k with
    | none =>
      rw [there, Option.merge_none_right, Option.some.injEq] at present
      exact left k p (present ▸ here)
    | some r =>
      rw [there] at present
      simp only [Option.merge, Option.some.injEq] at present
      subst present
      exact left k q here

/-- Sessions whose registers agree commute. -/
theorem join_comm_of_agree {a b : CallSession} (sameIdentity : a.toIdentity = b.toIdentity)
    (left : Keyed a) (right : Keyed b) (ints : ∀ x, Agree (a.int x) (b.int x))
    (texts : ∀ x, Agree (a.text x) (b.text x)) : a.join b = b.join a := by
  have commutes : ∀ x, (a.int x).merge (b.int x) = (b.int x).merge (a.int x) := fun x =>
    LWWRegister.merge_comm_of_agree (ints x)
  have intensity : a.intensity.merge b.intensity = b.intensity.merge a.intensity :=
    commutes .intensity
  have target : a.targetIntensity.merge b.targetIntensity =
      b.targetIntensity.merge a.targetIntensity := commutes .targetIntensity
  have rung : a.currentRung.merge b.currentRung = b.currentRung.merge a.currentRung :=
    commutes .currentRung
  have ended : a.endedAtMs.merge b.endedAtMs = b.endedAtMs.merge a.endedAtMs := commutes .endedAtMs
  have reason : a.endReason.merge b.endReason = b.endReason.merge a.endReason := commutes .endReason
  have resumable : a.liveResumableUntilMs.merge b.liveResumableUntilMs =
      b.liveResumableUntilMs.merge a.liveResumableUntilMs := commutes .liveResumableUntilMs
  have verified : a.identityVerified.merge b.identityVerified =
      b.identityVerified.merge a.identityVerified := commutes .identityVerified
  have recording : a.recordingState.merge b.recordingState =
      b.recordingState.merge a.recordingState := commutes .recordingState
  have path : a.activePath.merge b.activePath = b.activePath.merge a.activePath :=
    LWWRegister.merge_comm_of_agree (texts .activePath)
  have participants : a.participants.mergeWith ParticipantState.join b.participants =
      b.participants.mergeWith ParticipantState.join a.participants := by
    refine SortedMap.mergeWith_comm_of fun k p q here there => ?_
    refine ParticipantState.join_comm_of_agree (sameKeys left right k p q here there) fun which => ?_
    have slot := texts (.preference k which)
    simp only [text, here, there] at slot
    exact slot
  rw [join, join, joinWith, joinWith, participants, sameIdentity, intensity, target, rung, ended,
    reason, resumable, verified, recording, path, ORSet.merge_comm]

/-! ## Updates -/

/-- `with_intensity`. -/
def withIntensity (s : CallSession) (intensity : Intensity) (timestampMs : Int) (writerId : String) :
    CallSession :=
  { s with intensity := s.intensity.withValue intensity.toInt timestampMs writerId }

/-- `with_rung`. -/
def withRung (s : CallSession) (rung : Rung) (timestampMs : Int) (writerId : String) : CallSession :=
  { s with currentRung := s.currentRung.withValue rung.toInt timestampMs writerId }

/-- `with_ended`. -/
def withEnded (s : CallSession) (reason : EndReason) (endedAtMs : Int) (writerId : String) :
    CallSession :=
  { s with
    endedAtMs := s.endedAtMs.withValue endedAtMs endedAtMs writerId
    endReason := s.endReason.withValue reason.toInt endedAtMs writerId }

/-- `with_resumable_until`. -/
def withResumableUntil (s : CallSession) (untilMs timestampMs : Int) (writerId : String) :
    CallSession :=
  { s with
    liveResumableUntilMs := s.liveResumableUntilMs.withValue untilMs timestampMs writerId }

/-- A participant with some of its fields replaced; a new one is filed in order of the keys. -/
def updateParticipant (s : CallSession) (masterVk : Bytes)
    (f : ParticipantState → ParticipantState) : CallSession :=
  let filed := s.participants.alter (hexText masterVk) fun old => f (old.getD { masterVk })
  { s with participants := filed }

end CallSession

/-- The registers of a session that have no helper of their own. -/
inductive Field where
  | targetIntensity | identityVerified | recordingState
deriving DecidableEq, Repr

/-- The helpers of the module, and the primitives' operations on the other fields. -/
inductive Update where
  | withIntensity (intensity : Intensity) (timestampMs : Int) (writerId : String)
  | withRung (rung : Rung) (timestampMs : Int) (writerId : String)
  | withEnded (reason : EndReason) (endedAtMs : Int) (writerId : String)
  | withResumableUntil (untilMs timestampMs : Int) (writerId : String)
  | withField (field : Field) (value timestampMs : Int) (writerId : String)
  | withActivePath (path : String) (timestampMs : Int) (writerId : String)
  | addBackup (path addToken : String)
  | removeBackup (path : String)
  | joinParticipant (masterVk : Bytes)
  | withPreference (masterVk : Bytes) (which : Preference) (value : String) (timestampMs : Int)
      (writerId : String)
  | addDevice (masterVk : Bytes) (device addToken : String)
  | removeDevice (masterVk : Bytes) (device : String)
  | bumpAlive (masterVk : Bytes) (aliveMs : Int)
deriving DecidableEq, Repr

namespace Update

/-- The writer of an update that writes a register. -/
def writer : Update → Option String
  | .withIntensity _ _ writerId => some writerId
  | .withRung _ _ writerId => some writerId
  | .withEnded _ _ writerId => some writerId
  | .withResumableUntil _ _ writerId => some writerId
  | .withField _ _ _ writerId => some writerId
  | .withActivePath _ _ writerId => some writerId
  | .withPreference _ _ _ _ writerId => some writerId
  | .addBackup _ _ | .removeBackup _ | .joinParticipant _ | .addDevice _ _ _ | .removeDevice _ _
  | .bumpAlive _ _ => none

def apply (s : CallSession) : Update → CallSession
  | .withIntensity intensity timestampMs writerId => s.withIntensity intensity timestampMs writerId
  | .withRung rung timestampMs writerId => s.withRung rung timestampMs writerId
  | .withEnded reason endedAtMs writerId => s.withEnded reason endedAtMs writerId
  | .withResumableUntil untilMs timestampMs writerId =>
    s.withResumableUntil untilMs timestampMs writerId
  | .withField .targetIntensity value timestampMs writerId =>
    { s with targetIntensity := s.targetIntensity.withValue value timestampMs writerId }
  | .withField .identityVerified value timestampMs writerId =>
    { s with identityVerified := s.identityVerified.withValue value timestampMs writerId }
  | .withField .recordingState value timestampMs writerId =>
    { s with recordingState := s.recordingState.withValue value timestampMs writerId }
  | .withActivePath path timestampMs writerId =>
    { s with activePath := s.activePath.withValue path timestampMs writerId }
  | .addBackup path addToken => { s with warmBackups := s.warmBackups.add path addToken }
  | .removeBackup path => { s with warmBackups := s.warmBackups.remove path }
  | .joinParticipant masterVk => s.updateParticipant masterVk id
  | .withPreference masterVk which value timestampMs writerId =>
    s.updateParticipant masterVk fun p =>
      p.modifyRegister which fun r => r.withValue value timestampMs writerId
  | .addDevice masterVk device addToken => s.updateParticipant masterVk fun p =>
    { p with activeDevices := p.activeDevices.add device addToken }
  | .removeDevice masterVk device => s.updateParticipant masterVk fun p =>
    { p with activeDevices := p.activeDevices.remove device }
  | .bumpAlive masterVk aliveMs => s.updateParticipant masterVk fun p =>
    { p with lastSeenAliveMs := p.lastSeenAliveMs.bump aliveMs }

/-! ## What an update does to the registers -/

/-- The register is the one before, or the writer wrote it. -/
def Wrote {T : Type} (writer : Option String) (before after : LWWRegister T) : Prop :=
  after = before ∨ ∃ value timestampMs writerId, writer = some writerId ∧
    after = before.withValue value timestampMs writerId

theorem int_apply (s : CallSession) (u : Update) (x : IntSlot) :
    Wrote u.writer (s.int x) ((u.apply s).int x) := by
  cases u with
  | withField field value timestampMs writerId =>
    cases field <;> cases x <;>
      first
        | exact .inl rfl
        | exact .inr ⟨value, timestampMs, writerId, rfl, rfl⟩
  | _ =>
    cases x <;>
      first
        | exact .inl rfl
        | exact .inr ⟨_, _, _, rfl, rfl⟩

/-- The preferences after an update of a participant. -/
theorem text_updateParticipant (s : CallSession) (masterVk : Bytes)
    (f : ParticipantState → ParticipantState) (key : String) (which : Preference) :
    (s.updateParticipant masterVk f).text (.preference key which) =
      if hexText masterVk = key then
        (f ((s.participants.get? key).getD { masterVk })).register which
      else s.text (.preference key which) := by
  simp only [CallSession.text, CallSession.updateParticipant, SortedMap.get?_alter]
  by_cases here : hexText masterVk = key
  · rw [if_pos here, if_pos here, here]
  · rw [if_neg here, if_neg here]

theorem text_eq (s : CallSession) (masterVk : Bytes) (key : String) (which : Preference) :
    s.text (.preference key which) =
      ((s.participants.get? key).getD { masterVk }).register which := by
  rw [CallSession.text]
  cases s.participants.get? key with
  | none => cases which <;> rfl
  | some p => rfl

/-- An update of a participant that leaves its preferences alone. -/
theorem text_updateParticipant_same (s : CallSession) (masterVk : Bytes)
    {f : ParticipantState → ParticipantState} (same : ∀ p which, (f p).register which = p.register which)
    (x : TextSlot) : (s.updateParticipant masterVk f).text x = s.text x := by
  cases x with
  | activePath => rfl
  | preference key which =>
    rw [text_updateParticipant, same, ← text_eq]
    exact ite_self _

theorem text_apply (s : CallSession) (u : Update) (x : TextSlot) :
    Wrote u.writer (s.text x) ((u.apply s).text x) := by
  cases u with
  | withField field value timestampMs writerId => exact .inl (by cases field <;> rfl)
  | withActivePath path timestampMs writerId =>
    cases x with
    | activePath => exact .inr ⟨path, timestampMs, writerId, rfl, rfl⟩
    | preference key which => exact .inl rfl
  | joinParticipant masterVk =>
    exact .inl (text_updateParticipant_same s masterVk (fun _ _ => rfl) x)
  | addDevice masterVk device addToken =>
    exact .inl (text_updateParticipant_same s masterVk (fun _ which => by cases which <;> rfl) x)
  | removeDevice masterVk device =>
    exact .inl (text_updateParticipant_same s masterVk (fun _ which => by cases which <;> rfl) x)
  | bumpAlive masterVk aliveMs =>
    exact .inl (text_updateParticipant_same s masterVk (fun _ which => by cases which <;> rfl) x)
  | withPreference masterVk which value timestampMs writerId =>
    cases x with
    | activePath => exact .inl rfl
    | preference key which' =>
      rw [apply, text_updateParticipant, text_eq s masterVk]
      by_cases here : hexText masterVk = key ∧ which = which'
      · rw [if_pos here.1, ParticipantState.register_modifyRegister, if_pos here.2]
        exact .inr ⟨value, timestampMs, writerId, rfl, rfl⟩
      · refine .inl ?_
        by_cases there : hexText masterVk = key
        · rw [if_pos there, ParticipantState.register_modifyRegister,
            if_neg fun same => here ⟨there, same⟩]
        · rw [if_neg there]
  | _ => exact .inl rfl

theorem identity_apply (s : CallSession) (u : Update) : (u.apply s).toIdentity = s.toIdentity := by
  cases u with
  | withField field => cases field <;> rfl
  | _ => rfl

/-! ## Updates only add -/

theorem withValue_merge {T : Type} (r : LWWRegister T) (value : T) (timestampMs : Int)
    (writerId : String) : (r.withValue value timestampMs writerId).merge r =
      r.withValue value timestampMs writerId := by
  rw [LWWRegister.withValue_eq, LWWRegister.band.regular]

theorem below_updateParticipant (s : CallSession) (masterVk : Bytes)
    {f : ParticipantState → ParticipantState} (grows : ∀ p, Below ParticipantState.join p (f p)) :
    Below CallSession.join s (s.updateParticipant masterVk f) := by
  have participants := @SortedMap.mergeWith_alter _ _ _ ParticipantState.join
    ParticipantState.band.idem (fun old => f (old.getD { masterVk })) (hexText masterVk)
    s.participants (fun old _ => grows old)
  rw [Below, CallSession.join, CallSession.joinWith]
  simp only [CallSession.updateParticipant, participants, ORSet.band.idem, LWWRegister.band.idem]

theorem below_apply (s : CallSession) (u : Update) : Below CallSession.join s (u.apply s) := by
  cases u with
  | joinParticipant masterVk => exact below_updateParticipant s masterVk ParticipantState.band.idem
  | withPreference masterVk which value timestampMs writerId =>
    exact below_updateParticipant s masterVk fun p =>
      p.below_modifyRegister which fun r => withValue_merge r value timestampMs writerId
  | addDevice masterVk device addToken =>
    refine below_updateParticipant s masterVk fun p => ?_
    simp only [Below, ParticipantState.join, ORSet.add_eq, ORSet.band.regular, LWWRegister.band.idem,
      MaxCounter.band.idem]
  | removeDevice masterVk device =>
    refine below_updateParticipant s masterVk fun p => ?_
    simp only [Below, ParticipantState.join, ORSet.remove_eq, ORSet.band.regular,
      LWWRegister.band.idem, MaxCounter.band.idem]
  | bumpAlive masterVk aliveMs =>
    refine below_updateParticipant s masterVk fun p => ?_
    simp only [Below, ParticipantState.join, MaxCounter.bump_eq, MaxCounter.band.regular,
      ORSet.band.idem, LWWRegister.band.idem]
  | withField field value timestampMs writerId =>
    cases field <;>
      simp only [Below, apply, CallSession.join, CallSession.joinWith, withValue_merge,
        ORSet.band.idem, LWWRegister.band.idem, SortedMap.mergeWith_self ParticipantState.band.idem]
  | _ =>
    simp only [Below, apply, CallSession.withIntensity, CallSession.withRung, CallSession.withEnded,
      CallSession.withResumableUntil, CallSession.join, CallSession.joinWith, withValue_merge,
      ORSet.add_eq, ORSet.remove_eq, ORSet.band.regular, ORSet.band.idem, LWWRegister.band.idem,
      SortedMap.mergeWith_self ParticipantState.band.idem]

theorem keyed_updateParticipant {s : CallSession} (keyed : s.Keyed) (masterVk : Bytes)
    {f : ParticipantState → ParticipantState} (same : ∀ p, (f p).masterVk = p.masterVk) :
    (s.updateParticipant masterVk f).Keyed := by
  intro k p present
  simp only [CallSession.updateParticipant, SortedMap.get?_alter] at present
  split at present
  · rename_i here
    rw [Option.some.injEq] at present
    subst present
    rw [same]
    cases old : s.participants.get? (hexText masterVk) with
    | none => exact here.symm
    | some q =>
      have filed := keyed _ q old
      rw [Option.getD_some, ← filed, here]
  · exact keyed k p present

theorem keyed_apply {s : CallSession} (keyed : s.Keyed) (u : Update) : (u.apply s).Keyed := by
  cases u with
  | joinParticipant masterVk => exact keyed_updateParticipant keyed masterVk fun _ => rfl
  | withPreference masterVk which value timestampMs writerId =>
    exact keyed_updateParticipant keyed masterVk fun p => p.masterVk_modifyRegister which _
  | addDevice masterVk device addToken => exact keyed_updateParticipant keyed masterVk fun _ => rfl
  | removeDevice masterVk device => exact keyed_updateParticipant keyed masterVk fun _ => rfl
  | bumpAlive masterVk aliveMs => exact keyed_updateParticipant keyed masterVk fun _ => rfl
  | withField field => cases field <;> exact keyed
  | _ => exact keyed

end Update

end OneLink.CallSessions
