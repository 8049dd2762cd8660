/-
# CallSession.Session -- the lattice primitives, the shared state of one call and its merge

A last-writer-wins register, an observed-remove set and a monotone counter.
Each merge is a regular band; a set and a counter commute as well, a register
does where equal stamps mean equal contents (`merge_comm_of_agree`).  Every
update is a merge with what it adds.

A session is a product of the primitives and a map of participants in key order.
Its merge refuses sessions with other immutable fields and participants with
another master key; past these checks it is the total `join`, a regular band,
and two sessions commute when their registers agree (`join_comm_of_agree`).
-/
import OneLink.Library.Checked
import OneLink.Library.PyText
import OneLink.Library.RegularBand
import OneLink.Library.SortedMap

namespace OneLink.CallSessions

set_option autoImplicit false

open Library

/-! ## Last writer wins -/

structure LWWRegister (T : Type) where
  value : Option T
  timestampMs : Int
  writerId : String
deriving DecidableEq, Repr

namespace LWWRegister

variable {T : Type}

/-- A register that is not yet set. -/
def unset : LWWRegister T := ⟨none, 0, ""⟩

/-- `with_value`. -/
def withValue (r : LWWRegister T) (value : T) (timestampMs : Int) (writerId : String) : LWWRegister T :=
  if timestampMs > r.timestampMs then ⟨some value, timestampMs, writerId⟩
  else if timestampMs = r.timestampMs ∧ writerId > r.writerId then ⟨some value, timestampMs, writerId⟩
  else r

/-- `merge`. -/
def merge (self other : LWWRegister T) : LWWRegister T :=
  if other.timestampMs > self.timestampMs then other
  else if other.timestampMs < self.timestampMs then self
  else if other.writerId > self.writerId then other
  else self

/-- What registers are compared by. -/
def stamp (r : LWWRegister T) : Int ×ₗ String := toLex (r.timestampMs, r.writerId)

theorem stamp_lt_iff {r s : LWWRegister T} : r.stamp < s.stamp ↔
    r.timestampMs < s.timestampMs ∨ r.timestampMs = s.timestampMs ∧ r.writerId < s.writerId := by
  rw [stamp, stamp, Prod.Lex.toLex_lt_toLex]

theorem merge_eq (a b : LWWRegister T) : a.merge b = if a.stamp < b.stamp then b else a := by
  simp only [merge, stamp_lt_iff]
  by_cases later : a.timestampMs < b.timestampMs
  · rw [if_pos later, if_pos (.inl later)]
  · rw [if_neg later]
    by_cases earlier : b.timestampMs < a.timestampMs
    · rw [if_pos earlier, if_neg (by omega)]
    · have same : a.timestampMs = b.timestampMs := by omega
      rw [if_neg earlier]
      simp only [same, lt_irrefl, true_and, false_or, gt_iff_lt]

theorem withValue_eq (r : LWWRegister T) (value : T) (timestampMs : Int) (writerId : String) :
    r.withValue value timestampMs writerId = r.merge ⟨some value, timestampMs, writerId⟩ := by
  simp only [merge_eq, withValue, stamp_lt_iff]
  by_cases later : r.timestampMs < timestampMs
  · rw [if_pos later, if_pos (.inl later)]
  · simp only [later, false_or, eq_comm, gt_iff_lt, if_false]

theorem merge_of_lt {a b : LWWRegister T} (below : a.stamp < b.stamp) : a.merge b = b := by
  rw [merge_eq, if_pos below]

theorem merge_of_le {a b : LWWRegister T} (above : b.stamp ≤ a.stamp) : a.merge b = a := by
  rw [merge_eq, if_neg (not_lt.2 above)]

theorem stamp_merge (a b : LWWRegister T) : (a.merge b).stamp = max a.stamp b.stamp := by
  rw [merge_eq]
  split
  · rename_i below
    exact (max_eq_right below.le).symm
  · rename_i above
    exact (max_eq_left (not_lt.1 above)).symm

/-- A merge is one of its two sides. -/
theorem merge_cases (a b : LWWRegister T) :
    (a.merge b = a ∧ b.stamp ≤ a.stamp) ∨ (a.merge b = b ∧ a.stamp < b.stamp) := by
  rcases lt_or_ge a.stamp b.stamp with below | above
  · exact .inr ⟨merge_of_lt below, below⟩
  · exact .inl ⟨merge_of_le above, above⟩

theorem band : RegularBand (merge (T := T)) where
  assoc a b c := by
    rcases lt_or_ge b.stamp c.stamp with below | above
    · rw [merge_of_lt below]
      rcases lt_or_ge a.stamp b.stamp with first | first
      · rw [merge_of_lt first, merge_of_lt below, merge_of_lt (first.trans below)]
      · rw [merge_of_le first]
    · rw [merge_of_le above]
      refine merge_of_le (above.trans ?_)
      rw [stamp_merge]
      exact le_max_right _ _
  idem a := merge_of_le le_rfl
  regular a b := merge_of_le (by rw [stamp_merge]; exact le_max_left _ _)

theorem merge_comm_of_agree {a b : LWWRegister T} (agree : a.stamp = b.stamp → a = b) :
    a.merge b = b.merge a := by
  rcases lt_trichotomy a.stamp b.stamp with below | same | above
  · rw [merge_of_lt below, merge_of_le below.le]
  · rw [agree same]
  · rw [merge_of_le above.le, merge_of_lt above]

end LWWRegister

/-! ## Observed remove -/

structure ORSetEntry (T : Type) where
  value : T
  addToken : String
deriving DecidableEq, Repr

structure ORSet (T : Type) where
  entries : Finset (ORSetEntry T)
  tombstones : Finset (ORSetEntry T)
deriving DecidableEq

namespace ORSet

variable {T : Type} [DecidableEq T]

def empty : ORSet T := ⟨∅, ∅⟩

/-- `add`. -/
def add (s : ORSet T) (value : T) (addToken : String) : ORSet T :=
  ⟨s.entries ∪ {⟨value, addToken⟩}, s.tombstones⟩

/-- `remove`: tombstone the observed adds of the value. -/
def remove (s : ORSet T) (value : T) : ORSet T :=
  ⟨s.entries, s.tombstones ∪ s.entries.filter fun e => e.value = value⟩

/-- `merge`. -/
def merge (self other : ORSet T) : ORSet T :=
  ⟨self.entries ∪ other.entries, self.tombstones ∪ other.tombstones⟩

theorem merge_comm (a b : ORSet T) : a.merge b = b.merge a := by
  rw [merge, merge, Finset.union_comm, Finset.union_comm a.tombstones]

theorem band : RegularBand (merge (T := T)) where
  assoc a b c := by simp only [merge, Finset.union_assoc]
  idem a := by simp only [merge, Finset.union_self]
  regular a b := by
    rw [merge, merge, Finset.union_eq_left.2 Finset.subset_union_left,
      Finset.union_eq_left.2 Finset.subset_union_left]

theorem add_eq (s : ORSet T) (value : T) (addToken : String) :
    s.add value addToken = s.merge ⟨{⟨value, addToken⟩}, ∅⟩ := by
  rw [add, merge, Finset.union_empty]

theorem remove_eq (s : ORSet T) (value : T) :
    s.remove value = s.merge ⟨∅, s.entries.filter fun e => e.value = value⟩ := by
  rw [remove, merge, Finset.union_empty]

end ORSet

/-! ## Monotone counters -/

structure MaxCounter where
  value : Int
deriving DecidableEq, Repr

namespace MaxCounter

/-- `bump`. -/
def bump (c : MaxCounter) (newValue : Int) : MaxCounter :=
  if newValue > c.value then ⟨newValue⟩ else c

/-- `merge`. -/
def merge (self other : MaxCounter) : MaxCounter := ⟨max self.value other.value⟩

theorem merge_comm (a b : MaxCounter) : a.merge b = b.merge a := by rw [merge, merge, max_comm]

theorem band : RegularBand merge where
  assoc a b c := by rw [merge, merge, merge, merge, max_assoc]
  idem a := by rw [merge, max_self]
  regular a b := by rw [merge, merge, max_eq_left (le_max_left _ _)]

theorem bump_eq (c : MaxCounter) (newValue : Int) : c.bump newValue = c.merge ⟨newValue⟩ := by
  rw [bump, merge]
  split
  · rename_i larger
    rw [max_eq_right larger.le]
  · rename_i notLarger
    rw [max_eq_left (not_lt.1 notLarger)]

end MaxCounter

inductive Intensity where
  | ambient | low | medium | high
deriving DecidableEq, Repr

def Intensity.toInt : Intensity → Int
  | .ambient => 0 | .low => 1 | .medium => 2 | .high => 3

inductive Rung where
  | rawAv | opusVideo | semanticDeltaAv | faceStillMotion | audioOnly | pushToTalk | conceptText
  | asyncCapsule | ambientPresence
deriving DecidableEq, Repr

def Rung.toInt : Rung → Int
  | .rawAv => 0 | .opusVideo => 1 | .semanticDeltaAv => 2 | .faceStillMotion => 3 | .audioOnly => 4
  | .pushToTalk => 5 | .conceptText => 6 | .asyncCapsule => 7 | .ambientPresence => 8

inductive EndReason where
  | active | userHangupLocal | userHangupRemote | networkAsync | emergencyRekey
deriving DecidableEq, Repr

def EndReason.toInt : EndReason → Int
  | .active => 0 | .userHangupLocal => 1 | .userHangupRemote => 2 | .networkAsync => 3
  | .emergencyRekey => 4

/-- The `ValueError`s of the module, one constructor a message. -/
inductive MergeError where
  | differentMasterVk
  | differentCallId
  | differentStartedAtMs
  | differentNegotiatedCapabilities
  | differentModelPackHash
  | differentConversationId
  | differentResumeOf
deriving DecidableEq, Repr

/-! ## Participants -/

structure ParticipantState where
  masterVk : Bytes
  activeDevices : ORSet String := .empty
  primaryMic : LWWRegister String := .unset
  primaryCam : LWWRegister String := .unset
  primaryDisplay : LWWRegister String := .unset
  primarySpeaker : LWWRegister String := .unset
  preferredRelay : LWWRegister String := .unset
  lastSeenAliveMs : MaxCounter := ⟨0⟩
deriving DecidableEq

/-- The registers of a participant. -/
inductive Preference where
  | primaryMic | primaryCam | primaryDisplay | primarySpeaker | preferredRelay
deriving DecidableEq, Repr

namespace ParticipantState

def register (p : ParticipantState) : Preference → LWWRegister String
  | .primaryMic => p.primaryMic
  | .primaryCam => p.primaryCam
  | .primaryDisplay => p.primaryDisplay
  | .primarySpeaker => p.primarySpeaker
  | .preferredRelay => p.preferredRelay

/-- `replace(p, field=f(p.field))` -/
def modifyRegister (p : ParticipantState) (which : Preference)
    (f : LWWRegister String → LWWRegister String) : ParticipantState :=
  match which with
  | .primaryMic => { p with primaryMic := f p.primaryMic }
  | .primaryCam => { p with primaryCam := f p.primaryCam }
  | .primaryDisplay => { p with primaryDisplay := f p.primaryDisplay }
  | .primarySpeaker => { p with primarySpeaker := f p.primarySpeaker }
  | .preferredRelay => { p with preferredRelay := f p.preferredRelay }

/-- What `merge` returns once the master keys agree. -/
def join (self other : ParticipantState) : ParticipantState where
  masterVk := self.masterVk
  activeDevices := self.activeDevices.merge other.activeDevices
  primaryMic := self.primaryMic.merge other.primaryMic
  primaryCam := self.primaryCam.merge other.primaryCam
  primaryDisplay := self.primaryDisplay.merge other.primaryDisplay
  primarySpeaker := self.primarySpeaker.merge other.primarySpeaker
  preferredRelay := self.preferredRelay.merge other.preferredRelay
  lastSeenAliveMs := self.lastSeenAliveMs.merge other.lastSeenAliveMs

/-- `merge`. -/
def merge (self other : ParticipantState) : Except MergeError ParticipantState := do
  require (self.masterVk = other.masterVk) .differentMasterVk
  .ok (self.join other)

theorem band : RegularBand join where
  assoc a b c := by
    simp only [join, ORSet.band.assoc, LWWRegister.band.assoc, MaxCounter.band.assoc]
  idem a := by
    simp only [join, ORSet.band.idem, LWWRegister.band.idem, MaxCounter.band.idem]
  regular a b := by
    simp only [join, ORSet.band.regular, LWWRegister.band.regular, MaxCounter.band.regular]

@[simp] theorem register_join (a b : ParticipantState) (which : Preference) :
    (a.join b).register which = (a.register which).merge (b.register which) := by
  cases which <;> rfl

@[simp] theorem register_modifyRegister (p : ParticipantState) (which which' : Preference)
    (f : LWWRegister String → LWWRegister String) : (p.modifyRegister which f).register which' =
      if which = which' then f (p.register which') else p.register which' := by
  cases which <;> cases which' <;> rfl

@[simp] theorem masterVk_modifyRegister (p : ParticipantState) (which : Preference)
    (f : LWWRegister String → LWWRegister String) :
    (p.modifyRegister which f).masterVk = p.masterVk := by
  cases which <;> rfl

/-- A participant absorbs itself with one register moved on. -/
theorem below_modifyRegister (p : ParticipantState) (which : Preference)
    {f : LWWRegister String → LWWRegister String} (grows : ∀ r, (f r).merge r = f r) :
    Below join p (p.modifyRegister which f) := by
  rw [Below]
  cases which <;>
    simp only [join, modifyRegister, grows, ORSet.band.idem, LWWRegister.band.idem,
      MaxCounter.band.idem]

theorem join_comm_of_agree {a b : ParticipantState} (sameKey : a.masterVk = b.masterVk)
    (agree : ∀ which, (a.register which).stamp = (b.register which).stamp →
      a.register which = b.register which) : a.join b = b.join a := by
  have commutes := fun which => LWWRegister.merge_comm_of_agree (agree which)
  have mic : a.primaryMic.merge b.primaryMic = b.primaryMic.merge a.primaryMic :=
    commutes .primaryMic
  have cam : a.primaryCam.merge b.primaryCam = b.primaryCam.merge a.primaryCam :=
    commutes .primaryCam
  have display : a.primaryDisplay.merge b.primaryDisplay = b.primaryDisplay.merge a.primaryDisplay :=
    commutes .primaryDisplay
  have speaker : a.primarySpeaker.merge b.primarySpeaker = b.primarySpeaker.merge a.primarySpeaker :=
    commutes .primarySpeaker
  have relay : a.preferredRelay.merge b.preferredRelay = b.preferredRelay.merge a.preferredRelay :=
    commutes .preferredRelay
  rw [join, join, sameKey, ORSet.merge_comm, MaxCounter.merge_comm, mic, cam, display, speaker, relay]

end ParticipantState

/-! ## Sessions -/

/-- The immutable fields. -/
structure Identity where
  callId : String
  startedAtMs : Int
  negotiatedCapabilities : Finset String := ∅
  modelPackHash : Option String := none
  conversationId : Option String := none
  resumeOf : Option String := none
deriving DecidableEq

/-- The participants are kept sorted by the hexadecimal text of their master key. -/
structure CallSession extends Identity where
  intensity : LWWRegister Int := .unset
  targetIntensity : LWWRegister Int := .unset
  currentRung : LWWRegister Int := .unset
  participants : SortedMap String ParticipantState := .empty
  activePath : LWWRegister String := .unset
  warmBackups : ORSet String := .empty
  endedAtMs : LWWRegister Int := .unset
  endReason : LWWRegister Int := .unset
  liveResumableUntilMs : LWWRegister Int := .unset
  identityVerified : LWWRegister Int := .unset
  recordingState : LWWRegister Int := .unset

namespace CallSession

/-- `_check_compatible`. -/
def checkCompatible (self other : CallSession) : Except MergeError Unit := do
  require (self.callId = other.callId) .differentCallId
  require (self.startedAtMs = other.startedAtMs) .differentStartedAtMs
  require (self.negotiatedCapabilities = other.negotiatedCapabilities)
    .differentNegotiatedCapabilities
  require (self.modelPackHash = other.modelPackHash) .differentModelPackHash
  require (self.conversationId = other.conversationId) .differentConversationId
  require (self.resumeOf = other.resumeOf) .differentResumeOf

/-- The participants of `merge`: those on both sides are merged, which takes one master key. -/
def mergeParticipants (a b : SortedMap String ParticipantState) :
    Except MergeError (SortedMap String ParticipantState) := do
  require (∀ entry ∈ a.items, ∀ p ∈ b.get? entry.1, entry.2.masterVk = p.masterVk) .differentMasterVk
  .ok (a.mergeWith ParticipantState.join b)

/-- What `merge` returns from the participants it merged. -/
def joinWith (self other : CallSession) (participants : SortedMap String ParticipantState) :
    CallSession where
  toIdentity := self.toIdentity
  intensity := self.intensity.merge other.intensity
  targetIntensity := self.targetIntensity.merge other.targetIntensity
  currentRung := self.currentRung.merge other.currentRung
  participants
  activePath := self.activePath.merge other.activePath
  warmBackups := self.warmBackups.merge other.warmBackups
  endedAtMs := self.endedAtMs.merge other.endedAtMs
  endReason := self.endReason.merge other.endReason
  liveResumableUntilMs := self.liveResumableUntilMs.merge other.liveResumableUntilMs
  identityVerified := self.identityVerified.merge other.identityVerified
  recordingState := self.recordingState.merge other.recordingState

/-- `merge`. -/
def merge (self other : CallSession) : Except MergeError CallSession := do
  self.checkCompatible other
  let participants ← mergeParticipants self.participants other.participants
  .ok (self.joinWith other participants)

/-- `is_active`. -/
def isActive (s : CallSession) : Bool := s.endedAtMs.value = none ∨ s.endedAtMs.value = some 0

/-- The merge past its checks. -/
def join (self other : CallSession) : CallSession :=
  self.joinWith other (self.participants.mergeWith ParticipantState.join other.participants)

theorem merge_eq_join {a b : CallSession} (sameIdentity : a.toIdentity = b.toIdentity)
    (sameKeys : ∀ k p q, a.participants.get? k = some p → b.participants.get? k = some q →
      p.masterVk = q.masterVk) : a.merge b = .ok (a.join b) := by
  have checked : a.checkCompatible b = .ok () := by
    simp only [checkCompatible, sameIdentity, require_of, ok_bind]
  have keys : ∀ entry ∈ a.participants.items, ∀ p ∈ b.participants.get? entry.1,
      entry.2.masterVk = p.masterVk := by
    rintro ⟨k, p⟩ mem q other
    exact sameKeys k p q (SortedMap.get?_of_mem mem) other
  rw [merge, checked, ok_bind, mergeParticipants, require_of keys, ok_bind, ok_bind, join]

theorem band : RegularBand join where
  assoc a b c := by
    simp only [join, joinWith, ORSet.band.assoc, LWWRegister.band.assoc,
      SortedMap.mergeWith_assoc ParticipantState.band.assoc]
  idem a := by
    simp only [join, joinWith, ORSet.band.idem, LWWRegister.band.idem,
      SortedMap.mergeWith_self ParticipantState.band.idem]
  regular a b := by
    simp only [join, joinWith, ORSet.band.regular, LWWRegister.band.regular,
      SortedMap.mergeWith_regular ParticipantState.band.idem ParticipantState.band.regular]

end CallSession

end OneLink.CallSessions
