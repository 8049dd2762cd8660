/-
# Canon.Limit -- an encoder with a limit, after calls that fail

Every `encode_*` call reserves all it may write before it writes, and so leaves the
buffer as it was when it fails.  Only `encode_vector_clock` reserves its header and each
entry apart: when the room ends behind the header, what it has written stays
(`vectorClock_partial`).  Exactly in the runs in which no vector clock ends so, the buffer
is after every call the concatenation of what the successful calls write
(`buffer_concatenates_iff`); the limit holds in every run.
-/
import OneLink.Canon.RoundTrip
import OneLink.Library.Mutating

namespace OneLink.Canon

open Library

set_option autoImplicit false

/-! ## The calls that remain -/

def CanonEncoder.encodeHlc (e : CanonEncoder) (wallTime : Int64) (logical : UInt32)
    (nodeId : Bytes) :=
  e.append (1 + 10 + 10 + 10 + nodeId.length)
    (TypeTag.hlc.toByte :: (encodeZigzag wallTime ++ (encodeVarint logical.toUInt64 ++
      (encodeVarint (UInt64.ofNat nodeId.length) ++ nodeId))))

/-- A call on the encoder: it returns or fails, and leaves an encoder either way. -/
abbrev Writing := Mutating CanonEncoder EncodeError Unit

/-- A call that reserves before it writes leaves the encoder as it was when it fails. -/
def reserving (f : CanonEncoder → Except EncodeError CanonEncoder) : Writing := fun e =>
  match f e with
  | .ok e' => (.ok (), e')
  | .error err => (.error err, e)

/-- The loop of `encode_vector_clock`. -/
def encodeEntries : List (Bytes × UInt64) → Writing
  | [] => pure ()
  | (nodeId, counter) :: rest => do
    reserving fun e => e.encodeNodeId nodeId
    reserving fun e => e.encodeU64 counter
    encodeEntries rest

/-- The tag and the number of entries. -/
def vectorClockHeader (entries : List (Bytes × UInt64)) : Bytes :=
  TypeTag.vectorClock.toByte :: encodeVarint (UInt64.ofNat entries.length)

def encodeVectorClock (entries : List (Bytes × UInt64)) : Writing := do
  reserving fun e => e.append (1 + 10) (vectorClockHeader entries)
  encodeEntries entries

/-- One `encode_*` call with its arguments. -/
inductive WriteCall where
  | item (item : Item)
  | f32 (value : UInt32)
  | f64 (value : UInt64)
  | hlc (wallTime : Int64) (logical : UInt32) (nodeId : Bytes)
  | vectorClock (entries : List (Bytes × UInt64))

def WriteCall.run : WriteCall → Writing
  | item i => reserving fun e => i.encode e
  | f32 value => reserving fun e => e.encodeF32 value
  | f64 value => reserving fun e => e.encodeF64 value
  | hlc wallTime logical nodeId => reserving fun e => e.encodeHlc wallTime logical nodeId
  | vectorClock entries => encodeVectorClock entries

def entriesWire (entries : List (Bytes × UInt64)) : Bytes :=
  entries.flatMap fun entry => (Item.nodeId entry.1).wire ++ (Item.u64 entry.2).wire

/-- What a call writes when it returns. -/
def WriteCall.wire : WriteCall → Bytes
  | item i => i.wire
  | f32 value => wireF32 value
  | f64 value => wireF64 value
  | hlc wallTime logical nodeId => TypeTag.hlc.toByte :: (encodeZigzag wallTime ++
      (encodeVarint logical.toUInt64 ++ (encodeVarint (UInt64.ofNat nodeId.length) ++ nodeId)))
  | vectorClock entries => vectorClockHeader entries ++ entriesWire entries

/-- A sequence of calls whose failures the caller goes on from: the encoder in the end, and the
calls that returned. -/
def runCalls : List WriteCall → CanonEncoder → CanonEncoder × List WriteCall
  | [], e => (e, [])
  | call :: rest, e =>
    match call.run e with
    | (.ok (), e') =>
      let (final, done) := runCalls rest e'
      (final, call :: done)
    | (.error _, e') => runCalls rest e'

/-! ## Room -/

/-- `reserve(n)` succeeds on a buffer of `used` bytes. -/
def Room (maxSize used n : Nat) : Prop :=
  used + n ≤ isizeMax ∧ ¬ (maxSize > 0 ∧ used + n > maxSize)

/-- Every reservation of the loop succeeds. -/
def EntriesFit (maxSize : Nat) : Nat → List (Bytes × UInt64) → Prop
  | _, [] => True
  | used, (nodeId, counter) :: rest =>
    Room maxSize used (1 + 10 + nodeId.length) ∧
    Room maxSize (used + (Item.nodeId nodeId).wire.length) (1 + 10) ∧
    EntriesFit maxSize
      (used + (Item.nodeId nodeId).wire.length + (Item.u64 counter).wire.length) rest

/-- The call does not run out of room behind its header: it is no vector clock, or there is no room
for the header, or there is for every entry. -/
def WriteCall.Whole (e : CanonEncoder) : WriteCall → Prop
  | vectorClock entries => Room e.maxSize e.buffer.length (1 + 10) →
      EntriesFit e.maxSize (e.buffer.length + (vectorClockHeader entries).length) entries
  | _ => True

/-- Every call of a run finds an encoder on which it is whole. -/
def WholeRun : List WriteCall → CanonEncoder → Prop
  | [], _ => True
  | call :: rest, e => call.Whole e ∧ WholeRun rest (call.run e).2

/-! ## One call -/

/-- The limit holds of what the buffer has. -/
def CanonEncoder.Within (e : CanonEncoder) : Prop := e.maxSize > 0 → e.buffer.length ≤ e.maxSize

/-- The encoder behind more bytes. -/
def CanonEncoder.extended (e : CanonEncoder) (bytes : Bytes) : CanonEncoder :=
  { e with buffer := e.buffer ++ bytes }

@[simp] theorem CanonEncoder.extended_buffer (e : CanonEncoder) (bytes : Bytes) :
    (e.extended bytes).buffer = e.buffer ++ bytes := rfl

@[simp] theorem CanonEncoder.extended_maxSize (e : CanonEncoder) (bytes : Bytes) :
    (e.extended bytes).maxSize = e.maxSize := rfl

theorem CanonEncoder.extended_extended (e : CanonEncoder) (first second : Bytes) :
    (e.extended first).extended second = e.extended (first ++ second) := by
  simp [extended]

theorem CanonEncoder.extended_nil (e : CanonEncoder) : e.extended [] = e := by
  simp [extended]

/-- What was reserved for stays within the limit. -/
theorem Room.within {e : CanonEncoder} {n : Nat} {bytes : Bytes}
    (room : Room e.maxSize e.buffer.length n) (enough : bytes.length ≤ n) :
    (e.extended bytes).Within := by
  intro limited
  have below := room.2
  simp only [CanonEncoder.extended_buffer, CanonEncoder.extended_maxSize,
    List.length_append] at limited ⊢
  omega

/-- A call that reserves `n` and appends `bytes` does all of it, or fails and changes nothing. -/
theorem reserving_append {n : Nat} {bytes : Bytes}
    {f : CanonEncoder → Except EncodeError CanonEncoder}
    (isAppend : ∀ e, f e = e.append n bytes) (e : CanonEncoder) :
    (Room e.maxSize e.buffer.length n ∧ reserving f e = (.ok (), e.extended bytes)) ∨
    (¬ Room e.maxSize e.buffer.length n ∧ ∃ err, reserving f e = (.error err, e)) := by
  cases ran : f e with
  | ok e' =>
    have appended := isAppend e ▸ ran
    rw [append_eq_ok] at appended
    obtain ⟨fits, room, rfl⟩ := appended
    exact .inl ⟨⟨fits, room⟩, by rw [reserving, ran]; rfl⟩
  | error err =>
    refine .inr ⟨fun room => ?_, err, by rw [reserving, ran]⟩
    have succeeds : e.append n bytes = .ok { e with buffer := e.buffer ++ bytes } :=
      append_eq_ok.mpr ⟨room.1, room.2, rfl⟩
    rw [isAppend e, succeeds] at ran
    cases ran

theorem reserving_item (item : Item) (e : CanonEncoder) :
    (Room e.maxSize e.buffer.length item.reserved ∧
      reserving (fun e => item.encode e) e = (.ok (), e.extended item.wire)) ∨
    (¬ Room e.maxSize e.buffer.length item.reserved ∧
      ∃ err, reserving (fun e => item.encode e) e = (.error err, e)) :=
  reserving_append (fun e => item.encode_eq e) e

/-! ## The loop of the entries -/

@[simp] theorem encodeEntries_nil (e : CanonEncoder) : encodeEntries [] e = (.ok (), e) := rfl

theorem encodeEntries_cons (entry : Bytes × UInt64) (rest : List (Bytes × UInt64)) :
    encodeEntries (entry :: rest) =
      reserving (fun e => (Item.nodeId entry.1).encode e) >>= fun _ =>
        reserving (fun e => (Item.u64 entry.2).encode e) >>= fun _ => encodeEntries rest := rfl

/-- The loop writes every entry, or fails with some of the bytes written; the limit holds in
both cases. -/
theorem encodeEntries_cases (entries : List (Bytes × UInt64)) (e : CanonEncoder)
    (within : e.Within) :
    (EntriesFit e.maxSize e.buffer.length entries ∧
      encodeEntries entries e = (.ok (), e.extended (entriesWire entries)) ∧
      (e.extended (entriesWire entries)).Within) ∨
    (¬ EntriesFit e.maxSize e.buffer.length entries ∧
      ∃ err written, encodeEntries entries e = (.error err, e.extended written) ∧
        (e.extended written).Within) := by
  induction entries generalizing e with
  | nil => exact .inl ⟨trivial, by simp [entriesWire, e.extended_nil], by
      simpa [entriesWire, e.extended_nil] using within⟩
  | cons entry rest ih =>
    rw [encodeEntries_cons, Mutating.bind_apply]
    obtain ⟨roomId, wroteId⟩ | ⟨full, err, failed⟩ := reserving_item (.nodeId entry.1) e
    case inr =>
      rw [failed]
      exact .inr ⟨fun fit => full fit.1, err, [], by rw [e.extended_nil], by rwa [e.extended_nil]⟩
    have withinId := roomId.within (Item.nodeId entry.1).length_wire.2.1
    rw [wroteId]
    simp only [Mutating.bind_apply]
    generalize opened : e.extended (Item.nodeId entry.1).wire = e₁
    rw [opened] at withinId
    have used : e₁.buffer.length = e.buffer.length + (Item.nodeId entry.1).wire.length := by
      simp [← opened]
    have same : e₁.maxSize = e.maxSize := by simp [← opened]
    obtain ⟨roomCount, wroteCount⟩ | ⟨full, err, failed⟩ := reserving_item (.u64 entry.2) e₁
    case inr =>
      rw [failed]
      refine .inr ⟨fun fit => full ?_, err, (Item.nodeId entry.1).wire, by rw [opened], by
        rwa [opened]⟩
      rw [same, used]
      exact fit.2.1
    have withinCount := roomCount.within (Item.u64 entry.2).length_wire.2.1
    rw [wroteCount]
    have joined : e₁.extended (Item.u64 entry.2).wire =
        e.extended ((Item.nodeId entry.1).wire ++ (Item.u64 entry.2).wire) := by
      rw [← opened, CanonEncoder.extended_extended]
    have length : (e₁.extended (Item.u64 entry.2).wire).buffer.length = e.buffer.length +
        (Item.nodeId entry.1).wire.length + (Item.u64 entry.2).wire.length := by
      simp [used]
    have after := ih _ withinCount
    rw [CanonEncoder.extended_maxSize, same, length] at after
    rw [joined] at after ⊢
    simp only [CanonEncoder.extended_extended] at after
    rw [used, same] at roomCount
    obtain ⟨fit, wrote, inside⟩ | ⟨full, err, written, failed, inside⟩ := after
    · exact .inl ⟨⟨roomId, roomCount, fit⟩, wrote, inside⟩
    · exact .inr ⟨fun fit => full fit.2.2, err, _, failed, inside⟩

/-! ## The calls -/

/-- A call that reserves all it may write does all of it, or fails and changes nothing. -/
theorem reserving_whole {n : Nat} {bytes : Bytes}
    {f : CanonEncoder → Except EncodeError CanonEncoder} (enough : bytes.length ≤ n)
    (isAppend : ∀ e, f e = e.append n bytes) (e : CanonEncoder) :
    (reserving f e = (.ok (), e.extended bytes) ∧ (e.extended bytes).Within) ∨
      ∃ err, reserving f e = (.error err, e) := by
  obtain ⟨room, wrote⟩ | ⟨-, failed⟩ := reserving_append isAppend e
  · exact .inl ⟨wrote, room.within enough⟩
  · exact .inr failed

theorem length_varint_le (value : UInt64) : (encodeVarint value).length ≤ 10 :=
  (length_encodeVarint value).2

/-- **A call that is whole writes all of its bytes, or fails and changes nothing; one that is not
fails and leaves some of them.** -/
theorem WriteCall.run_cases (call : WriteCall) (e : CanonEncoder) :
    (call.Whole e ∧ ((call.run e = (.ok (), e.extended call.wire) ∧
        (e.extended call.wire).Within) ∨ ∃ err, call.run e = (.error err, e))) ∨
    (¬ call.Whole e ∧ ∃ err written, written ≠ [] ∧
      call.run e = (.error err, e.extended written) ∧ (e.extended written).Within) := by
  cases call with
  | item item => exact .inl ⟨trivial, reserving_whole item.length_wire.2.1 item.encode_eq e⟩
  | f32 value =>
    have enough : (WriteCall.f32 value).wire.length ≤ 1 + 4 := by simp [wire, wireF32]
    exact .inl ⟨trivial, reserving_whole enough (fun _ => rfl) e⟩
  | f64 value =>
    have enough : (WriteCall.f64 value).wire.length ≤ 1 + 8 := by simp [wire, wireF64]
    exact .inl ⟨trivial, reserving_whole enough (fun _ => rfl) e⟩
  | hlc wallTime logical nodeId =>
    have enough : (WriteCall.hlc wallTime logical nodeId).wire.length ≤
        1 + 10 + 10 + 10 + nodeId.length := by
      have wall := length_varint_le (zigzag wallTime)
      have counter := length_varint_le logical.toUInt64
      have length := length_varint_le (UInt64.ofNat nodeId.length)
      simp only [wire, encodeZigzag, List.length_cons, List.length_append]
      omega
    exact .inl ⟨trivial, reserving_whole enough (fun _ => rfl) e⟩
  | vectorClock entries =>
    have enough : (vectorClockHeader entries).length ≤ 1 + 10 := by
      have count := length_varint_le (UInt64.ofNat entries.length)
      simp only [vectorClockHeader, List.length_cons]
      omega
    show (WriteCall.Whole e (.vectorClock entries) ∧ _) ∨ _
    obtain ⟨room, wrote⟩ | ⟨full, err, failed⟩ := reserving_append
      (fun e => (rfl : e.append (1 + 10) (vectorClockHeader entries) = _)) e
    case inr =>
      refine .inl ⟨fun room => absurd room full, .inr ⟨err, ?_⟩⟩
      simp only [run, encodeVectorClock, Mutating.bind_apply, failed]
    have header := room.within enough
    have ran : (WriteCall.vectorClock entries).run e =
        encodeEntries entries (e.extended (vectorClockHeader entries)) := by
      simp only [run, encodeVectorClock, Mutating.bind_apply, wrote]
    rw [ran]
    have loop := encodeEntries_cases entries _ header
    simp only [CanonEncoder.extended_extended, CanonEncoder.extended_maxSize,
      CanonEncoder.extended_buffer, List.length_append] at loop
    obtain ⟨fit, returned, within⟩ | ⟨full, err, written, failed, within⟩ := loop
    · exact .inl ⟨fun _ => fit, .inl ⟨returned, within⟩⟩
    · exact .inr ⟨fun whole => full (whole room), err, _, by simp [vectorClockHeader], failed,
        within⟩

/-! ## A run -/

theorem runCalls_cons (call : WriteCall) (rest : List WriteCall) (e : CanonEncoder) :
    runCalls (call :: rest) e = match call.run e with
      | (.ok (), e') => ((runCalls rest e').1, call :: (runCalls rest e').2)
      | (.error _, e') => runCalls rest e' := rfl

/-- The limit outlasts every call. -/
theorem runCalls_within (calls : List WriteCall) (e : CanonEncoder) (within : e.Within) :
    (runCalls calls e).1.maxSize = e.maxSize ∧ (runCalls calls e).1.Within := by
  induction calls generalizing e with
  | nil => exact ⟨rfl, within⟩
  | cons call rest ih =>
    rw [runCalls_cons]
    obtain ⟨-, ⟨wrote, inside⟩ | ⟨err, failed⟩⟩ | ⟨-, err, written, -, failed, inside⟩ :=
      call.run_cases e
    · rw [wrote]
      exact ih _ inside
    · rw [failed]
      exact ih e within
    · rw [failed]
      exact ih _ inside

/-- What the calls that returned write stands behind what the encoder had. -/
def Concatenates (calls : List WriteCall) (e : CanonEncoder) : Prop :=
  (runCalls calls e).1.buffer = e.buffer ++ (runCalls calls e).2.flatMap WriteCall.wire

theorem concatenates_of_whole (calls : List WriteCall) (e : CanonEncoder)
    (whole : WholeRun calls e) : Concatenates calls e := by
  induction calls generalizing e with
  | nil => simp [Concatenates, runCalls]
  | cons call rest ih =>
    obtain ⟨here, there⟩ := whole
    unfold Concatenates
    rw [runCalls_cons]
    obtain ⟨-, ⟨wrote, -⟩ | ⟨err, failed⟩⟩ | ⟨cut, -⟩ := call.run_cases e
    · rw [wrote] at there ⊢
      have after := ih _ there
      simp only [Concatenates, CanonEncoder.extended_buffer, List.append_assoc] at after
      simpa using after
    · rw [failed] at there ⊢
      exact ih e there
    · exact absurd here cut

/-- Where every part of a run concatenates, the run is whole. -/
theorem whole_of_concatenates (calls : List WriteCall) (e : CanonEncoder)
    (parts : ∀ n, Concatenates (calls.take n) e) : WholeRun calls e := by
  induction calls generalizing e with
  | nil => trivial
  | cons call rest ih =>
    obtain ⟨whole, ⟨wrote, -⟩ | ⟨err, failed⟩⟩ | ⟨cut, err, written, nonempty, failed, -⟩ :=
      call.run_cases e
    · refine ⟨whole, ih _ fun n => ?_⟩
      have here := parts (n + 1)
      unfold Concatenates at here ⊢
      rw [List.take_succ_cons, runCalls_cons, wrote] at here
      rw [wrote]
      simpa using here
    · refine ⟨whole, ih _ fun n => ?_⟩
      have here := parts (n + 1)
      unfold Concatenates at here ⊢
      rw [List.take_succ_cons, runCalls_cons, failed] at here
      rw [failed]
      exact here
    · have first := parts 1
      unfold Concatenates at first
      rw [List.take_succ_cons, List.take_zero, runCalls_cons, failed] at first
      have nothing : written = [] := by simpa [runCalls] using first
      exact absurd nothing nonempty

theorem WholeRun.take {calls : List WriteCall} {e : CanonEncoder} (whole : WholeRun calls e)
    (n : Nat) : WholeRun (calls.take n) e := by
  induction calls generalizing e n with
  | nil =>
    rw [List.take_nil]
    trivial
  | cons call rest ih =>
    cases n with
    | zero => trivial
    | succ n => exact ⟨whole.1, ih whole.2 n⟩

/-- **An encoder with a limit never exceeds it.  After every call of a run the buffer is the
concatenation of what the calls that returned write, exactly if no vector clock of the run
ends behind its header for want of room.** -/
theorem buffer_concatenates_iff (maxSize : Nat) (calls : List WriteCall) :
    (maxSize > 0 → (runCalls calls (.withLimit maxSize)).1.buffer.length ≤ maxSize) ∧
    ((∀ n, (runCalls (calls.take n) (.withLimit maxSize)).1.buffer =
        (runCalls (calls.take n) (.withLimit maxSize)).2.flatMap WriteCall.wire) ↔
      WholeRun calls (.withLimit maxSize)) := by
  have empty : (CanonEncoder.withLimit maxSize).Within := fun _ => Nat.zero_le _
  obtain ⟨same, within⟩ := runCalls_within calls (.withLimit maxSize) empty
  constructor
  · intro limited
    have bound := within (by rw [same]; exact limited)
    rwa [same] at bound
  · constructor
    · intro parts
      exact whole_of_concatenates calls _ parts
    · intro whole n
      exact concatenates_of_whole _ _ (whole.take n)

/-- A vector clock of one entry for which fourteen bytes are too few: the header and the node
id stay. -/
theorem vectorClock_partial :
    (runCalls [.vectorClock [([], 1)]] (.withLimit 14)).1.buffer = [0xA1, 1, 0xA0, 0] ∧
    (runCalls [.vectorClock [([], 1)]] (.withLimit 14)).2.flatMap WriteCall.wire = [] := by
  decide +kernel

end OneLink.Canon
