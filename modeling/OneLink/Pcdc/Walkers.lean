/-
# Pcdc.Walkers -- the container walkers, with every index and sum checked

The walkers of `format_aware` as they run on machine words: an index outside the buffer, a slice
that does not lie in it and a sum of `2 ^ 64` or more stop the walk.  (With wrapping sums the walk
goes on to an index outside the buffer.)  Each is a loop; in a buffer of a size that exists it comes
to what the walker of `Containers` returns, and only the walk over boxes can stop
(`forcedCuts_returns`).
-/
import OneLink.Library.TrapLoop
import OneLink.Pcdc.Containers
import OneLink.Pcdc.Cut

namespace OneLink.Pcdc.Checked

open Library

set_option autoImplicit false

variable {ε : Type}

/-- `buffer[i + k] == b && ..`, from `k` on. -/
def bytesAre (buffer : Bytes) (i : Nat) : (k : Nat) → Bytes → Except (Stop ε) Bool
  | _, [] => return true
  | k, b :: rest => do
    let byte ← byteAt buffer (← addWord i k)
    if byte = b then bytesAre buffer i (k + 1) rest else return false

/-- `[buffer[i + k], ..]`, of `n` bytes. -/
def bytesAt (buffer : Bytes) (i : Nat) : (k n : Nat) → Except (Stop ε) Bytes
  | _, 0 => return []
  | k, n + 1 => do
    let byte ← byteAt buffer (← addWord i k)
    return byte :: (← bytesAt buffer i (k + 1) n)

/-- What a walk holds: where it is, and the cuts it has collected. -/
structure Walk where
  pos : Nat
  offsets : List Nat

/-! ## H.264 -/

/-- The length of the start code at `i` and the index of the byte behind it. -/
def startCode (buffer : Bytes) (i : Nat) : Except (Stop ε) (Option (Nat × Nat)) := do
  if ← bytesAre buffer i 0 [0, 0, 0, 1] then return some (4, ← addWord i 4)
  else if ← bytesAre buffer i 0 [0, 0, 1] then return some (3, ← addWord i 3)
  else return none

def keyframeTurn (buffer : Bytes) (w : Walk) : Except (Stop ε) (Turn Walk (List Nat)) := do
  if (← addWord w.pos 4) < buffer.length then
    match ← startCode buffer w.pos with
    | none => return .again ⟨← addWord w.pos 1, w.offsets⟩
    | some (startCodeLen, nalByteIdx) =>
      if nalByteIdx ≥ buffer.length then return .leave w.offsets
      else
        let nalByte ← byteAt buffer nalByteIdx
        if nalByte &&& 0x80 ≠ 0 then return .again ⟨← addWord w.pos startCodeLen, w.offsets⟩
        else
          let nalType := nalByte &&& 0x1F
          let offsets := if nalType = 5 ∨ nalType = 7 then w.offsets ++ [w.pos] else w.offsets
          return .again ⟨← addWord w.pos (startCodeLen + 1), offsets⟩
  else return .leave w.offsets

def h264KeyframeOffsets (fuel : Nat) (buffer : Bytes) : Option (Except (Stop ε) (List Nat)) :=
  loop (keyframeTurn buffer) fuel ⟨0, []⟩

/-! ## ISO BMFF -/

/-- The `match size`, or `none` where it breaks. -/
def boxAdvance (buffer : Bytes) (pos size : Nat) : Except (Stop ε) (Option Nat) := do
  if size = 1 then
    if (← addWord pos 16) > buffer.length then return none
    else
      let be ← copyFromSlice 8 (← sliceAt buffer (← addWord pos 8) (← addWord pos 16))
      return some (beValue be.val)
  else if size = 0 then return none
  else return some size

def boxTurn (buffer : Bytes) (w : Walk) : Except (Stop ε) (Turn Walk (List Nat)) := do
  if (← addWord w.pos 8) ≤ buffer.length then
    let size := beValue (← bytesAt buffer w.pos 0 4)
    let kind ← sliceAt buffer (← addWord w.pos 4) (← addWord w.pos 8)
    if isBoxKind kind then
      let offsets := w.offsets ++ [w.pos]
      match ← boxAdvance buffer w.pos size with
      | none => return .leave offsets
      | some advance =>
        match nextBox w.pos advance with
        | none => return .leave offsets
        | some next => return .again ⟨next, offsets⟩
    else return .leave w.offsets
  else return .leave w.offsets

def mp4BoxOffsets (fuel : Nat) (buffer : Bytes) : Option (Except (Stop ε) (List Nat)) :=
  loop (boxTurn buffer) fuel ⟨0, []⟩

/-! ## RIFF -/

def dataChunkTurn (buffer : Bytes) (pos : Nat) : Except (Stop ε) (Turn Nat (Option Nat)) := do
  if (← addWord pos 8) ≤ buffer.length then
    let id ← sliceAt buffer pos (← addWord pos 4)
    let size := leValue (← bytesAt buffer pos 4 4)
    if id = ascii "data" then return .leave (some pos)
    else
      let advance ← addWord (← addWord 8 size) (size % 2)
      if advance < 8 then return .leave none
      else return .again (min (pos + advance) (2 ^ 64 - 1))
  else return .leave none

/-- The test of `wav_data_offset` on the header. -/
def isWave (buffer : Bytes) : Except (Stop ε) Bool := do
  if buffer.length < 12 then return false
  else if (← sliceAt buffer 0 4) ≠ ascii "RIFF" then return false
  else if (← sliceAt buffer 8 12) ≠ ascii "WAVE" then return false
  else return true

def wavDataOffset (fuel : Nat) (buffer : Bytes) : Option (Except (Stop ε) (Option Nat)) :=
  match isWave buffer with
  | .error stop => some (.error stop)
  | .ok false => some (.ok none)
  | .ok true => loop (dataChunkTurn buffer) fuel 12

/-! ## MCAP -/

def recordTurn (buffer : Bytes) (dataEnd : Nat) (w : Walk) :
    Except (Stop ε) (Turn Walk (List Nat)) := do
  if (← addWord w.pos recordHeader) ≤ dataEnd then
    let opcode ← byteAt buffer w.pos
    if opcode = 0 then return .leave w.offsets
    else
      let raw ← sliceAt buffer (← addWord w.pos 1) (← addWord w.pos recordHeader)
      let rawLen ← copyFromSlice 8 raw
      let next := w.pos + recordHeader + leValue rawLen.val
      -- the two `checked_add`
      if next ≥ 2 ^ 64 then return .leave w.offsets
      else if next > dataEnd then return .leave w.offsets
      else return .again ⟨next, w.offsets ++ [w.pos]⟩
  else return .leave w.offsets

/-- Whether the buffer begins as a recording does. -/
def isRecording (buffer : Bytes) : Except (Stop ε) Bool := do
  if buffer.length < mcapMagic.length + recordHeader then return false
  else if buffer.take mcapMagic.length ≠ mcapMagic then return false
  else return (← byteAt buffer mcapMagic.length) = 0x01

/-- Where its records end: before the magic that a complete recording ends with. -/
def dataEnd (buffer : Bytes) : Except (Stop ε) Nat := do
  if buffer.drop (buffer.length - mcapMagic.length) = mcapMagic ∧
      buffer.length ≥ 2 * mcapMagic.length then
    subWord buffer.length mcapMagic.length
  else return buffer.length

def mcapRecordOffsets (fuel : Nat) (buffer : Bytes) : Option (Except (Stop ε) (List Nat)) :=
  match isRecording buffer with
  | .error stop => some (.error stop)
  | .ok false => some (.ok [])
  | .ok true =>
    match dataEnd buffer with
    | .error stop => some (.error stop)
    | .ok stop => loop (recordTurn buffer stop) fuel ⟨mcapMagic.length, []⟩

/-! ## ZIP -/

def zipLfhSanityCheck (tail : Bytes) : Except (Stop ε) Bool := do
  if tail.length < zipLfhFixedLen then return false
  else
    let versionNeeded := leValue (← bytesAt tail 4 0 2)
    let compressionMethod := leValue (← bytesAt tail 8 0 2)
    if versionNeeded > 100 then return false
    else
      return ([0, 1, 6, 8, 9, 12, 14, 18, 19, 20, 93, 94, 95, 96, 97, 98, 99].contains
        compressionMethod)

/-- `buffer[i..i + 4] == ZIP_LFH_MAGIC && zip_lfh_sanity_check(&buffer[i..])` -/
def isLocalHeader (buffer : Bytes) (i : Nat) : Except (Stop ε) Bool := do
  if (← sliceAt buffer i (← addWord i 4)) = zipLfhMagic then
    zipLfhSanityCheck (← sliceAt buffer i buffer.length)
  else return false

def localHeaderTurn (buffer : Bytes) (w : Walk) : Except (Stop ε) (Turn Walk (List Nat)) := do
  match (← sliceAt buffer w.pos buffer.length).findIdx? (· = 0x50) with
  | none => return .leave w.offsets
  | some rel =>
    let i ← addWord w.pos rel
    if (← addWord i 4) > buffer.length then return .leave w.offsets
    else
      let next : Walk ←
        if ← isLocalHeader buffer i then
          pure ⟨← addWord i zipLfhFixedLen, w.offsets ++ [i]⟩
        else pure ⟨← addWord i 1, w.offsets⟩
      if next.pos ≥ buffer.length then return .leave next.offsets
      else return .again next

def zipLfhOffsets (fuel : Nat) (buffer : Bytes) : Option (Except (Stop ε) (List Nat)) :=
  if buffer.length < zipLfhFixedLen then some (.ok [])
  else loop (localHeaderTurn buffer) fuel ⟨0, []⟩

/-! ## Forced cuts -/

/-- `forced_cuts` -/
def forcedCuts (fuel : Nat) (buffer : Bytes) :
    Option ContainerFormat → Option (Except (Stop ε) (List Nat))
  | some .zip => zipLfhOffsets fuel buffer
  | some .mp4 => mp4BoxOffsets fuel buffer
  | some .wav => (wavDataOffset fuel buffer).map (Except.map Option.toList)
  | some .h264AnnexB => h264KeyframeOffsets fuel buffer
  | some .mcap => mcapRecordOffsets fuel buffer
  | none => some (.ok [])

/-! ## Reads inside the buffer -/

theorem addWord_of {a b : Nat} (fits : a + b < 2 ^ 64) :
    (addWord a b : Except (Stop ε) Nat) = .ok (a + b) :=
  addWord_eq_ok.mpr ⟨fits, rfl⟩

theorem sliceAt_of {buffer : Bytes} {start stop : Nat} (order : start ≤ stop)
    (inside : stop ≤ buffer.length) :
    (sliceAt buffer start stop : Except (Stop ε) Bytes) = .ok (slice buffer start stop) :=
  sliceAt_eq_ok.mpr ⟨⟨order, inside⟩, rfl⟩

theorem byteAt_of {buffer : Bytes} {i : Nat} (inside : i < buffer.length) :
    (byteAt buffer i : Except (Stop ε) UInt8) = .ok (buffer.getD i 0) := by
  rw [byteAt_eq_ok, List.getD_eq_getElem?_getD, List.getElem?_eq_getElem inside]
  rfl

theorem slice_self (buffer : Bytes) (n : Nat) : slice buffer n n = [] :=
  List.drop_of_length_le (List.length_take_le _ _)

theorem slice_eq_cons {buffer : Bytes} {lo hi : Nat} (some : lo < hi) (inside : hi ≤ buffer.length) :
    slice buffer lo hi = buffer.getD lo 0 :: slice buffer (lo + 1) hi := by
  have single : slice buffer lo (lo + 1) = [buffer.getD lo 0] := by
    rw [slice_succ (Nat.le_refl lo) (by omega), slice_self]
    rfl
  rw [← slice_append buffer (Nat.le_succ lo) some, single]
  rfl

variable {buffer : Bytes} (fits : buffer.length < 2 ^ 63)

include fits

theorem bytesAre_eq {i k : Nat} {code : Bytes} (inside : i + k + code.length ≤ buffer.length) :
    (bytesAre buffer i k code : Except (Stop ε) Bool) =
      .ok (decide (slice buffer (i + k) (i + k + code.length) = code)) := by
  induction code generalizing k with
  | nil =>
    rw [bytesAre, List.length_nil, Nat.add_zero, slice_self]
    rfl
  | cons b rest ih =>
    rw [List.length_cons] at inside ⊢
    rw [bytesAre, addWord_of (by omega), ok_bind, byteAt_of (by omega), ok_bind,
      slice_eq_cons (by omega) (by omega)]
    split
    · rename_i same
      rw [ih (by omega), same, show i + k + (rest.length + 1) = i + (k + 1) + rest.length by omega,
        show i + k + 1 = i + (k + 1) by omega]
      simp
    · rename_i other
      simp only [List.cons.injEq, other, false_and, decide_false]
      rfl

theorem bytesAt_eq {i k n : Nat} (inside : i + k + n ≤ buffer.length) :
    (bytesAt buffer i k n : Except (Stop ε) Bytes) = .ok (slice buffer (i + k) (i + k + n)) := by
  induction n generalizing k with
  | zero =>
    rw [bytesAt, Nat.add_zero, slice_self]
    rfl
  | succ n ih =>
    rw [bytesAt, addWord_of (by omega), ok_bind, byteAt_of (by omega), ok_bind, ih (by omega),
      slice_eq_cons (show i + k < i + k + (n + 1) by omega) (by omega),
      show i + k + (n + 1) = i + (k + 1) + n by omega, show i + k + 1 = i + (k + 1) by omega]
    rfl

/-! ## H.264 -/

theorem startCode_eq {i : Nat} (inside : i + 4 < buffer.length) :
    (startCode buffer i : Except (Stop ε) _) =
      .ok (if startCodeLen buffer i = 0 then none
        else some (startCodeLen buffer i, i + startCodeLen buffer i)) := by
  rw [startCode, bytesAre_eq fits (by simp only [List.length_cons, List.length_nil]; omega),
    bytesAre_eq fits (by simp only [List.length_cons, List.length_nil]; omega)]
  simp only [ok_bind, startCodeLen, addWord_of (show i + 4 < 2 ^ 64 by omega),
    addWord_of (show i + 3 < 2 ^ 64 by omega), List.length_cons, List.length_nil, Nat.add_zero]
  by_cases long : slice buffer i (i + 4) = [0, 0, 0, 1]
  · simp [long, pure_eq_ok_iff]
  · by_cases short : slice buffer i (i + 3) = [0, 0, 1]
    · simp [long, short, pure_eq_ok_iff]
    · simp [long, short, pure_eq_ok_iff]

theorem keyframes_computes : Computes (keyframeTurn (ε := ε) buffer)
    (fun w => w.pos ≤ buffer.length) (fun w => buffer.length - w.pos)
    (fun w => .ok (w.offsets ++ keyframesFrom buffer w.pos)) := by
  intro w inside
  have here := keyframesFrom.eq_def buffer w.pos
  rw [keyframeTurn, addWord_of (by omega), ok_bind]
  by_cases more : w.pos + 4 < buffer.length
  · rw [dif_pos more] at here
    rw [if_pos more, startCode_eq fits more]
    have short : startCodeLen buffer w.pos ≤ 4 := by
      unfold startCodeLen
      split
      · exact Nat.le_refl 4
      · split <;> omega
    by_cases none : startCodeLen buffer w.pos = 0
    · rw [dif_pos none] at here
      rw [if_pos none]
      simp only [ok_bind, addWord_of (show w.pos + 1 < 2 ^ 64 by omega)]
      exact ⟨by dsimp only; omega, by dsimp only; omega, by simp only [here]⟩
    · have inBuffer : ¬ w.pos + startCodeLen buffer w.pos ≥ buffer.length := by omega
      rw [dif_neg none, if_neg inBuffer] at here
      rw [if_neg none]
      simp only [ok_bind, if_neg inBuffer, byteAt_of (Nat.lt_of_not_le inBuffer),
        addWord_of (show w.pos + startCodeLen buffer w.pos < 2 ^ 64 by omega),
        addWord_of (show w.pos + (startCodeLen buffer w.pos + 1) < 2 ^ 64 by omega)]
      split
      · rename_i forbidden
        rw [if_pos forbidden] at here
        exact ⟨by dsimp only; omega, by dsimp only; omega, by simp only [here]⟩
      · rename_i allowed
        rw [if_neg allowed] at here
        refine ⟨by dsimp only; omega, by dsimp only; omega, ?_⟩
        simp only [here, Nat.add_assoc]
        split
        · simp only [List.append_assoc, List.singleton_append]
        · rfl
  · rw [dif_neg more] at here
    rw [if_neg more]
    show Except.ok _ = Except.ok _
    rw [here, List.append_nil]

/-! ## ISO BMFF -/

theorem boxAdvance_eq {pos : Nat} (inside : pos + 8 ≤ buffer.length) :
    (boxAdvance buffer pos (beValue (slice buffer pos (pos + 4))) : Except (Stop ε) _) =
      .ok (Pcdc.boxAdvance buffer pos) := by
  simp only [boxAdvance, Pcdc.boxAdvance]
  split
  · rw [addWord_of (by omega), ok_bind]
    split
    · rfl
    · rename_i room
      have length : (slice buffer (pos + 8) (pos + 16)).length = 8 := by
        rw [length_slice]
        omega
      rw [addWord_of (by omega), ok_bind, ok_bind, sliceAt_of (by omega) (by omega), ok_bind,
        copyFromSlice, dif_pos length]
      rfl
  · split
    · rfl
    · rfl

/-- What the walk over boxes comes to from here. -/
def boxesValue (buffer : Bytes) (w : Walk) : Except (Stop ε) (List Nat) :=
  match boxesFrom buffer w.pos with
  | none => .error .trap
  | some cuts => .ok (w.offsets ++ cuts)

theorem boxes_computes : Computes (boxTurn (ε := ε) buffer) (fun w => w.pos < 2 ^ 64)
    (fun w => buffer.length - w.pos) (boxesValue buffer) := by
  intro w inside
  have here := boxesFrom.eq_def buffer w.pos
  rw [boxTurn]
  by_cases wraps : w.pos + 8 ≥ 2 ^ 64
  · rw [if_pos wraps] at here
    rw [addWord, require, if_neg (Nat.not_lt.mpr wraps)]
    show boxesValue buffer w = _
    rw [boxesValue, here]
  rw [if_neg wraps] at here
  rw [addWord_of (by omega), ok_bind]
  by_cases more : w.pos + 8 ≤ buffer.length
  · rw [dif_pos more] at here
    rw [if_pos more, bytesAt_eq fits (by omega), ok_bind, addWord_of (by omega), ok_bind, ok_bind,
      sliceAt_of (by omega) more, ok_bind]
    simp only [Nat.add_zero, boxAdvance_eq fits more]
    split
    · rename_i kind
      rw [if_pos kind] at here
      rw [ok_bind]
      split
      · rename_i stops
        rw [stops, Option.bind_none] at here
        show boxesValue buffer w = _
        rw [boxesValue, here]
      · rename_i advance found
        rw [found, Option.bind_some] at here
        split
        · rename_i stops
          rw [stops] at here
          show boxesValue buffer w = _
          rw [boxesValue, here]
        · rename_i next goes
          rw [goes] at here
          have onward : boxesFrom buffer w.pos = (boxesFrom buffer next).map (w.pos :: ·) := here
          have ahead := nextBox_eq_some goes
          refine ⟨?_, by dsimp only; omega, ?_⟩
          · rw [nextBox] at goes
            split at goes
            · cases goes
            · split at goes
              · cases goes
              · obtain rfl := Option.some.inj goes
                dsimp only
                omega
          · rw [boxesValue, boxesValue, onward]
            cases boxesFrom buffer next with
            | none => rfl
            | some cuts =>
              show Except.ok (w.offsets ++ [w.pos] ++ cuts) = Except.ok (w.offsets ++ w.pos :: cuts)
              rw [List.append_assoc, List.singleton_append]
    · rename_i other
      rw [if_neg other] at here
      show boxesValue buffer w = _
      rw [boxesValue, here]
      exact congrArg Except.ok (List.append_nil _)
  · rw [dif_neg more] at here
    rw [if_neg more]
    show boxesValue buffer w = _
    rw [boxesValue, here]
    exact congrArg Except.ok (List.append_nil _)

/-! ## RIFF -/

theorem dataChunk_computes : Computes (dataChunkTurn (ε := ε) buffer)
    (fun pos => pos ≤ buffer.length + 2 ^ 33) (fun pos => buffer.length - pos)
    (fun pos => .ok (dataChunkFrom buffer pos)) := by
  intro pos inside
  have here := dataChunkFrom.eq_def buffer pos
  rw [dataChunkTurn, addWord_of (by omega), ok_bind]
  by_cases more : pos + 8 ≤ buffer.length
  · rw [dif_pos more] at here
    rw [if_pos more, addWord_of (by omega), ok_bind, sliceAt_of (by omega) (by omega), ok_bind,
      bytesAt_eq fits (by omega), ok_bind]
    split
    · rename_i found
      rw [if_pos found] at here
      exact congrArg Except.ok here
    · rename_i other
      have size := leValue_lt (slice buffer (pos + 4) (pos + 4 + 4))
      have width : (slice buffer (pos + 4) (pos + 4 + 4)).length = 4 := by
        rw [length_slice]
        omega
      rw [if_neg other, riffAdvance, slice_slice buffer pos (Nat.le_refl 8)] at here
      rw [width] at size
      simp only [Nat.add_assoc, Nat.reduceAdd] at here size ⊢
      generalize leValue (slice buffer (pos + 4) (pos + 8)) = size at *
      rw [addWord_of (by omega), ok_bind, addWord_of (by omega), ok_bind, if_neg (by omega),
        Nat.min_eq_left (by omega)]
      refine ⟨by dsimp only; omega, by dsimp only; omega, ?_⟩
      dsimp only
      rw [here, Nat.add_assoc 8]
  · rw [dif_neg more] at here
    rw [if_neg more]
    exact congrArg Except.ok here

theorem isWave_eq : (isWave buffer : Except (Stop ε) Bool) =
    .ok (decide (¬ (buffer.length < 12 ∨ slice buffer 0 4 ≠ ascii "RIFF" ∨
      slice buffer 8 12 ≠ ascii "WAVE"))) := by
  rw [isWave]
  by_cases short : buffer.length < 12
  · simp [short, pure_eq_ok_iff]
  · rw [if_neg short, sliceAt_of (by omega) (by omega), ok_bind, sliceAt_of (by omega) (by omega), ok_bind]
    by_cases riff : slice buffer 0 4 = ascii "RIFF"
    · by_cases wave : slice buffer 8 12 = ascii "WAVE"
      · simp [short, riff, wave, pure_eq_ok_iff]
      · simp [wave, riff, pure_eq_ok_iff]
    · simp [riff, pure_eq_ok_iff]

theorem wavDataOffset_returns : Returns (ε := ε) (fun fuel => wavDataOffset fuel buffer)
    (.ok (Pcdc.wavDataOffset buffer)) := by
  simp only [wavDataOffset, isWave_eq fits, Pcdc.wavDataOffset]
  by_cases other : buffer.length < 12 ∨ slice buffer 0 4 ≠ ascii "RIFF" ∨ slice buffer 8 12 ≠ ascii "WAVE"
  · simp only [not_true_eq_false, other, decide_false]
    exact returns_some _
  · simp only [not_false_eq_true, other, decide_true]
    exact (dataChunk_computes fits).returns (show 12 ≤ buffer.length + 2 ^ 33 by omega)

/-! ## MCAP -/

omit fits in
variable (buffer) in
theorem recordsFrom_step {stop pos : Nat} (more : pos + recordHeader ≤ stop) :
    recordsFrom buffer stop pos =
      match nextRecord stop pos (slice buffer pos (pos + recordHeader)) with
      | none => []
      | some next => pos :: recordsFrom buffer stop next := by
  rw [recordsFrom, dif_pos more]
  split
  · rename_i stops
    rw [stops]
  · rename_i next goes
    rw [goes]

theorem records_computes {stop : Nat} (inside : stop ≤ buffer.length) :
    Computes (recordTurn (ε := ε) buffer stop) (fun w => w.pos ≤ stop) (fun w => stop - w.pos)
      (fun w => .ok (w.offsets ++ recordsFrom buffer stop w.pos)) := by
  intro w low
  have header : recordHeader = 9 := rfl
  have stays (none : recordsFrom buffer stop w.pos = []) :
      (.ok (w.offsets ++ recordsFrom buffer stop w.pos) : Except (Stop ε) _) = .ok w.offsets := by
    rw [none, List.append_nil]
  rw [recordTurn, addWord_of (by omega), ok_bind]
  by_cases more : w.pos + recordHeader ≤ stop
  · have here := recordsFrom_step buffer more
    have opcode : (slice buffer w.pos (w.pos + recordHeader)).getD 0 0 = buffer.getD w.pos 0 :=
      getD_slice (by decide)
    rw [if_pos more, byteAt_of (by omega), ok_bind]
    simp only [nextRecord, opcode, slice_slice buffer w.pos (Nat.le_refl recordHeader)] at here
    split
    · rename_i stops
      rw [if_pos stops] at here
      exact stays here
    · rename_i goes
      have length : (slice buffer (w.pos + 1) (w.pos + recordHeader)).length = 8 := by
        rw [length_slice]
        omega
      rw [if_neg goes] at here
      rw [addWord_of (by omega), ok_bind, ok_bind, sliceAt_of (by omega) (by omega), ok_bind,
        copyFromSlice, dif_pos length, ok_bind]
      dsimp only
      split
      · rename_i wraps
        rw [if_pos wraps] at here
        exact stays here
      · rename_i small
        rw [if_neg small] at here
        split
        · rename_i outside
          rw [if_pos outside] at here
          exact stays here
        · rename_i within
          rw [if_neg within] at here
          refine ⟨Nat.le_of_not_gt within, by dsimp only; omega, ?_⟩
          dsimp only at here ⊢
          rw [here, List.append_assoc, List.singleton_append]
  · rw [if_neg more]
    exact stays (by rw [recordsFrom, dif_neg more])

omit fits in
theorem isRecording_eq : (isRecording buffer : Except (Stop ε) Bool) =
    .ok (decide (¬ (buffer.length < mcapMagic.length + recordHeader ∨
      slice buffer 0 mcapMagic.length ≠ mcapMagic ∨ buffer.getD mcapMagic.length 0 ≠ 0x01))) := by
  have front : slice buffer 0 mcapMagic.length = buffer.take mcapMagic.length := rfl
  have width : mcapMagic.length = 8 := rfl
  have header : recordHeader = 9 := rfl
  rw [isRecording, front]
  by_cases short : buffer.length < mcapMagic.length + recordHeader
  · simp [short, pure_eq_ok_iff]
  · rw [if_neg short, byteAt_of (by omega), ok_bind]
    by_cases magic : buffer.take mcapMagic.length = mcapMagic
    · simp [short, magic, pure_eq_ok_iff]
    · simp [magic, pure_eq_ok_iff]

theorem mcapRecordOffsets_returns : Returns (ε := ε) (fun fuel => mcapRecordOffsets fuel buffer)
    (.ok (Pcdc.mcapRecordOffsets buffer)) := by
  have width : mcapMagic.length = 8 := rfl
  have tail : slice buffer (buffer.length - mcapMagic.length) buffer.length =
      buffer.drop (buffer.length - mcapMagic.length) := by
    rw [slice, List.take_length]
  simp only [mcapRecordOffsets, isRecording_eq, Pcdc.mcapRecordOffsets]
  by_cases other : buffer.length < mcapMagic.length + recordHeader ∨
      slice buffer 0 mcapMagic.length ≠ mcapMagic ∨ buffer.getD mcapMagic.length 0 ≠ 0x01
  · simp only [not_true_eq_false, other, decide_false]
    exact returns_some _
  · have long : mcapMagic.length + recordHeader ≤ buffer.length := by
      by_contra short
      exact other (.inl (by omega))
    have stop_eq : (dataEnd buffer : Except (Stop ε) Nat) = .ok (
        if buffer.drop (buffer.length - mcapMagic.length) = mcapMagic ∧
          buffer.length ≥ 2 * mcapMagic.length then buffer.length - mcapMagic.length
        else buffer.length) := by
      rw [dataEnd, subWord_eq_ok.mpr ⟨by omega, rfl⟩]
      split <;> rfl
    simp only [not_false_eq_true, other, decide_true, tail, stop_eq]
    refine (records_computes fits ?_).returns ?_
    · split <;> omega
    · show mcapMagic.length ≤ _
      have header : recordHeader = 9 := rfl
      split <;> omega

/-! ## ZIP -/

theorem zipLfhSanityCheck_eq : (zipLfhSanityCheck buffer : Except (Stop ε) Bool) =
    .ok (Pcdc.zipLfhSanityCheck buffer) := by
  have header : zipLfhFixedLen = 30 := rfl
  rw [zipLfhSanityCheck, Pcdc.zipLfhSanityCheck]
  split
  · rfl
  · rw [bytesAt_eq fits (by omega), ok_bind, bytesAt_eq fits (by omega), ok_bind]
    simp only [Nat.add_zero, Nat.reduceAdd]
    split
    · rfl
    · rfl

theorem isLocalHeader_eq {i : Nat} (inside : i + 4 ≤ buffer.length) :
    (isLocalHeader buffer i : Except (Stop ε) Bool) =
      .ok (decide (slice buffer i (i + 4) = zipLfhMagic ∧ Pcdc.zipLfhSanityCheck (buffer.drop i))) := by
  have tail : slice buffer i buffer.length = buffer.drop i := by
    rw [slice, List.take_length]
  have shorter : (buffer.drop i).length < 2 ^ 63 := by
    rw [List.length_drop]
    omega
  rw [isLocalHeader, addWord_of (by omega), ok_bind, sliceAt_of (by omega) inside, ok_bind,
    sliceAt_of (by omega) (Nat.le_refl _), ok_bind, tail]
  split
  · rename_i magic
    rw [zipLfhSanityCheck_eq shorter]
    simp [magic]
  · rename_i other
    simp [other, pure_eq_ok_iff]

theorem localHeaders_computes : Computes (localHeaderTurn (ε := ε) buffer)
    (fun w => w.pos ≤ buffer.length) (fun w => buffer.length - w.pos)
    (fun w => .ok (w.offsets ++ localHeadersFrom buffer w.pos)) := by
  intro w inside
  have header : zipLfhFixedLen = 30 := rfl
  have here := localHeadersFrom.eq_def buffer w.pos
  have tail : slice buffer w.pos buffer.length = buffer.drop w.pos := by
    rw [slice, List.take_length]
  have stays (none : localHeadersFrom buffer w.pos = []) :
      (.ok (w.offsets ++ localHeadersFrom buffer w.pos) : Except (Stop ε) _) = .ok w.offsets := by
    rw [none, List.append_nil]
  rw [localHeaderTurn, sliceAt_of inside (Nat.le_refl _), ok_bind, tail]
  cases found : (buffer.drop w.pos).findIdx? (· = 0x50) with
  | none =>
    rw [found] at here
    exact stays here
  | some rel =>
    rw [found] at here
    have before := (List.findIdx?_eq_some_iff_getElem.mp found).1
    rw [List.length_drop] at before
    dsimp only at here ⊢
    rw [addWord_of (by omega), ok_bind, addWord_of (by omega), ok_bind]
    split
    · rename_i short
      rw [if_pos short] at here
      exact stays here
    · rename_i long
      rw [if_neg long] at here
      rw [isLocalHeader_eq fits (by omega), addWord_of (by omega), addWord_of (by omega)]
      by_cases isHeader : slice buffer (w.pos + rel) (w.pos + rel + 4) = zipLfhMagic ∧
          Pcdc.zipLfhSanityCheck (buffer.drop (w.pos + rel)) = true
      · rw [if_pos isHeader] at here
        simp only [isHeader, ok_bind, pure_bind, and_self, decide_true, if_true]
        split
        · rename_i ended
          rw [dif_neg (by omega)] at here
          exact congrArg (fun cuts => Except.ok (w.offsets ++ cuts)) here
        · rename_i more
          rw [dif_pos (by omega)] at here
          refine ⟨by dsimp only; omega, by dsimp only; omega, ?_⟩
          dsimp only
          rw [here, List.append_assoc, List.singleton_append]
      · rw [if_neg isHeader] at here
        simp only [isHeader, ok_bind, pure_bind, decide_false, Bool.false_eq_true, if_false]
        split
        · rename_i ended
          rw [dif_neg (by omega)] at here
          exact stays here
        · rename_i more
          rw [dif_pos (by omega)] at here
          refine ⟨by dsimp only; omega, by dsimp only; omega, ?_⟩
          dsimp only
          rw [here]

theorem zipLfhOffsets_returns : Returns (ε := ε) (fun fuel => zipLfhOffsets fuel buffer)
    (.ok (Pcdc.zipLfhOffsets buffer)) := by
  simp only [zipLfhOffsets, Pcdc.zipLfhOffsets]
  split
  · exact returns_some _
  · exact (localHeaders_computes fits).returns (Nat.zero_le _)

/-! ## All formats -/

/-- **Every walk ends**, with the cuts of `Containers`, and only the one over boxes may trap. -/
theorem forcedCuts_returns (format : Option ContainerFormat) :
    Returns (ε := ε) (fun fuel => forcedCuts fuel buffer format)
      (orTrap (Pcdc.forcedCuts buffer format)) := by
  cases format with
  | none => exact returns_some _
  | some format =>
    cases format with
    | zip => exact zipLfhOffsets_returns fits
    | mp4 =>
      have walked := (boxes_computes (ε := ε) fits).returns (s := ⟨0, []⟩) (by decide)
      have value : boxesValue (ε := ε) buffer ⟨0, []⟩ = orTrap (Pcdc.mp4BoxOffsets buffer) := by
        rw [boxesValue, Pcdc.mp4BoxOffsets]
        cases boxesFrom buffer 0 with
        | none => rfl
        | some cuts => rfl
      rw [value] at walked
      exact walked
    | wav => exact (wavDataOffset_returns fits).map (Except.map Option.toList)
    | h264AnnexB => exact (keyframes_computes fits).returns (s := ⟨0, []⟩) (Nat.zero_le _)
    | mcap => exact mcapRecordOffsets_returns fits

end OneLink.Pcdc.Checked
