/-
# State.RemoteInstruction — the replay wall of remote instructions

`mark_remote_instruction_seen` prunes what has expired, inserts the command id
unless it is there or the table is full, and answers whether the id was new.
What the insert can do is `insertOrIgnore_cases`; one call keeps live evidence
(`mem_afterMark`), and so does a sequence of calls (`mem_run_of_unexpired`).

Types the source checks with `isinstance` are types here; a call carries the
clock value it reads.
-/
import Mathlib
import OneLink.Library.Checked
import OneLink.Library.Run

namespace OneLink.State

open Library

set_option autoImplicit false

def maxRemoteInstructionSeenRows : Nat := 65536

def maxRemoteInstructionReplayRetentionMs : Int := 16 * 60 * 1000

/-- `_LOWER_HEX_CHARS` -/
def lowerHexChars : List Char := "0123456789abcdef".toList

structure RemoteInstruction where
  commandId : String
  expiresMs : Int
  action : String
  controllerDevicePub : Option (List UInt8)
  targetDevicePub : Option (List UInt8)
  nowMs : Int
  deriving DecidableEq

/-- A row of `remote_instruction_seen`. -/
structure SeenRow where
  commandId : String
  firstSeenMs : Int
  expiresMs : Int
  action : String
  controllerDevicePub : Option (List UInt8)
  targetDevicePub : Option (List UInt8)
  deriving DecidableEq

/-- `command_id` is the primary key. -/
structure SeenTable where
  rows : List SeenRow
  distinct : (rows.map SeenRow.commandId).Nodup

inductive RemoteInstructionError where
  | commandIdNotHex
  | timestampOutOfRange
  | expiresNotInFuture
  | expiresExceedsRetention
  | actionInvalid
  | controllerDevicePubLength
  | targetDevicePubLength
  | replayCacheFull
  deriving DecidableEq, Repr

namespace RemoteInstructionError

def message : RemoteInstructionError → String
  | commandIdNotHex => "command_id must be lowercase SHA-256 hex"
  | timestampOutOfRange => "remote instruction timestamp out of range"
  | expiresNotInFuture => "expires_ms must be in the future"
  | expiresExceedsRetention => "expires_ms exceeds replay retention limit"
  | actionInvalid => "action is invalid"
  | controllerDevicePubLength => "controller_device_pub must be 32 bytes"
  | targetDevicePubLength => "target_device_pub must be 32 bytes"
  | replayCacheFull => "remote instruction replay cache is full"

end RemoteInstructionError

namespace RemoteInstruction

def validate (c : RemoteInstruction) : Except RemoteInstructionError Unit := do
  require (c.commandId.length = 64 ∧ ∀ ch ∈ c.commandId.toList, ch ∈ lowerHexChars)
    .commandIdNotHex
  require (0 ≤ c.nowMs ∧ c.nowMs ≤ 2 ^ 63 - 1 ∧ 0 ≤ c.expiresMs ∧ c.expiresMs ≤ 2 ^ 63 - 1)
    .timestampOutOfRange
  require (c.nowMs < c.expiresMs) .expiresNotInFuture
  require (c.expiresMs - c.nowMs ≤ maxRemoteInstructionReplayRetentionMs) .expiresExceedsRetention
  require (c.action.length ≤ 80 ∧ ∀ ch ∈ c.action.toList, 0x20 ≤ ch.toNat ∧ ch.toNat ≠ 0x7F)
    .actionInvalid
  require (∀ pub ∈ c.controllerDevicePub, pub.length = 32) .controllerDevicePubLength
  require (∀ pub ∈ c.targetDevicePub, pub.length = 32) .targetDevicePubLength

def row (c : RemoteInstruction) : SeenRow where
  commandId := c.commandId
  firstSeenMs := c.nowMs
  expiresMs := c.expiresMs
  action := c.action
  controllerDevicePub := c.controllerDevicePub
  targetDevicePub := c.targetDevicePub

end RemoteInstruction

namespace SeenTable

def empty : SeenTable := ⟨[], List.nodup_nil⟩

/-- The rows that have not expired at `now`. -/
def liveRows (t : SeenTable) (now : Int) : List SeenRow :=
  t.rows.filter fun row => now < row.expiresMs

/-- `DELETE FROM remote_instruction_seen WHERE expires_ms <= now` -/
def prune (t : SeenTable) (now : Int) : SeenTable where
  rows := t.liveRows now
  distinct := t.distinct.sublist (List.filter_sublist.map _)

def Seen (t : SeenTable) (commandId : String) : Prop :=
  ∃ row ∈ t.rows, row.commandId = commandId

instance (t : SeenTable) (commandId : String) : Decidable (t.Seen commandId) :=
  inferInstanceAs (Decidable (∃ row ∈ t.rows, row.commandId = commandId))

def insert (t : SeenTable) (row : SeenRow) (fresh : ¬ t.Seen row.commandId) : SeenTable where
  rows := t.rows ++ [row]
  distinct := by
    rw [List.map_append, List.nodup_append]
    refine ⟨t.distinct, by simp, ?_⟩
    intro id seen id' here same
    simp only [List.map_cons, List.map_nil, List.mem_singleton] at here
    obtain ⟨row', present, rfl⟩ := List.mem_map.mp seen
    exact fresh ⟨row', present, same.trans here⟩

end SeenTable

/-- `INSERT OR IGNORE ... WHERE (SELECT COUNT(*)) < MAX` and the answer read from it:
a present id is ignored, and so is any id when the table is full. -/
def insertOrIgnore (t : SeenTable) (row : SeenRow) :
    Except RemoteInstructionError Bool × SeenTable :=
  if fresh : ¬ t.Seen row.commandId then
    if t.rows.length < maxRemoteInstructionSeenRows then (.ok true, t.insert row fresh)
    else (.error .replayCacheFull, t)
  else (.ok false, t)

/-- `mark_remote_instruction_seen` -/
def markRemoteInstructionSeen (t : SeenTable) (c : RemoteInstruction) :
    Except RemoteInstructionError Bool × SeenTable :=
  match c.validate with
  | .error err => (.error err, t)
  | .ok () => insertOrIgnore (t.prune c.nowMs) c.row

def afterMark (t : SeenTable) (c : RemoteInstruction) : SeenTable :=
  (markRemoteInstructionSeen t c).2

/-! ## One call -/

namespace SeenTable

theorem mem_liveRows {t : SeenTable} {now : Int} {row : SeenRow} :
    row ∈ t.liveRows now ↔ row ∈ t.rows ∧ now < row.expiresMs := by
  simp [liveRows]

/-- Everything `insertOrIgnore` can do. -/
theorem insertOrIgnore_cases (t : SeenTable) (row : SeenRow) :
    (∃ fresh : ¬ t.Seen row.commandId, t.rows.length < maxRemoteInstructionSeenRows ∧
      insertOrIgnore t row = (.ok true, t.insert row fresh)) ∨
    (¬ t.Seen row.commandId ∧ maxRemoteInstructionSeenRows ≤ t.rows.length ∧
      insertOrIgnore t row = (.error .replayCacheFull, t)) ∨
    (t.Seen row.commandId ∧ insertOrIgnore t row = (.ok false, t)) := by
  unfold insertOrIgnore
  by_cases fresh : ¬ t.Seen row.commandId
  · by_cases room : t.rows.length < maxRemoteInstructionSeenRows
    · exact .inl ⟨fresh, room, by rw [dif_pos fresh, if_pos room]⟩
    · exact .inr (.inl ⟨fresh, Nat.not_lt.mp room, by rw [dif_pos fresh, if_neg room]⟩)
  · exact .inr (.inr ⟨not_not.mp fresh, by rw [dif_neg fresh]⟩)

/-- A row that has not expired when a call is made survives the call. -/
theorem mem_afterMark {t : SeenTable} {c : RemoteInstruction} {row : SeenRow}
    (present : row ∈ t.rows) (live : c.nowMs < row.expiresMs) : row ∈ (afterMark t c).rows := by
  have kept : row ∈ (t.prune c.nowMs).rows := mem_liveRows.mpr ⟨present, live⟩
  unfold afterMark markRemoteInstructionSeen
  split
  · exact present
  · obtain ⟨fresh, _, done⟩ | ⟨_, _, done⟩ | ⟨_, done⟩ :=
      insertOrIgnore_cases (t.prune c.nowMs) c.row
    · rw [done]
      exact List.mem_append_left _ kept
    · rw [done]
      exact kept
    · rw [done]
      exact kept

/-- The row a call answered "new" for is in the table after it. -/
theorem row_mem_afterMark {t : SeenTable} {c : RemoteInstruction}
    (new : (markRemoteInstructionSeen t c).1 = .ok true) : c.row ∈ (afterMark t c).rows := by
  unfold afterMark
  unfold markRemoteInstructionSeen at new ⊢
  split at new
  · cases new
  · obtain ⟨fresh, _, done⟩ | ⟨_, _, done⟩ | ⟨_, done⟩ :=
      insertOrIgnore_cases (t.prune c.nowMs) c.row
    · rw [done]
      exact List.mem_append_right _ List.mem_cons_self
    · rw [done] at new
      cases new
    · rw [done] at new
      cases new

theorem not_new_of_seen {t : SeenTable} {c : RemoteInstruction} {row : SeenRow}
    (present : row ∈ t.rows) (live : c.nowMs < row.expiresMs)
    (same : row.commandId = c.commandId) : (markRemoteInstructionSeen t c).1 ≠ .ok true := by
  have seen : (t.prune c.nowMs).Seen c.row.commandId :=
    ⟨row, mem_liveRows.mpr ⟨present, live⟩, same⟩
  unfold markRemoteInstructionSeen
  split
  · simp
  · obtain ⟨fresh, _, _⟩ | ⟨fresh, _, _⟩ | ⟨_, done⟩ :=
      insertOrIgnore_cases (t.prune c.nowMs) c.row
    · exact absurd seen fresh
    · exact absurd seen fresh
    · simp [done]

theorem refuses_of_full {t : SeenTable} {c : RemoteInstruction}
    (full : maxRemoteInstructionSeenRows ≤ (t.liveRows c.nowMs).length)
    (fresh : ∀ row ∈ t.liveRows c.nowMs, row.commandId ≠ c.commandId) :
    ∃ err, (markRemoteInstructionSeen t c).1 = .error err := by
  unfold markRemoteInstructionSeen
  split
  · rename_i err _
    exact ⟨err, rfl⟩
  · obtain ⟨_, room, _⟩ | ⟨_, _, done⟩ | ⟨⟨row, present, same⟩, _⟩ :=
      insertOrIgnore_cases (t.prune c.nowMs) c.row
    · exact absurd room (Nat.not_lt.mpr full)
    · exact ⟨.replayCacheFull, by rw [done]⟩
    · exact absurd same (fresh row present)

end SeenTable

/-! ## Sequences of calls -/

open SeenTable

/-- Evidence stays while no call's clock has reached its expiry. -/
theorem mem_run_of_unexpired {t : SeenTable} {calls : List RemoteInstruction} {row : SeenRow}
    (present : row ∈ t.rows) (live : ∀ c ∈ calls, c.nowMs < row.expiresMs) :
    row ∈ (run afterMark t calls).rows := by
  induction calls generalizing t with
  | nil => exact present
  | cons c rest ih =>
    have kept := mem_afterMark present (live c List.mem_cons_self)
    exact ih kept fun c' later => live c' (List.mem_cons_of_mem c later)

/-- At most once: between a call that answered "new" and the expiry it carried,
no call answers "new" for the same id; no live evidence is evicted; and a table
full of live evidence refuses. -/
theorem remote_instructions_execute_at_most_once (t : SeenTable) (calls : List RemoteInstruction)
    (clock : (calls.map RemoteInstruction.nowMs).Pairwise (· ≤ ·)) :
    (∀ early first middle second late, calls = early ++ first :: middle ++ second :: late →
      second.commandId = first.commandId → second.nowMs < first.expiresMs →
      (markRemoteInstructionSeen (run afterMark t early) first).1 = .ok true →
      (markRemoteInstructionSeen (run afterMark t (early ++ first :: middle)) second).1
        ≠ .ok true) ∧
    (∀ early c late, calls = early ++ c :: late →
      ∀ row ∈ (run afterMark t early).rows, c.nowMs < row.expiresMs →
        row ∈ (run afterMark t (early ++ [c])).rows) ∧
    (∀ early c late, calls = early ++ c :: late →
      maxRemoteInstructionSeenRows ≤ ((run afterMark t early).liveRows c.nowMs).length →
      (∀ row ∈ (run afterMark t early).liveRows c.nowMs, row.commandId ≠ c.commandId) →
      ∃ err, (markRemoteInstructionSeen (run afterMark t early) c).1 = .error err) := by
  refine ⟨?_, ?_, ?_⟩
  · rintro early first middle second late rfl same unexpired new
    -- the clock of every call in between is at most the second call's
    have before : ∀ c ∈ middle, c.nowMs < first.expiresMs := by
      intro c within
      rw [List.map_append, List.map_append, List.pairwise_append] at clock
      have ordered : c.nowMs ≤ second.nowMs :=
        clock.2.2 c.nowMs (by simp; exact .inr (.inr ⟨c, within, rfl⟩)) second.nowMs (by simp)
      omega
    rw [run_append, run_cons]
    have recorded := mem_run_of_unexpired (row_mem_afterMark new) before
    exact not_new_of_seen recorded unexpired same.symm
  · rintro early c late rfl row present live
    rw [run_append, run_cons, run_nil]
    exact mem_afterMark present live
  · rintro early c late rfl full fresh
    exact refuses_of_full full fresh

@[irreducible]
def sampleCommandId : String := String.ofList (List.replicate 64 'f')

theorem sampleCommandId_hex :
    sampleCommandId.length = 64 ∧ ∀ ch ∈ sampleCommandId.toList, ch ∈ lowerHexChars := by
  have hex : 'f' ∈ lowerHexChars := by decide
  unfold sampleCommandId
  rw [String.length_ofList, String.toList_ofList]
  refine ⟨List.length_replicate, fun ch present => ?_⟩
  rw [List.eq_of_mem_replicate present]
  exact hex

def sampleInstruction (now : Int) : RemoteInstruction where
  commandId := sampleCommandId
  expiresMs := 1000
  action := "lock"
  controllerDevicePub := none
  targetDevicePub := none
  nowMs := now

/-- The same command at 0 ms and again one millisecond before it expires. -/
theorem remote_instructions_execute_at_most_once_sample :
    (markRemoteInstructionSeen SeenTable.empty (sampleInstruction 0)).1 = .ok true ∧
      (markRemoteInstructionSeen (run afterMark SeenTable.empty [sampleInstruction 0])
        (sampleInstruction 999)).1 ≠ .ok true := by
  have valid : (sampleInstruction 0).validate = .ok () := by
    simp only [RemoteInstruction.validate, bind_eq_ok, require_eq_ok, exists_const]
    refine ⟨sampleCommandId_hex, by decide, by decide, by decide, ⟨?_, ?_⟩, by decide, by decide⟩
    · show "lock".length ≤ 80
      decide
    · simp [sampleInstruction]
  have new : (markRemoteInstructionSeen SeenTable.empty (sampleInstruction 0)).1 = .ok true := by
    rw [markRemoteInstructionSeen, valid]
    rfl
  refine ⟨new, ?_⟩
  have clock : ([sampleInstruction 0, sampleInstruction 999].map RemoteInstruction.nowMs).Pairwise
      (· ≤ ·) := by
    simp [sampleInstruction]
  have guarantee := (remote_instructions_execute_at_most_once SeenTable.empty
    [sampleInstruction 0, sampleInstruction 999] clock).1 [] (sampleInstruction 0) []
    (sampleInstruction 999) [] rfl rfl (by decide)
  exact guarantee new

end OneLink.State
