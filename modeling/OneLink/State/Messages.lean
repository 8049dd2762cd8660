/-
# State.Messages — the message table and its mutators

`record_message`, `edit_message`, `delete_message` and `expire_due_messages` over the
rows of `messages` and the cached chat usage of each peer.

A row keeps its first body in `original_body` once a mutator has moved it there; the
duplicate test of `record_message` reads it back as `immutableBody`.  Metadata is its
canonical JSON text.
-/
import OneLink.Library.OrderedDict
import OneLink.Library.PyText
import OneLink.Library.Run
import OneLink.Library.Table

namespace OneLink.State

open Library

set_option autoImplicit false

def maxTextMessagesPerPeer : Nat := 100000
def maxTextBodyBytesPerPeer : Nat := 256 * 1024 * 1024
def maxTextBodyBytes : Nat := 64 * 1024

def boundedChatMessageTypes : List String :=
  ["TEXT", "REACTION", "EDIT_MSG", "DELETE_MSG", "READ_MARKER", "GROUP_RECEIPT",
    "GROUP_KEY_RECEIPT"]

/-- The arguments of `record_message` that reach the table. -/
structure Message where
  id : String
  tsMs : Int
  direction : String
  peerFp : String
  msgType : String
  body : Option String
  roomId : Option String
  metadataJson : String
  replyTo : Option String
  expiresAtMs : Option Int
  deriving DecidableEq

structure MessageRow where
  /-- The columns `record_message` writes. -/
  message : Message
  originalBody : Option String
  editedAtMs : Option Int
  deletedAtMs : Option Int
  deriving DecidableEq

@[ext]
structure ChatUsage where
  count : Nat
  bytes : Nat
  deriving DecidableEq, Repr

structure MessageStore where
  rows : List MessageRow
  /-- `_text_usage_cache` -/
  usageCache : OrderedDict String ChatUsage

inductive MessageError where
  | idLength
  | direction
  | peerRequired
  | typeRequired
  | textBodyMissing
  | textBodySize
  | idConflict
  | recordQuota
  | editBodyEmpty
  | editBodySize
  | editQuota
  deriving DecidableEq, Repr

/-- The texts, with `pyRepr` for Python's `repr` of a string. -/
def MessageError.message (pyRepr : String → String) (id : String) : MessageError → String
  | idLength => "message id must be 1..128 characters"
  | direction => "message direction must be 'in' or 'out'"
  | peerRequired => "peer fingerprint required"
  | typeRequired => "message type required"
  | textBodyMissing => "TEXT body must be a string"
  | textBodySize => "TEXT body exceeds 65536 UTF-8 bytes"
  | idConflict => "message id " ++ pyRepr id ++ " was reused for different content"
  | recordQuota => "chat history quota reached; clear history before accepting more messages"
  | editBodyEmpty => "message body must be non-empty"
  | editBodySize => "message body exceeds 65536 UTF-8 bytes"
  | editQuota => "chat history quota reached; clear history before editing"

namespace MessageRow

/-- The row as `INSERT` writes it. -/
def fresh (m : Message) : MessageRow := ⟨m, none, none, none⟩

/-- The body the duplicate test compares with. -/
def immutableBody (row : MessageRow) : Option String :=
  match row.originalBody with
  | some original => some original
  | none => row.message.body

/-- The tuple the duplicate test compares with. -/
def stored (row : MessageRow) : Message := { row.message with body := row.immutableBody }

def Deleted (row : MessageRow) : Prop := row.deletedAtMs ≠ none

instance (row : MessageRow) : Decidable row.Deleted :=
  inferInstanceAs (Decidable (row.deletedAtMs ≠ none))

/-- The bytes of a row in `_BOUNDED_CHAT_USAGE_SQL`. -/
def storageBytes (row : MessageRow) : Nat :=
  row.message.metadataJson.utf8ByteSize +
    if row.message.msgType = "TEXT" then
      (row.message.body.getD "").utf8ByteSize + (row.originalBody.getD "").utf8ByteSize
    else 0

/-- The rows of a peer that `_BOUNDED_CHAT_USAGE_SQL` counts. -/
def Counted (peerFp : String) (row : MessageRow) : Prop :=
  row.message.peerFp = peerFp ∧ row.message.msgType ∈ boundedChatMessageTypes

instance (peerFp : String) (row : MessageRow) : Decidable (row.Counted peerFp) :=
  inferInstanceAs (Decidable (_ ∧ _))

end MessageRow

/-- `_BOUNDED_CHAT_USAGE_SQL` -/
def chatUsage (rows : List MessageRow) (peerFp : String) : ChatUsage where
  count := (rows.filter fun row => row.Counted peerFp).length
  bytes := ((rows.filter fun row => row.Counted peerFp).map MessageRow.storageBytes).sum

namespace MessageStore

def empty : MessageStore := ⟨[], .empty⟩

/-- `get_message` -/
def get? (s : MessageStore) (id : String) : Option MessageRow :=
  s.rows.find? fun row => row.message.id = id

def cache (s : MessageStore) (peerFp : String) (usage : ChatUsage) : MessageStore :=
  { s with usageCache := s.usageCache.set peerFp usage }

end MessageStore

/-! ## `record_message` -/

/-- The argument checks, in order. -/
def validateMessage (m : Message) : Option MessageError :=
  if m.id = "" ∨ 128 < m.id.length then some .idLength
  else if m.direction ≠ "in" ∧ m.direction ≠ "out" then some .direction
  else if m.peerFp = "" then some .peerRequired
  else if m.msgType = "" then some .typeRequired
  else if m.msgType = "TEXT" then
    match m.body with
    | none => some .textBodyMissing
    | some body => if maxTextBodyBytes < body.utf8ByteSize then some .textBodySize else none
  else none

/-- `storage_size` -/
def storageSize (m : Message) : Nat :=
  (if m.msgType = "TEXT" then (m.body.getD "").utf8ByteSize else 0) + m.metadataJson.utf8ByteSize

def OverQuota (usage : ChatUsage) (size : Nat) : Prop :=
  maxTextMessagesPerPeer ≤ usage.count ∨ maxTextBodyBytesPerPeer < usage.bytes + size

instance (usage : ChatUsage) (size : Nat) : Decidable (OverQuota usage size) :=
  inferInstanceAs (Decidable (_ ∨ _))

/-- The usage the quota is checked against: the cached one, recounted at the boundary. -/
def quotaUsage (s : MessageStore) (m : Message) : ChatUsage :=
  let cached := (s.usageCache.get? m.peerFp).getD (chatUsage s.rows m.peerFp)
  if OverQuota cached (storageSize m) then chatUsage s.rows m.peerFp else cached

/-- The insertion of a message whose id is new. -/
def insertMessage (s : MessageStore) (m : Message) : Except MessageError Bool × MessageStore :=
  if m.msgType ∈ boundedChatMessageTypes then
    let usage := quotaUsage s m
    if OverQuota usage (storageSize m) then (.error .recordQuota, s.cache m.peerFp usage)
    else
      (.ok true,
        { rows := s.rows ++ [.fresh m]
          usageCache := s.usageCache.set m.peerFp
            ⟨usage.count + 1, usage.bytes + storageSize m⟩ })
  else (.ok true, { s with rows := s.rows ++ [.fresh m] })

def recordMessage (s : MessageStore) (m : Message) : Except MessageError Bool × MessageStore :=
  match validateMessage m with
  | some err => (.error err, s)
  | none =>
    match s.get? m.id with
    | some existing => if existing.stored ≠ m then (.error .idConflict, s) else (.ok false, s)
    | none => insertMessage s m

/-! ## The mutators -/

/-- `cur.original_body or cur.body` -/
def MessageRow.originalOrBody (row : MessageRow) : Option String :=
  match row.originalBody with
  | some original => if original = "" then row.message.body else some original
  | none => row.message.body

/-- `SET body = ?, edited_at_ms = ?, original_body = COALESCE(original_body, ?)` -/
def MessageRow.edit (row : MessageRow) (newBody : String) (editedAtMs : Int)
    (original : Option String) : MessageRow :=
  { row with
    message := { row.message with body := some newBody }
    originalBody := row.originalBody.or original
    editedAtMs := some editedAtMs }

/-- `SET body = NULL, deleted_at_ms = ?, original_body = COALESCE(original_body, body)` -/
def MessageRow.delete (row : MessageRow) (deletedAtMs : Int) : MessageRow :=
  { row with
    message := { row.message with body := none }
    originalBody := row.originalBody.or row.message.body
    deletedAtMs := some deletedAtMs }

/-- The usage after an edit of a `TEXT` row. -/
def editedUsage (s : MessageStore) (row : MessageRow) (newBody : String) : ChatUsage :=
  let usage := chatUsage s.rows row.message.peerFp
  { usage with
    bytes :=
      if row.originalBody = none then usage.bytes + newBody.utf8ByteSize
      else usage.bytes - (row.message.body.getD "").utf8ByteSize + newBody.utf8ByteSize }

/-- The `UPDATE` of an undeleted row, by its id. -/
def updateRow (s : MessageStore) (id : String) (f : MessageRow → MessageRow) : List MessageRow :=
  s.rows.map fun row => if row.message.id = id then f row else row

/-- `edit_message`: the refreshed row, or nothing when it is missing or deleted. -/
def editMessage (s : MessageStore) (id newBody : String) (editedAtMs : Int) :
    Except MessageError (Option MessageRow) × MessageStore :=
  if strip newBody = "" then (.error .editBodyEmpty, s)
  else if maxTextBodyBytes < newBody.utf8ByteSize then (.error .editBodySize, s)
  else
    match s.get? id with
    | none => (.ok none, s)
    | some row =>
      if row.Deleted then (.ok none, s)
      else
        let edited := row.edit newBody editedAtMs row.originalOrBody
        let rows := updateRow s id fun r => r.edit newBody editedAtMs row.originalOrBody
        if row.message.msgType = "TEXT" then
          let usage := editedUsage s row newBody
          if maxTextBodyBytesPerPeer < usage.bytes then (.error .editQuota, s)
          else
            (.ok (some edited), { rows, usageCache := s.usageCache.set row.message.peerFp usage })
        else (.ok (some edited), { s with rows })

def deleteMessage (s : MessageStore) (id : String) (deletedAtMs : Int) :
    Option MessageRow × MessageStore :=
  match s.get? id with
  | none => (none, s)
  | some row =>
    if row.Deleted then (some row, s)
    else
      (some (row.delete deletedAtMs),
        { rows := updateRow s id fun r => r.delete deletedAtMs
          usageCache := s.usageCache.erase row.message.peerFp })

/-- The rows `expire_due_messages` tombstones. -/
def Due (cutoff : Int) (row : MessageRow) : Prop :=
  (∃ expires ∈ row.message.expiresAtMs, expires ≤ cutoff) ∧ ¬ row.Deleted

instance (cutoff : Int) (row : MessageRow) : Decidable (Due cutoff row) :=
  inferInstanceAs (Decidable (_ ∧ _))

def expireDueMessages (s : MessageStore) (cutoff : Int) : List String × MessageStore :=
  let due := s.rows.filter fun row => Due cutoff row
  (due.map fun row => row.message.id,
    { rows := s.rows.map fun row => if Due cutoff row then row.delete cutoff else row
      usageCache := due.foldl (fun d row => d.erase row.message.peerFp) s.usageCache })

inductive MessageOp where
  | record (m : Message)
  | edit (id newBody : String) (editedAtMs : Int)
  | delete (id : String) (deletedAtMs : Int)
  | expire (nowMs : Int)

/-- The store after a call, whether it returned or raised. -/
def stepMessages (s : MessageStore) : MessageOp → MessageStore
  | .record m => (recordMessage s m).2
  | .edit id newBody editedAtMs => (editMessage s id newBody editedAtMs).2
  | .delete id deletedAtMs => (deleteMessage s id deletedAtMs).2
  | .expire nowMs => (expireDueMessages s nowMs).2

end OneLink.State
