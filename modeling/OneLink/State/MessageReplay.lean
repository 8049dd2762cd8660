/-
# State.MessageReplay — recording again what has been recorded

`Intact s m` says that the duplicate test still reads the message `m` off its row.
Deletion and expiry keep it so, and so does an edit of a message that had a body.  An
edit of a message recorded without one leaves nothing in `original_body`, and the
test reads the edited text: that is the one step `replay_idempotent_iff` excludes.
-/
import OneLink.State.Messages
import Mathlib.Algebra.BigOperators.Group.List.Basic

namespace OneLink.State

open Library

set_option autoImplicit false

namespace MessageStore

def Accounted (s : MessageStore) : Prop :=
  ∀ peerFp usage, s.usageCache.get? peerFp = some usage → usage = chatUsage s.rows peerFp

structure Valid (s : MessageStore) : Prop where
  ids : (s.rows.map fun row => row.message.id).Nodup
  accounted : s.Accounted

theorem Valid.empty : MessageStore.empty.Valid where
  ids := List.nodup_nil
  accounted := by simp [Accounted, MessageStore.empty]

end MessageStore

/-! ## The aggregate -/

theorem chatUsage_middle (early late : List MessageRow) (row : MessageRow) (peerFp : String) :
    chatUsage (early ++ row :: late) peerFp =
      { count := (chatUsage (early ++ late) peerFp).count + if row.Counted peerFp then 1 else 0
        bytes := (chatUsage (early ++ late) peerFp).bytes +
          if row.Counted peerFp then row.storageBytes else 0 } := by
  simp only [chatUsage, List.filter_append, List.filter_cons]
  by_cases counted : row.Counted peerFp
  · simp [counted]
    omega
  · simp [counted]

/-- Replacing a row by one of the same peer and type exchanges their bytes. -/
theorem chatUsage_replace (early late : List MessageRow) {row row' : MessageRow}
    (peer : row'.message.peerFp = row.message.peerFp)
    (type : row'.message.msgType = row.message.msgType) (peerFp : String) :
    chatUsage (early ++ row' :: late) peerFp =
      { chatUsage (early ++ row :: late) peerFp with
        bytes := if row.Counted peerFp then
            (chatUsage (early ++ row :: late) peerFp).bytes - row.storageBytes + row'.storageBytes
          else (chatUsage (early ++ row :: late) peerFp).bytes } := by
  have same : row'.Counted peerFp ↔ row.Counted peerFp := by
    simp only [MessageRow.Counted, peer, type]
  rw [chatUsage_middle, chatUsage_middle]
  by_cases counted : row.Counted peerFp
  · simp [same, counted]
  · simp [same, counted]

/-- A row that keeps its bytes keeps the usage. -/
theorem chatUsage_replace_same (early late : List MessageRow) {row row' : MessageRow}
    (peer : row'.message.peerFp = row.message.peerFp)
    (type : row'.message.msgType = row.message.msgType)
    (size : row'.storageBytes = row.storageBytes) (peerFp : String) :
    chatUsage (early ++ row' :: late) peerFp = chatUsage (early ++ row :: late) peerFp := by
  have same : row'.Counted peerFp ↔ row.Counted peerFp := by
    simp only [MessageRow.Counted, peer, type]
  rw [chatUsage_middle, chatUsage_middle]
  by_cases counted : row.Counted peerFp
  · simp [same, counted, size]
  · simp [same, counted]

/-- Rewriting rows of other peers leaves the usage of a peer. -/
theorem chatUsage_map {rows : List MessageRow} {f : MessageRow → MessageRow} {peerFp : String}
    (peers : ∀ row, (f row).message.peerFp = row.message.peerFp)
    (others : ∀ row ∈ rows, row.message.peerFp = peerFp → f row = row) :
    chatUsage (rows.map f) peerFp = chatUsage rows peerFp := by
  induction rows with
  | nil => rfl
  | cons row rest ih =>
    have tail := ih fun other present => others other (List.mem_cons_of_mem _ present)
    have head := chatUsage_middle [] (rest.map f) (f row) peerFp
    have head' := chatUsage_middle [] rest row peerFp
    simp only [List.nil_append] at head head'
    rw [List.map_cons, head, head', tail]
    by_cases mine : row.message.peerFp = peerFp
    · rw [others row List.mem_cons_self mine]
    · have uncounted : ¬ row.Counted peerFp := fun counted => mine counted.1
      have uncounted' : ¬ (f row).Counted peerFp := fun counted =>
        mine ((peers row).symm.trans counted.1)
      simp [uncounted, uncounted']

theorem get?_foldl_erase (peers : List MessageRow) (d : OrderedDict String ChatUsage)
    (peerFp : String) :
    (peers.foldl (fun d row => d.erase row.message.peerFp) d).get? peerFp =
      if peerFp ∈ peers.map (fun row => row.message.peerFp) then none else d.get? peerFp := by
  induction peers generalizing d with
  | nil => simp
  | cons row rest ih =>
    rw [List.foldl_cons, ih, OrderedDict.get?_erase, List.map_cons]
    by_cases same : row.message.peerFp = peerFp
    · simp [same]
    · simp [same, Ne.symm same]

/-! ## Rows by id -/

namespace MessageStore

variable {s : MessageStore}

theorem get?_eq_some (valid : s.Valid) {id : String} {row : MessageRow}
    (found : s.get? id = some row) :
    row.message.id = id ∧ ∃ early late, s.rows = early ++ row :: late ∧
      ∀ other ∈ early ++ late, ¬ other.message.id = id := by
  obtain ⟨matching, early, late, rows, others⟩ := Table.split_of_find? valid.ids found
  have sameId : row.message.id = id := by simpa using matching
  refine ⟨sameId, early, late, rows, fun other present same => ?_⟩
  exact others other present (same.trans sameId.symm)

theorem updateRow_eq {id : String} {early late : List MessageRow} {row : MessageRow}
    (rows : s.rows = early ++ row :: late) (sameId : row.message.id = id)
    (others : ∀ other ∈ early ++ late, ¬ other.message.id = id) (f : MessageRow → MessageRow) :
    updateRow s id f = early ++ f row :: late := by
  rw [updateRow, rows]
  exact Table.update_middle (q := fun r => r.message.id = id) sameId others f

/-- Rewriting the row of an id keeps the ids. -/
theorem Valid.ids_middle (valid : s.Valid) {early late : List MessageRow} {row row' : MessageRow}
    (rows : s.rows = early ++ row :: late) (sameId : row'.message.id = row.message.id) :
    ((early ++ row' :: late).map fun r => r.message.id).Nodup := by
  have ids := valid.ids
  rw [rows] at ids
  simpa [sameId] using ids

/-! ## Each call keeps the accounting -/

theorem quotaUsage_eq (valid : s.Valid) (m : Message) :
    quotaUsage s m = chatUsage s.rows m.peerFp := by
  have cached : (s.usageCache.get? m.peerFp).getD (chatUsage s.rows m.peerFp) =
      chatUsage s.rows m.peerFp := by
    cases present : s.usageCache.get? m.peerFp with
    | none => rfl
    | some usage => exact valid.accounted _ _ present
  simp only [quotaUsage, cached, ite_self]

/-- What is left to show of the accounting when one cache entry is rewritten. -/
theorem Accounted.set (accounted : s.Accounted) {rows : List MessageRow} {peerFp : String}
    {usage : ChatUsage} (here : usage = chatUsage rows peerFp)
    (elsewhere : ∀ other, other ≠ peerFp → chatUsage rows other = chatUsage s.rows other) :
    Accounted ⟨rows, s.usageCache.set peerFp usage⟩ := by
  intro other u cached
  rcases eq_or_ne other peerFp with rfl | ne
  · rw [OrderedDict.get?_set_self] at cached
    rw [← Option.some.inj cached]
    exact here
  · rw [OrderedDict.get?_set_of_ne _ ne.symm] at cached
    exact (accounted other u cached).trans (elsewhere other ne).symm

theorem storageBytes_fresh (m : Message) : (MessageRow.fresh m).storageBytes = storageSize m := by
  by_cases text : m.msgType = "TEXT"
  · simp [MessageRow.storageBytes, MessageRow.fresh, storageSize, text, Nat.add_comm]
  · simp [MessageRow.storageBytes, MessageRow.fresh, storageSize, text]

theorem Valid.insertMessage (valid : s.Valid) {m : Message} (absent : s.get? m.id = none) :
    (insertMessage s m).2.Valid := by
  have ids : ((s.rows ++ [MessageRow.fresh m]).map fun r => r.message.id).Nodup := by
    rw [List.map_append, List.nodup_append]
    refine ⟨valid.ids, List.nodup_singleton _, ?_⟩
    intro id present new isNew
    obtain ⟨row, old, rfl⟩ := List.mem_map.mp present
    obtain rfl := List.mem_singleton.mp isNew
    have apart := List.find?_eq_none.mp absent row old
    simpa [MessageRow.fresh] using apart
  have appended := fun peerFp => chatUsage_middle s.rows [] (.fresh m) peerFp
  simp only [List.append_nil] at appended
  simp only [State.insertMessage, quotaUsage_eq valid]
  split
  · next bounded =>
    split
    · exact ⟨valid.ids, valid.accounted.set rfl fun _ _ => rfl⟩
    · refine ⟨ids, valid.accounted.set ?_ ?_⟩
      · have counted : (MessageRow.fresh m).Counted m.peerFp := ⟨rfl, bounded⟩
        simp [appended, counted, storageBytes_fresh]
      · intro other ne
        have uncounted : ¬ (MessageRow.fresh m).Counted other := fun counted => ne counted.1.symm
        simp [appended, uncounted]
  · next unbounded =>
    refine ⟨ids, fun peerFp usage cached => ?_⟩
    have uncounted : ¬ (MessageRow.fresh m).Counted peerFp := fun counted => unbounded counted.2
    rw [valid.accounted _ _ cached]
    simp [appended, uncounted]

theorem Valid.recordMessage (valid : s.Valid) (m : Message) : (recordMessage s m).2.Valid := by
  unfold State.recordMessage
  split
  · exact valid
  · split
    · split
      · exact valid
      · exact valid
    · next absent => exact valid.insertMessage absent

theorem storageBytes_edit {row : MessageRow} {newBody : String} {editedAtMs : Int}
    (text : row.message.msgType = "TEXT") :
    (row.edit newBody editedAtMs row.originalOrBody).storageBytes =
      if row.originalBody = none then row.storageBytes + newBody.utf8ByteSize
      else row.storageBytes - (row.message.body.getD "").utf8ByteSize + newBody.utf8ByteSize := by
  simp only [MessageRow.storageBytes, MessageRow.edit, MessageRow.originalOrBody, text, if_true]
  cases original : row.originalBody with
  | none =>
    simp
    omega
  | some first =>
    simp
    omega

theorem Valid.editMessage (valid : s.Valid) (id newBody : String) (editedAtMs : Int) :
    (editMessage s id newBody editedAtMs).2.Valid := by
  unfold State.editMessage
  split
  · exact valid
  split
  · exact valid
  cases found : s.get? id with
  | none => exact valid
  | some row =>
    dsimp only
    split
    · exact valid
    obtain ⟨sameId, early, late, rows, others⟩ := get?_eq_some valid found
    have after := updateRow_eq rows sameId others fun r =>
      r.edit newBody editedAtMs row.originalOrBody
    have peer : (row.edit newBody editedAtMs row.originalOrBody).message.peerFp =
      row.message.peerFp := rfl
    have usage := chatUsage_replace early late peer rfl
    have ids : ((updateRow s id fun r => r.edit newBody editedAtMs row.originalOrBody).map
        fun r => r.message.id).Nodup := by
      rw [after]
      exact valid.ids_middle rows rfl
    rw [← rows, ← after] at usage
    split
    · next text =>
      split
      · exact valid
      · refine ⟨ids, valid.accounted.set ?_ ?_⟩
        · have counted : row.Counted row.message.peerFp := ⟨rfl, by rw [text]; decide⟩
          have included := chatUsage_middle early late row row.message.peerFp
          rw [← rows] at included
          simp only [counted, if_true] at included
          simp only [usage, counted, if_true, storageBytes_edit text, editedUsage]
          congr 1
          have large : (row.message.body.getD "").utf8ByteSize ≤ row.storageBytes := by
            simp only [MessageRow.storageBytes, text, if_true]
            omega
          have bytes := congrArg ChatUsage.bytes included
          simp only at bytes
          split <;> omega
        · intro other ne
          have uncounted : ¬ row.Counted other := fun counted => ne counted.1.symm
          rw [usage, if_neg uncounted]
    · next control =>
      refine ⟨ids, fun peerFp u cached => ?_⟩
      rw [valid.accounted _ _ cached]
      have same : (row.edit newBody editedAtMs row.originalOrBody).storageBytes =
          row.storageBytes := by
        simp [MessageRow.storageBytes, MessageRow.edit, control]
      show _ = chatUsage (updateRow s id fun r => r.edit newBody editedAtMs row.originalOrBody) peerFp
      rw [after, chatUsage_replace_same early late peer rfl same, ← rows]

theorem Valid.deleteMessage (valid : s.Valid) (id : String) (deletedAtMs : Int) :
    (deleteMessage s id deletedAtMs).2.Valid := by
  unfold State.deleteMessage
  cases found : s.get? id with
  | none => exact valid
  | some row =>
    dsimp only
    split
    · exact valid
    obtain ⟨sameId, early, late, rows, others⟩ := get?_eq_some valid found
    have after := updateRow_eq rows sameId others fun r => r.delete deletedAtMs
    have peer : (row.delete deletedAtMs).message.peerFp = row.message.peerFp := rfl
    have usage := chatUsage_replace early late peer rfl
    rw [← rows, ← after] at usage
    constructor
    · show ((updateRow s id fun r => r.delete deletedAtMs).map fun r => r.message.id).Nodup
      rw [after]
      exact valid.ids_middle rows rfl
    · intro other u cached
      rcases eq_or_ne other row.message.peerFp with rfl | ne
      · rw [OrderedDict.get?_erase_self] at cached
        cases cached
      · rw [OrderedDict.get?_erase_of_ne _ ne.symm] at cached
        have uncounted : ¬ row.Counted other := fun counted => ne counted.1.symm
        rw [valid.accounted _ _ cached]
        show _ = chatUsage (updateRow s id fun r => r.delete deletedAtMs) other
        rw [usage, if_neg uncounted]

theorem Valid.expireDueMessages (valid : s.Valid) (cutoff : Int) :
    (expireDueMessages s cutoff).2.Valid := by
  constructor
  · have same : (fun row : MessageRow => row.message.id) ∘
        (fun row => if Due cutoff row then row.delete cutoff else row) =
          fun row => row.message.id := by
      funext row
      simp only [Function.comp]
      split <;> rfl
    show ((s.rows.map fun row => if Due cutoff row then row.delete cutoff else row).map
      fun row => row.message.id).Nodup
    rw [List.map_map, same]
    exact valid.ids
  · intro peerFp u cached
    rw [State.expireDueMessages, get?_foldl_erase] at cached
    split at cached
    · cases cached
    · next untouched =>
      rw [valid.accounted _ _ cached]
      apply Eq.symm
      apply chatUsage_map
      · intro row
        split <;> rfl
      · intro row present mine
        rw [if_neg]
        intro due
        apply untouched
        refine List.mem_map.mpr ⟨row, List.mem_filter.mpr ⟨present, ?_⟩, mine⟩
        exact decide_eq_true due

theorem Valid.stepMessages (valid : s.Valid) (op : MessageOp) : (stepMessages s op).Valid := by
  cases op with
  | record m => exact valid.recordMessage m
  | edit id newBody editedAtMs => exact valid.editMessage id newBody editedAtMs
  | delete id deletedAtMs => exact valid.deleteMessage id deletedAtMs
  | expire nowMs => exact valid.expireDueMessages nowMs

theorem Valid.runMessages (valid : s.Valid) (ops : List MessageOp) :
    (run State.stepMessages s ops).Valid := by
  have preserved : ∀ t op, MessageStore.Valid t → (State.stepMessages t op).Valid :=
    fun _ op valid => valid.stepMessages op
  exact run_preserves preserved ops valid

theorem get?_map (s : MessageStore) {g : MessageRow → MessageRow}
    (keeps : ∀ row, (g row).message.id = row.message.id)
    (usageCache : OrderedDict String ChatUsage) (id : String) :
    get? ⟨s.rows.map g, usageCache⟩ id = (s.get? id).map g := by
  unfold get?
  rw [List.find?_map]
  congr 2
  funext row
  simp only [Function.comp, keeps]

theorem get?_updateRow (s : MessageStore) {f : MessageRow → MessageRow}
    (keeps : ∀ row, (f row).message.id = row.message.id)
    (usageCache : OrderedDict String ChatUsage) (id id' : String) :
    get? ⟨updateRow s id f, usageCache⟩ id' =
      (s.get? id').map fun row => if row.message.id = id then f row else row := by
  apply get?_map
  intro row
  split
  · exact keeps row
  · rfl

end MessageStore

/-! ## What the duplicate test reads -/

namespace MessageRow

theorem stored_fresh (m : Message) : (fresh m).stored = m := rfl

theorem stored_delete (row : MessageRow) (deletedAtMs : Int) :
    (row.delete deletedAtMs).stored = row.stored := by
  cases original : row.originalBody <;> cases body : row.message.body <;>
    simp [stored, immutableBody, delete, original, body]

/-- An edit keeps the body the test reads, if there is one. -/
theorem stored_edit {row : MessageRow} (newBody : String) (editedAtMs : Int) :
    (row.edit newBody editedAtMs row.originalOrBody).stored =
      { row.stored with body := row.stored.body.or (some newBody) } := by
  cases original : row.originalBody <;> cases body : row.message.body <;>
    simp [stored, immutableBody, edit, originalOrBody, original, body]

end MessageRow

/-- The row of the message still reads as the message. -/
def Intact (s : MessageStore) (m : Message) : Prop :=
  ∃ row, s.get? m.id = some row ∧ row.stored = m

/-- Recording the message again is recognised, and recording anything else under its
id is refused; neither changes the store. -/
def Idempotent (s : MessageStore) (m : Message) : Prop :=
  recordMessage s m = (.ok false, s) ∧
    ∀ m', m'.id = m.id → m' ≠ m → ∃ err, recordMessage s m' = (.error err, s)

theorem idempotent_iff_intact {s : MessageStore} {m : Message} (sound : validateMessage m = none) :
    Idempotent s m ↔ Intact s m := by
  constructor
  · rintro ⟨again, -⟩
    have outcome := congrArg Prod.fst again
    simp only [recordMessage, sound] at outcome
    cases found : s.get? m.id with
    | some row =>
      simp only [found] at outcome
      split at outcome
      · cases outcome
      · next same => exact ⟨row, found, not_not.mp same⟩
    | none =>
      simp only [found, insertMessage] at outcome
      split at outcome
      · split at outcome <;> cases outcome
      · cases outcome
  · rintro ⟨row, found, reads⟩
    constructor
    · simp [recordMessage, sound, found, reads]
    · intro m' sameId differs
      unfold recordMessage
      cases validateMessage m' with
      | some err => exact ⟨err, rfl⟩
      | none =>
        have differs' : row.stored ≠ m' := by
          rw [reads]
          exact differs.symm
        refine ⟨.idConflict, ?_⟩
        simp only [sameId, found, if_pos differs']

/-- The edit takes effect on a message that was recorded without a body. -/
def Overwrites (m : Message) (s : MessageStore) : MessageOp → Prop
  | .edit id newBody _ =>
    m.body = none ∧ id = m.id ∧ strip newBody ≠ "" ∧ newBody.utf8ByteSize ≤ maxTextBodyBytes ∧
      ∃ row ∈ s.get? id, ¬ row.Deleted
  | _ => False

/-- An edit leaves the store, or rewrites the row of its id. -/
theorem editMessage_cases (s : MessageStore) (id newBody : String) (editedAtMs : Int) :
    ((editMessage s id newBody editedAtMs).2 = s ∧
      (strip newBody = "" ∨ maxTextBodyBytes < newBody.utf8ByteSize ∨
        ∀ row ∈ s.get? id, row.Deleted ∨ row.message.msgType = "TEXT")) ∨
    ∃ row usageCache, s.get? id = some row ∧ ¬ row.Deleted ∧ strip newBody ≠ "" ∧
      newBody.utf8ByteSize ≤ maxTextBodyBytes ∧
      (editMessage s id newBody editedAtMs).2 =
        ⟨updateRow s id fun r => r.edit newBody editedAtMs row.originalOrBody, usageCache⟩ := by
  unfold editMessage
  split
  · next blank => exact .inl ⟨rfl, .inl blank⟩
  next filled =>
  split
  · next large => exact .inl ⟨rfl, .inr (.inl large)⟩
  next small =>
  cases found : s.get? id with
  | none => exact .inl ⟨rfl, .inr (.inr (by simp))⟩
  | some row =>
    dsimp only
    split
    · next deleted => exact .inl ⟨rfl, .inr (.inr (by simp [deleted]))⟩
    next alive =>
    split
    · next text =>
      split
      · exact .inl ⟨rfl, .inr (.inr (by simp [text]))⟩
      · exact .inr ⟨row, _, rfl, alive, filled, Nat.le_of_not_lt small, rfl⟩
    · exact .inr ⟨row, _, rfl, alive, filled, Nat.le_of_not_lt small, rfl⟩

theorem recordMessage_rows (s : MessageStore) (m : Message) :
    (recordMessage s m).2.rows = s.rows ∨
      (recordMessage s m).2.rows = s.rows ++ [MessageRow.fresh m] := by
  unfold recordMessage
  split
  · exact .inl rfl
  · split
    · split <;> exact .inl rfl
    · unfold insertMessage
      split
      · dsimp only
        split
        · exact .inl rfl
        · exact .inr rfl
      · exact .inr rfl

section Steps

variable {s : MessageStore} {m : Message}

theorem Intact.record (intact : Intact s m) (m' : Message) : Intact (recordMessage s m').2 m := by
  obtain ⟨row, found, reads⟩ := intact
  refine ⟨row, ?_, reads⟩
  unfold MessageStore.get? at found ⊢
  rcases recordMessage_rows s m' with same | longer
  · rw [same]
    exact found
  · rw [longer, List.find?_append, found]
    rfl

/-- Rewriting rows without touching what the test reads. -/
theorem Intact.map (intact : Intact s m) {g : MessageRow → MessageRow}
    (same : ∀ row, (g row).stored = row.stored) (usageCache : OrderedDict String ChatUsage) :
    Intact ⟨s.rows.map g, usageCache⟩ m := by
  have keeps : ∀ row, (g row).message.id = row.message.id := fun row =>
    show (g row).stored.id = row.stored.id by rw [same row]
  obtain ⟨row, found, reads⟩ := intact
  refine ⟨g row, ?_, (same row).trans reads⟩
  rw [s.get?_map keeps, found]
  rfl

theorem Intact.delete (intact : Intact s m) (id : String) (deletedAtMs : Int) :
    Intact (deleteMessage s id deletedAtMs).2 m := by
  unfold deleteMessage
  split
  · exact intact
  · split
    · exact intact
    · apply intact.map
      intro row
      split
      · exact row.stored_delete deletedAtMs
      · rfl

theorem Intact.expire (intact : Intact s m) (cutoff : Int) :
    Intact (expireDueMessages s cutoff).2 m := by
  apply intact.map
  intro row
  split
  · exact row.stored_delete cutoff
  · rfl

/-- A message without a body is not a text. -/
theorem not_text (sound : validateMessage m = none) (bodiless : m.body = none) :
    m.msgType ≠ "TEXT" := by
  intro text
  unfold validateMessage at sound
  rw [text, bodiless] at sound
  split_ifs at sound with _ _ _ _ other
  exact other rfl

theorem intact_edit_iff (sound : validateMessage m = none) (intact : Intact s m)
    (id newBody : String) (editedAtMs : Int) :
    Intact (editMessage s id newBody editedAtMs).2 m ↔
      ¬ Overwrites m s (.edit id newBody editedAtMs) := by
  obtain ⟨row, found, reads⟩ := intact
  obtain ⟨unchanged, refused⟩ | ⟨row', usageCache, found', alive, filled, small, changed⟩ :=
    editMessage_cases s id newBody editedAtMs
  · rw [unchanged]
    refine iff_of_true ⟨row, found, reads⟩ ?_
    rintro ⟨bodiless, rfl, filled, small, other, isOther, alive⟩
    rcases refused with blank | large | settled
    · exact filled blank
    · exact absurd small (Nat.not_le.mpr large)
    · obtain rfl : other = row := Option.some.inj (isOther.symm.trans found)
      rcases settled other isOther with deleted | text
      · exact alive deleted
      · apply not_text sound bodiless
        rw [← reads]
        exact text
  · rw [changed]
    have after := MessageStore.get?_updateRow s (f := fun r =>
      r.edit newBody editedAtMs row'.originalOrBody) (fun _ => rfl) usageCache id m.id
    rw [found, Option.map_some] at after
    have rowId : row.message.id = m.id := by
      rw [← reads]
      rfl
    by_cases here : id = m.id
    · subst here
      obtain rfl : row = row' := Option.some.inj (found.symm.trans found')
      simp only [rowId, if_true] at after
      have edited := row.stored_edit newBody editedAtMs
      rw [reads] at edited
      cases body : m.body with
      | none =>
        refine iff_of_false ?_ fun kept => kept ⟨body, rfl, filled, small, row, found, alive⟩
        rintro ⟨other, isOther, readsOther⟩
        obtain rfl := Option.some.inj (after.symm.trans isOther)
        have now := congrArg Message.body (edited.symm.trans readsOther)
        simp [body] at now
      | some first =>
        refine iff_of_true ⟨_, after, edited.trans ?_⟩ fun overwrites => ?_
        · rw [body, Option.some_or, ← body]
        · rw [overwrites.1] at body
          cases body
    · refine iff_of_true ⟨row, ?_, reads⟩ fun overwrites => here overwrites.2.1
      rw [after, if_neg]
      rw [rowId]
      exact Ne.symm here

/-- **The test reads the message after a step exactly when the step is no such edit.** -/
theorem intact_step_iff (sound : validateMessage m = none) (intact : Intact s m) (op : MessageOp) :
    Intact (stepMessages s op) m ↔ ¬ Overwrites m s op := by
  cases op with
  | record m' => exact iff_of_true (intact.record m') not_false
  | edit id newBody editedAtMs => exact intact_edit_iff sound intact id newBody editedAtMs
  | delete id deletedAtMs => exact iff_of_true (intact.delete id deletedAtMs) not_false
  | expire nowMs => exact iff_of_true (intact.expire nowMs) not_false

end Steps

/-! ## Whole runs -/

/-- What the store promises of a recorded message. -/
def ReplaySafe (s : MessageStore) (m : Message) : Prop := Idempotent s m ∧ s.Accounted

theorem sound_of_recorded {s : MessageStore} {m : Message}
    (recorded : (recordMessage s m).1 = .ok true) :
    validateMessage m = none ∧ Intact (recordMessage s m).2 m := by
  unfold recordMessage at recorded ⊢
  cases sound : validateMessage m with
  | some err => simp [sound] at recorded
  | none =>
    simp only [sound] at recorded ⊢
    refine ⟨trivial, ?_⟩
    cases found : s.get? m.id with
    | some existing =>
      simp only [found] at recorded
      split at recorded <;> cases recorded
    | none =>
      simp only [found] at recorded ⊢
      have appended : (insertMessage s m).2.rows = s.rows ++ [MessageRow.fresh m] := by
        unfold insertMessage at recorded ⊢
        split
        · next bounded =>
          simp only [bounded, if_true] at recorded ⊢
          split
          · next exceeds =>
            rw [if_pos exceeds] at recorded
            cases recorded
          · rfl
        · rfl
      refine ⟨MessageRow.fresh m, ?_, MessageRow.stored_fresh m⟩
      unfold MessageStore.get? at found ⊢
      rw [appended, List.find?_append, found]
      simp [MessageRow.fresh]

/-- From an intact message on, the promise holds in every state reached exactly when
no step overwrites it. -/
theorem replaySafe_run_iff {m : Message} (sound : validateMessage m = none)
    (ops : List MessageOp) {s : MessageStore} (valid : s.Valid) (intact : Intact s m) :
    (∀ early late, ops = early ++ late → ReplaySafe (run stepMessages s early) m) ↔
      EachStep stepMessages (fun s op => ¬ Overwrites m s op) s ops := by
  induction ops generalizing s with
  | nil =>
    refine iff_of_true (fun early late split => ?_) trivial
    obtain ⟨rfl, -⟩ := List.append_eq_nil_iff.mp split.symm
    exact ⟨(idempotent_iff_intact sound).mpr intact, valid.accounted⟩
  | cons op rest ih =>
    constructor
    · intro promise
      have after := (idempotent_iff_intact sound).mp (promise [op] rest rfl).1
      refine ⟨(intact_step_iff sound intact op).mp after, ?_⟩
      apply (ih (valid.stepMessages op) after).mp
      intro early late split
      exact promise (op :: early) late (by rw [split]; rfl)
    · rintro ⟨keeps, later⟩ early late split
      have after := (intact_step_iff sound intact op).mpr keeps
      cases early with
      | nil => exact ⟨(idempotent_iff_intact sound).mpr intact, valid.accounted⟩
      | cons first early =>
        obtain ⟨rfl, tail⟩ := List.cons.inj split
        exact (ih (valid.stepMessages op) after).mpr later early late tail

/-- **Recording stays idempotent through every run without such an edit, and no other.** -/
theorem replay_idempotent_iff (before ops : List MessageOp) (m : Message)
    (recorded : (recordMessage (run stepMessages .empty before) m).1 = .ok true) :
    (∀ early late, ops = early ++ late →
      ReplaySafe (run stepMessages (recordMessage (run stepMessages .empty before) m).2 early) m) ↔
    EachStep stepMessages (fun s op => ¬ Overwrites m s op)
      (recordMessage (run stepMessages .empty before) m).2 ops := by
  obtain ⟨sound, intact⟩ := sound_of_recorded recorded
  have valid := (MessageStore.Valid.empty.runMessages before).recordMessage m
  exact replaySafe_run_iff sound ops valid intact

/-! ## Poles -/

def helloMessage : Message where
  id := "m1"
  tsMs := 1
  direction := "in"
  peerFp := "peer"
  msgType := "TEXT"
  body := some "hello"
  roomId := none
  metadataJson := "\x7b\x7d"
  replyTo := none
  expiresAtMs := some 9

/-- A receipt, which has no body. -/
def receiptMessage : Message := { helloMessage with msgType := "GROUP_RECEIPT", body := none }

/-- A text that is edited, deleted and expired is recognised. -/
theorem replay_idempotent_text :
    ReplaySafe (run stepMessages (recordMessage .empty helloMessage).2
      [.edit "m1" "bye" 2, .delete "m1" 3, .expire 10]) helloMessage := by
  have recorded : (recordMessage (run stepMessages .empty []) helloMessage).1 = .ok true := by
    decide
  have unspoiled : ∀ s op, ¬ Overwrites helloMessage s op := by
    intro s op overwrites
    cases op with
    | edit id newBody editedAtMs => cases overwrites.1
    | record m => exact overwrites
    | delete id deletedAtMs => exact overwrites
    | expire nowMs => exact overwrites
  apply (replay_idempotent_iff [] [.edit "m1" "bye" 2, .delete "m1" 3, .expire 10] helloMessage
    recorded).mpr _ _ [] rfl
  exact ⟨unspoiled _ _, unspoiled _ _, unspoiled _ _, trivial⟩

/-- A receipt that is edited: recording it again raises. -/
theorem replay_refused_after_edit :
    (recordMessage .empty receiptMessage).1 = .ok true ∧
    (recordMessage (run stepMessages (recordMessage .empty receiptMessage).2 [.edit "m1" "bye" 2])
      receiptMessage).1 = .error .idConflict ∧
    ¬ ReplaySafe (run stepMessages (recordMessage .empty receiptMessage).2 [.edit "m1" "bye" 2])
      receiptMessage := by
  have refused : (recordMessage (run stepMessages (recordMessage .empty receiptMessage).2
      [.edit "m1" "bye" 2]) receiptMessage).1 = .error .idConflict := by
    decide
  refine ⟨by decide, refused, fun safe => ?_⟩
  rw [safe.1.1] at refused
  cases refused

end OneLink.State
