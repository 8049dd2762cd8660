/-
# UiDelivery.Store -- the operations of the UI delivery store

Each operation is a transaction over the table: it reads the row of its key,
checks it, rewrites it and reads it back.  A transaction that raises is rolled
back; only the check of the file's paths comes behind the commit.
-/
import OneLink.UiDelivery.Row

namespace OneLink.UiDelivery

open Library

set_option autoImplicit false

/-- A store instance: its random epoch and its capacity. -/
structure Store where
  ownerEpoch : String
  maxRecords : Nat
deriving DecidableEq

/-- What a call draws from `secrets` and from the clock. -/
structure Draws where
  transferHex : String
  recordId : Bytes
  identityNonce : Bytes
  responseNonce : Bytes
  nowMs : Int
deriving DecidableEq

variable {Body : Type} [DecidableEq Body] (C : Crypto Body)

/-- The row is that of this principal and this client's delivery id. -/
def Row.IsOf (scope clientDeliveryId : String) (row : Row) : Prop :=
  row.principalDigest = C.principalDigest scope ∧ row.clientDeliveryId = clientDeliveryId

instance (scope clientDeliveryId : String) (row : Row) :
    Decidable (row.IsOf C scope clientDeliveryId) :=
  inferInstanceAs (Decidable (_ ∧ _))

/-- `SELECT * .. WHERE principal_digest = ? AND client_delivery_id = ?` -/
def selectRow (scope clientDeliveryId : String) (db : List Row) : Option Row :=
  db.find? fun row => row.IsOf C scope clientDeliveryId

/-- `UPDATE .. WHERE principal_digest = ? AND client_delivery_id = ?` -/
def updateRow (scope clientDeliveryId : String) (f : Row → Row) (db : List Row) : List Row :=
  db.map fun row => if row.IsOf C scope clientDeliveryId then f row else row

/-- `_row_for`. -/
def rowFor (binding : Binding Body) (db : List Row) : Except DeliveryError Row :=
  match selectRow C binding.principalScope binding.clientDeliveryId db with
  | some row => .ok row
  | none => .error (.integrity "durable UI delivery row is missing")

/-- `_read_binding`. -/
def readBinding (store : Store) (binding : Binding Body) (ownsAttempt : Bool) (db : List Row) :
    Except DeliveryError (Binding Body) := do
  let row ← rowFor C binding db
  assertBindingRow C row binding
  bindingOf C store.ownerEpoch row binding.principalScope binding.contract ownsAttempt

/-- `_require_owned_row`. -/
def requireOwnedRow (store : Store) (binding : Binding Body) (db : List Row) :
    Except DeliveryError Row := do
  let row ← rowFor C binding db
  assertBindingRow C row binding
  require (row.ownerEpoch = store.ownerEpoch)
    (.unavailable "UI delivery attempt is not owned by this server")
  require (row.response = none) (.unavailable "UI delivery already has a durable response")
  return row

/-- The columns that an update of a row's state rewrites. -/
def Row.withIdentity (nonce ciphertext : Bytes) (identity : Identity) (nowMs : Int) (row : Row) : Row :=
  { row with
    identityNonce := nonce
    identityCiphertext := ciphertext
    phase := identity.phase
    ownerEpoch := identity.ownerEpoch
    updatedMs := nowMs }

/-! ## Operations -/

def validateKey (scope clientDeliveryId : String) : Except DeliveryError Unit := do
  require (¬ (scope = "" ∨ (utf8 scope).length > 256))
    (.valueError "principal scope is empty or too large")
  require (isDeliveryId clientDeliveryId)
    (.valueError "client_delivery_id must be 32 lowercase hex characters")

/-- `bind`, where the key has no row yet. -/
def bindFresh (store : Store) (draws : Draws) (scope clientDeliveryId : String) (contract : Contract)
    (db : List Row) : Except DeliveryError (Binding Body × List Row) := do
  require (¬ ∃ row ∈ db, row.clientDeliveryId = clientDeliveryId)
    (.contractConflict "client_delivery_id belongs to another authenticated principal")
  require (¬ db.length ≥ store.maxRecords)
    (.unavailable ("UI delivery idempotency capacity is exhausted; " ++
      "old keys were retained to prevent unsafe replay"))
  let identity : Identity :=
    { contract := contract
      deliveryId := none
      ownerEpoch := store.ownerEpoch
      phase := .bound
      transferId := "out:" ++ contract.blobHash ++ ":" ++ draws.transferHex }
  let row : Row :=
    { recordId := draws.recordId
      principalDigest := C.principalDigest scope
      clientDeliveryId := clientDeliveryId
      contractDigest := C.contractDigest contract
      identityNonce := draws.identityNonce
      identityCiphertext := C.sealIdentity draws.identityNonce identity
        (identityAad draws.recordId (C.principalDigest scope) clientDeliveryId
          (C.contractDigest contract))
      phase := .bound
      ownerEpoch := store.ownerEpoch
      response := none
      createdMs := draws.nowMs
      updatedMs := draws.nowMs }
  require (¬ ∃ other ∈ db, other.recordId = draws.recordId)
    (.valueError "UNIQUE constraint failed: ui_file_deliveries.record_id")
  let binding ← bindingOf C store.ownerEpoch row scope contract true
  return (binding, db ++ [row])

/-- `bind`, where the key has a row. -/
def bindExisting (store : Store) (draws : Draws) (scope clientDeliveryId : String)
    (contract : Contract) (row : Row) (db : List Row) :
    Except DeliveryError (Binding Body × List Row) := do
  assertContract C row contract
  let existing ← bindingOf C store.ownerEpoch row scope contract false
  if existing.response.isSome ∨ existing.phase = .dispatching then
    return (existing, db)
  else if row.ownerEpoch = store.ownerEpoch then
    -- a concurrent request in this server already owns admission
    return (existing, db)
  else do
    let identity : Identity :=
      { contract := contract
        deliveryId := existing.deliveryId
        ownerEpoch := store.ownerEpoch
        phase := existing.phase
        transferId := existing.transferId }
    let ciphertext ← encodeIdentity C row draws.identityNonce identity
    let db := updateRow C scope clientDeliveryId
      (Row.withIdentity draws.identityNonce ciphertext identity draws.nowMs) db
    match selectRow C scope clientDeliveryId db with
    | none => .error (.integrity "durable binding disappeared")
    | some row => do
      let binding ← bindingOf C store.ownerEpoch row scope contract true
      return (binding, db)

/-- The body of `bind`'s transaction. -/
def bindBody (store : Store) (draws : Draws) (scope clientDeliveryId : String) (contract : Contract)
    (db : List Row) : Except DeliveryError (Binding Body × List Row) :=
  match selectRow C scope clientDeliveryId db with
  | none => bindFresh C store draws scope clientDeliveryId contract db
  | some row => bindExisting C store draws scope clientDeliveryId contract row db

/-- Rewrite a row's state and read it back. -/
def rewrite (store : Store) (draws : Draws) (binding : Binding Body) (row : Row) (identity : Identity)
    (ownsAttempt : Bool) (db : List Row) : Except DeliveryError (Binding Body × List Row) := do
  let ciphertext ← encodeIdentity C row draws.identityNonce identity
  let db := updateRow C binding.principalScope binding.clientDeliveryId
    (Row.withIdentity draws.identityNonce ciphertext identity draws.nowMs) db
  let binding ← readBinding C store binding ownsAttempt db
  return (binding, db)

/-- `_advance`: the phases that a phase is entered from. -/
def allowed : Phase → List Phase
  | .queued => [.bound, .queued]
  | .dispatching => [.queued, .dispatching]
  | _ => []

def advance (store : Store) (draws : Draws) (binding : Binding Body) (phase : Phase)
    (deliveryId : Option String) (db : List Row) :
    Except DeliveryError (Binding Body × List Row) := do
  let row ← requireOwnedRow C store binding db
  require (row.phase ∈ allowed phase)
    (.unavailable ("invalid UI delivery phase transition " ++ row.phase.repr ++ " -> " ++ phase.repr))
  let identity ← decodeIdentity C row
  require (¬ (deliveryId ≠ none ∧ identity.deliveryId ≠ none ∧ identity.deliveryId ≠ deliveryId))
    (.unavailable "wire delivery id changed for bound intent")
  let next := if deliveryId ≠ none then deliveryId else identity.deliveryId
  require (¬ (phase = .dispatching ∧ next = none))
    (.unavailable "dispatching requires a durable wire delivery identity")
  rewrite C store draws binding row
    { contract := binding.contract
      deliveryId := next
      ownerEpoch := store.ownerEpoch
      phase := phase
      transferId := identity.transferId } true db

/-- The body of `release_before_dispatch`. -/
def release (store : Store) (draws : Draws) (binding : Binding Body) (db : List Row) :
    Except DeliveryError (Binding Body × List Row) := do
  let row ← requireOwnedRow C store binding db
  require (row.phase ≠ .dispatching) (.unavailable "cannot release an outcome-unknown delivery")
  let identity ← decodeIdentity C row
  rewrite C store draws binding row
    { identity with contract := binding.contract, ownerEpoch := "", phase := row.phase } false db

/-- The checks of `_record_response` on its arguments, and the response's encoding. -/
def encodeResponse (status : Int) (body : Body) : Except DeliveryError Bytes := do
  require (100 ≤ status ∧ status ≤ 599) (.valueError "HTTP response status is outside 100..599")
  match C.dumps body with
  | none => .error (.valueError "HTTP response is not canonical JSON")
  | some encoded => do
    require (¬ encoded.length > 64 * 1024)
      (.valueError "HTTP response is too large for idempotency accounting")
    return encoded

/-- The ownership check of `_record_response`. -/
def requireRecorder (store : Store) (row : Row) (reconciledAfterRestart : Bool) :
    Except DeliveryError Unit :=
  if reconciledAfterRestart then do
    require (row.phase = .dispatching)
      (.unavailable "only a dispatching delivery may be ledger-reconciled")
    require (row.ownerEpoch ≠ store.ownerEpoch)
      (.unavailable "current server delivery cannot use restart reconciliation")
  else
    require (row.ownerEpoch = store.ownerEpoch)
      (.unavailable "UI delivery attempt is not owned by this server")

/-- The second update of `_record_response`, under the identity just sealed. -/
def Row.withResponse (status : Nat) (nonce encoded : Bytes) (row : Row) : Row :=
  { row with
    response := some (status, nonce, C.sealResponse nonce encoded (row.responseAad C status)) }

/-- The body of `_record_response`. -/
def recordResponse (store : Store) (draws : Draws) (binding : Binding Body) (status : Nat)
    (body : Body) (encoded : Bytes) (reconciledAfterRestart : Bool) (db : List Row) :
    Except DeliveryError (Binding Body × List Row) := do
  let row ← rowFor C binding db
  assertBindingRow C row binding
  let recorded ← decodeResponse C row
  match recorded with
  | some response => do
    require (response = (status, body)) (.unavailable "durable response is immutable")
    let binding ← bindingOf C store.ownerEpoch row binding.principalScope binding.contract false
    return (binding, db)
  | none => do
    requireRecorder store row reconciledAfterRestart
    let identity ← decodeIdentity C row
    let identity : Identity :=
      { identity with
        contract := binding.contract
        ownerEpoch := store.ownerEpoch
        phase := .result }
    let ciphertext ← encodeIdentity C row draws.identityNonce identity
    let db := updateRow C binding.principalScope binding.clientDeliveryId
      (fun row => (row.withIdentity draws.identityNonce ciphertext identity draws.nowMs).withResponse
        C status draws.responseNonce encoded) db
    let binding ← readBinding C store binding false db
    return (binding, db)

/-- The body of `reclaim_dispatching_before_wire`. -/
def reclaim (store : Store) (draws : Draws) (binding : Binding Body) (db : List Row) :
    Except DeliveryError (Binding Body × List Row) := do
  let row ← rowFor C binding db
  assertBindingRow C row binding
  require (row.response = none) (.unavailable "UI delivery already has a response")
  require (row.phase = .dispatching) (.unavailable "only a dispatching delivery may be reclaimed")
  require (row.ownerEpoch ≠ store.ownerEpoch)
    (.unavailable "current server delivery cannot be restart-reclaimed")
  let identity ← decodeIdentity C row
  require (isDeliveryId (identity.deliveryId.getD ""))
    (.unavailable "dispatching delivery has no durable wire identity")
  rewrite C store draws binding row
    { identity with contract := binding.contract, ownerEpoch := store.ownerEpoch, phase := .queued }
    true db

/-! ## Calls and transactions -/

inductive Call (Body : Type) where
  | bind (scope clientDeliveryId : String) (contract : Contract)
  | markQueued (binding : Binding Body) (deliveryId : String)
  | markDispatching (binding : Binding Body)
  | releaseBeforeDispatch (binding : Binding Body)
  | recordResponse (binding : Binding Body) (status : Int) (body : Body)
  | recordReconciledResponse (binding : Binding Body) (status : Int) (body : Body)
  | reclaimDispatchingBeforeWire (binding : Binding Body)

/-- What a call checks before its transaction begins. -/
def Call.precheck : Call Body → Except DeliveryError Unit
  | .bind scope clientDeliveryId contract => do
    validateKey scope clientDeliveryId
    contract.validate
  | .markQueued _ deliveryId =>
    require (isDeliveryId deliveryId)
      (.valueError "wire delivery_id must be 32 lowercase hex characters")
  | .recordResponse _ status body => discard (encodeResponse C status body)
  | .recordReconciledResponse _ status body => discard (encodeResponse C status body)
  | _ => .ok ()

/-- The body of a call's transaction. -/
def Call.body (store : Store) (draws : Draws) (db : List Row) :
    Call Body → Except DeliveryError (Binding Body × List Row)
  | .bind scope clientDeliveryId contract => bindBody C store draws scope clientDeliveryId contract db
  | .markQueued binding deliveryId => advance C store draws binding .queued (some deliveryId) db
  | .markDispatching binding => advance C store draws binding .dispatching none db
  | .releaseBeforeDispatch binding => release C store draws binding db
  | .recordResponse binding status body => do
    let encoded ← encodeResponse C status body
    UiDelivery.recordResponse C store draws binding status.toNat body encoded false db
  | .recordReconciledResponse binding status body => do
    let encoded ← encodeResponse C status body
    UiDelivery.recordResponse C store draws binding status.toNat body encoded true db
  | .reclaimDispatchingBeforeWire binding => reclaim C store draws binding db

/-- What goes wrong around a transaction: `BEGIN` or `COMMIT` fails, the check of the paths behind
the commit fails, or the process dies before or behind the commit. -/
inductive Fault where
  | none
  | begin
  | commit
  | harden
  | dieBefore
  | dieAfter
deriving DecidableEq, Repr

inductive Outcome (Body : Type) where
  | returned (binding : Binding Body)
  | raised (error : DeliveryError)
  | died
deriving DecidableEq

/-- What a call does to the table and to its store, which a fault may close for good. -/
structure Effect (Body : Type) where
  outcome : Outcome Body
  db : List Row
  closes : Bool

/-- `_Transaction.__exit__` on an exception: domain outcomes leave the store open. -/
def rolledBack (db : List Row) : DeliveryError → Effect Body
  | .contractConflict text => ⟨.raised (.contractConflict text), db, false⟩
  | .unavailable text => ⟨.raised (.unavailable text), db, false⟩
  | .integrity _ =>
    ⟨.raised (.unavailable "durable UI delivery integrity failed; store is fail-closed"), db, true⟩
  | .valueError _ =>
    ⟨.raised (.unavailable "durable UI delivery operation failed; store is fail-closed"), db, true⟩

/-- A call in a store that is open or not. -/
def Call.run (call : Call Body) (store : Store) (isOpen : Bool) (draws : Draws) (fault : Fault)
    (db : List Row) : Effect Body :=
  match call.precheck C with
  | .error error => ⟨.raised error, db, false⟩
  | .ok () =>
    if ¬ isOpen then ⟨.raised (.unavailable "UI delivery store is fail-closed"), db, false⟩
    else if fault = .begin then
      ⟨.raised (.unavailable "cannot begin durable UI delivery transaction"), db, false⟩
    else if fault = .dieBefore then ⟨.died, db, true⟩
    else
      match call.body C store draws db with
      | .error error => rolledBack db error
      | .ok (binding, db') =>
        match fault with
        | .commit =>
          ⟨.raised (.unavailable "durable UI delivery commit failed; store is fail-closed"), db, true⟩
        | .harden =>
          ⟨.raised (.unavailable "durable UI delivery path sync failed; store is fail-closed"), db',
            true⟩
        | .dieAfter => ⟨.died, db', true⟩
        | _ => ⟨.returned binding, db', false⟩

end OneLink.UiDelivery
