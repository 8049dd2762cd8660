/-
# UiDelivery.Changes -- what a call that succeeds does to the table

`Call.body_cases` is the one inversion: the table stays, or a bind adds the first
row of its key, or the row of the call's key moves on (`Call.Moves`) and keeps
what is bound to it (`Kept`).  Every change is read back before it is committed,
so a rewritten row is sound without a proof that its envelope opens.
-/
import Mathlib.Data.Set.Function
import OneLink.Library.Table
import OneLink.UiDelivery.Store

namespace OneLink.UiDelivery

open Library

set_option autoImplicit false

variable {Body : Type}

/-! ## What a call is about -/

/-- How a call moves the row of its key on. -/
def Call.Moves (store : Store) (r r' : Row) : Call Body → Prop
  | .bind .. => r.phase ≠ .dispatching ∧ r.ownerEpoch ≠ store.ownerEpoch ∧ r'.phase = r.phase ∧
      r'.ownerEpoch = store.ownerEpoch ∧ r'.response = none
  | .markQueued .. => r.phase ≠ .dispatching ∧ r.ownerEpoch = store.ownerEpoch ∧ r'.phase = .queued ∧
      r'.ownerEpoch = store.ownerEpoch ∧ r'.response = none
  | .markDispatching .. => r.ownerEpoch = store.ownerEpoch ∧ r'.phase = .dispatching ∧
      r'.ownerEpoch = store.ownerEpoch ∧ r'.response = none
  | .releaseBeforeDispatch .. => r.phase ≠ .dispatching ∧ r'.phase = r.phase ∧ r'.response = none
  | .recordResponse .. => r'.response.isSome
  | .recordReconciledResponse .. => r'.response.isSome
  | .reclaimDispatchingBeforeWire .. => r.phase = .dispatching ∧
      r.ownerEpoch ≠ store.ownerEpoch ∧ r'.phase = .queued ∧ r'.ownerEpoch = store.ownerEpoch ∧
      r'.response = none

/-- The principal and the client delivery id a call is about. -/
def Call.scope : Call Body → String
  | .bind scope _ _ => scope
  | .markQueued binding _ | .markDispatching binding | .releaseBeforeDispatch binding
  | .recordResponse binding _ _ | .recordReconciledResponse binding _ _
  | .reclaimDispatchingBeforeWire binding => binding.principalScope

def Call.clientDeliveryId : Call Body → String
  | .bind _ clientDeliveryId _ => clientDeliveryId
  | .markQueued binding _ | .markDispatching binding | .releaseBeforeDispatch binding
  | .recordResponse binding _ _ | .recordReconciledResponse binding _ _
  | .reclaimDispatchingBeforeWire binding => binding.clientDeliveryId

def Call.contract : Call Body → Contract
  | .bind _ _ contract => contract
  | .markQueued binding _ | .markDispatching binding | .releaseBeforeDispatch binding
  | .recordResponse binding _ _ | .recordReconciledResponse binding _ _
  | .reclaimDispatchingBeforeWire binding => binding.contract

def Call.isBind : Call Body → Bool
  | .bind .. => true
  | _ => false

/-- Calls that succeed only by moving the row of their key on. -/
def Call.advances : Call Body → Bool
  | .markQueued .. | .markDispatching .. | .releaseBeforeDispatch ..
  | .reclaimDispatchingBeforeWire .. => true
  | _ => false

/-- Whether a call that moves a row hands out an owner binding. -/
def Call.grants : Call Body → Bool
  | .bind .. | .markQueued .. | .markDispatching .. | .reclaimDispatchingBeforeWire .. => true
  | _ => false

/-- The key of a send: the digest of its principal, and its client's delivery id. -/
def Row.key (row : Row) : Bytes × String := (row.principalDigest, row.clientDeliveryId)

def Call.key (C : Crypto Body) (call : Call Body) : Bytes × String :=
  (C.principalDigest call.scope, call.clientDeliveryId)

variable (C : Crypto Body)

/-- What is relied on of the contract digest, among the contracts in use, and of the identity
envelope: what opens is what was sealed. -/
structure Crypto.Lawful (contracts : Set Contract) : Prop where
  apart : Set.InjOn C.contractDigest contracts
  opens : ∀ nonce identity aad, ∀ opened ∈ C.openIdentity nonce (C.sealIdentity nonce identity aad) aad,
    opened = identity

/-- What a row keeps: its key, its contract and transfer id, a delivery id once set, and everything
once it has a response. -/
structure Kept (r r' : Row) : Prop where
  key : r'.recordId = r.recordId ∧ r'.principalDigest = r.principalDigest ∧
    r'.clientDeliveryId = r.clientDeliveryId ∧ r'.contractDigest = r.contractDigest
  identity : ∀ i, decodeIdentity C r = .ok i → ∃ i', decodeIdentity C r' = .ok i' ∧
    i'.transferId = i.transferId ∧ i'.contract = i.contract ∧
      ∀ d, i.deliveryId = some d → i'.deliveryId = some d
  response : r.response.isSome → r' = r

variable {C} {contracts : Set Contract}

theorem Kept.refl (r : Row) : Kept C r r where
  key := ⟨rfl, rfl, rfl, rfl⟩
  identity i decoded := ⟨i, decoded, rfl, rfl, fun _ set => set⟩
  response _ := rfl

theorem Kept.trans {r r' r'' : Row} (first : Kept C r r') (second : Kept C r' r'') : Kept C r r'' where
  key := by
    obtain ⟨a, b, c, d⟩ := first.key
    obtain ⟨a', b', c', d'⟩ := second.key
    exact ⟨a'.trans a, b'.trans b, c'.trans c, d'.trans d⟩
  identity i decoded := by
    obtain ⟨i', decoded', transfer, contract, delivery⟩ := first.identity i decoded
    obtain ⟨i'', decoded'', transfer', contract', delivery'⟩ := second.identity i' decoded'
    exact ⟨i'', decoded'', transfer'.trans transfer, contract'.trans contract,
      fun d set => delivery' d (delivery d set)⟩
  response some := by
    obtain rfl := first.response some
    exact second.response some

/-- A row that is sealed anew keeps what its new identity keeps. -/
theorem kept_of_sealed (lawful : C.Lawful contracts) {r r' : Row} {i i' : Identity}
    (decoded : decodeIdentity C r = .ok i) (noResponse : r.response = none) (sound : r'.Sound C)
    (key : r'.recordId = r.recordId ∧ r'.principalDigest = r.principalDigest ∧
      r'.clientDeliveryId = r.clientDeliveryId ∧ r'.contractDigest = r.contractDigest)
    (sealed : r'.identityCiphertext = C.sealIdentity r'.identityNonce i' r.aad)
    (transfer : i'.transferId = i.transferId) (contract : i'.contract = i.contract)
    (delivery : ∀ d, i.deliveryId = some d → i'.deliveryId = some d) : Kept C r r' where
  key := key
  identity j decoded' := by
    obtain rfl := Except.ok.inj (decoded.symm.trans decoded')
    obtain ⟨k, opened⟩ := sound.identity
    have aads : r'.aad = r.aad := by
      obtain ⟨a, b, c, d⟩ := key
      rw [Row.aad, Row.aad, a, b, c, d]
    have same := (decodeIdentity_eq_ok.1 opened).1
    rw [sealed, aads] at same
    obtain rfl := lawful.opens _ _ _ _ same
    exact ⟨k, opened, transfer, contract, delivery⟩
  response some := by
    rw [noResponse] at some
    cases some

theorem decodeIdentity_digest {row : Row} {i : Identity} (decoded : decodeIdentity C row = .ok i) :
    row.contractDigest = C.contractDigest i.contract ∧ i.phase = row.phase ∧
      i.ownerEpoch = row.ownerEpoch := by
  have checked := (decodeIdentity_eq_ok.1 decoded).2
  simp only [checkIdentity, bind_eq_ok, require_eq_ok, exists_const] at checked
  obtain ⟨_, _, _, phase, owner, _, digest⟩ := checked
  exact ⟨digest, phase, owner⟩

/-! ## One row of the table -/

/-- Client delivery ids are never shared; every row is authentic, under a contract in use. -/
structure Intact (C : Crypto Body) (contracts : Set Contract) (db : List Row) : Prop where
  distinct : (db.map Row.clientDeliveryId).Nodup
  sound : ∀ row ∈ db, row.Sound C
  known : ∀ row ∈ db, ∀ i, decodeIdentity C row = .ok i → i.contract ∈ contracts

variable {scope clientDeliveryId : String} {db early late : List Row} {row : Row}

theorem selectRow_eq_some (intact : Intact C contracts db)
    (found : selectRow C scope clientDeliveryId db = some row) :
    row.IsOf C scope clientDeliveryId ∧ ∃ early late, db = early ++ row :: late ∧
      ∀ other ∈ early ++ late, ¬ other.IsOf C scope clientDeliveryId := by
  obtain ⟨isOf, early, late, split, apart⟩ := Table.split_of_find? intact.distinct found
  rw [decide_eq_true_eq] at isOf
  exact ⟨isOf, early, late, split, fun other present same => apart other present
    (same.2.trans isOf.2.symm)⟩

/-- The contract of a binding that was checked against a row is the one sealed there. -/
theorem sealed_contract (lawful : C.Lawful contracts) (intact : Intact C contracts db) {i : Identity}
    {contract : Contract} (used : contract ∈ contracts)
    (found : selectRow C scope clientDeliveryId db = some row) (decoded : decodeIdentity C row = .ok i)
    (digest : row.contractDigest = C.contractDigest contract) : contract = i.contract :=
  lawful.apart used (intact.known row (List.mem_of_find?_eq_some found) i decoded)
    (digest.symm.trans (decodeIdentity_digest decoded).1)

theorem selectRow_middle (isOf : row.IsOf C scope clientDeliveryId)
    (apart : ∀ other ∈ early ++ late, ¬ other.IsOf C scope clientDeliveryId) :
    selectRow C scope clientDeliveryId (early ++ row :: late) = some row := by
  have before : early.find? (fun row => row.IsOf C scope clientDeliveryId) = none := by
    rw [List.find?_eq_none]
    intro other present
    rw [decide_eq_true_eq]
    exact apart other (List.mem_append_left _ present)
  rw [selectRow, List.find?_append, before, Option.none_or]
  exact List.find?_cons_of_pos (decide_eq_true isOf)

variable {store : Store} {draws : Draws} {binding binding' : Binding Body}
  {db' : List Row}

theorem rowFor_eq_ok :
    rowFor C binding db = .ok row ↔
      selectRow C binding.principalScope binding.clientDeliveryId db = some row := by
  rw [rowFor]
  cases selectRow C binding.principalScope binding.clientDeliveryId db with
  | none => exact ⟨nofun, nofun⟩
  | some found => rw [Except.ok.injEq, Option.some.injEq]

theorem assertBindingRow_digest {u : Unit} (asserted : assertBindingRow C row binding = .ok u) :
    row.contractDigest = C.contractDigest binding.contract := by
  simp only [assertBindingRow, assertContract, bind_eq_ok, require_eq_ok, exists_const] at asserted
  exact asserted.2.2.1

theorem readBinding_selected {owns : Bool} (read : readBinding C store binding owns db = .ok binding')
    (selected : selectRow C binding.principalScope binding.clientDeliveryId db = some row) :
    row.Sound C ∧ binding'.principalScope = binding.principalScope ∧
      binding'.clientDeliveryId = row.clientDeliveryId ∧ binding'.ownsAttempt = owns := by
  simp only [readBinding, bind_eq_ok, rowFor_eq_ok, selected, Option.some.injEq] at read
  obtain ⟨_, rfl, _, _, made⟩ := read
  obtain ⟨sound, _, scopes, clients, _, _, owned, _⟩ := bindingOf_eq_ok made
  exact ⟨sound, scopes, clients, owned⟩

/-- A change of one row by a call. -/
structure Rewritten (scope clientDeliveryId : String) (r r' : Row) (db db' : List Row) : Prop where
  isOf : r.IsOf C scope clientDeliveryId
  noResponse : r.response = none
  kept : Kept C r r'
  sound : r'.Sound C
  splits : ∃ early late, db = early ++ r :: late ∧ db' = early ++ r' :: late ∧
    ∀ other ∈ early ++ late, ¬ other.IsOf C scope clientDeliveryId

/-- The first row of a key. -/
structure Inserted (store : Store) (scope clientDeliveryId : String) (contract : Contract) (r : Row)
    (db db' : List Row) : Prop where
  isOf : r.IsOf C scope clientDeliveryId
  fresh : ∀ other ∈ db, other.clientDeliveryId ≠ clientDeliveryId
  sound : r.Sound C
  sealed : ∀ i, decodeIdentity C r = .ok i → i.contract = contract
  phase : r.phase = .bound
  owner : r.ownerEpoch = store.ownerEpoch
  noResponse : r.response = none
  added : db' = db ++ [r]

/-- An update of the row of a key, found again under it; the new row is the caller's to check. -/
theorem update_spec (lawful : C.Lawful contracts) (intact : Intact C contracts db) {f : Row → Row} {i i' : Identity}
    (sealed : (f row).identityCiphertext = C.sealIdentity (f row).identityNonce i' row.aad)
    (found : selectRow C scope clientDeliveryId db = some row)
    (decoded : decodeIdentity C row = .ok i) (noResponse : row.response = none)
    (key : (f row).recordId = row.recordId ∧ (f row).principalDigest = row.principalDigest ∧
      (f row).clientDeliveryId = row.clientDeliveryId ∧ (f row).contractDigest = row.contractDigest)
    (transfer : i'.transferId = i.transferId) (contract : i'.contract = i.contract)
    (delivery : ∀ d, i.deliveryId = some d → i'.deliveryId = some d) :
    selectRow C scope clientDeliveryId (updateRow C scope clientDeliveryId f db) = some (f row) ∧
      (f row).clientDeliveryId = clientDeliveryId ∧
      ((f row).Sound C → @Rewritten Body C scope clientDeliveryId row (f row) db
        (updateRow C scope clientDeliveryId f db)) := by
  obtain ⟨isOf, early, late, split, apart⟩ := selectRow_eq_some intact found
  have updated : updateRow C scope clientDeliveryId f db = early ++ f row :: late := by
    rw [updateRow, split]
    exact Table.update_middle isOf apart f
  have isOf' : (f row).IsOf C scope clientDeliveryId := by
    obtain ⟨_, principal, client, _⟩ := key
    exact ⟨principal.trans isOf.1, client.trans isOf.2⟩
  refine ⟨?_, isOf'.2, fun sound => ⟨isOf, noResponse,
    kept_of_sealed lawful decoded noResponse sound key sealed transfer contract delivery, sound,
    early, late, split, updated, apart⟩⟩
  rw [updated]
  exact selectRow_middle isOf' apart

theorem encodeIdentity_eq_ok {nonce ciphertext : Bytes} {i : Identity}
    (encoded : encodeIdentity C row nonce i = .ok ciphertext) :
    ciphertext = C.sealIdentity nonce i row.aad := by
  simp only [encodeIdentity, bind_eq_ok, require_eq_ok, exists_const, pure_eq_ok_iff] at encoded
  exact encoded.2.symm

/-- `rewrite`, where the identity sealed anew keeps what the row is bound to. -/
theorem rewrite_spec (lawful : C.Lawful contracts) (intact : Intact C contracts db) {i i' : Identity} {owns : Bool}
    (ran : rewrite C store draws binding row i' owns db = .ok (binding', db'))
    (found : selectRow C binding.principalScope binding.clientDeliveryId db = some row)
    (decoded : decodeIdentity C row = .ok i) (noResponse : row.response = none)
    (transfer : i'.transferId = i.transferId) (contract : i'.contract = i.contract)
    (delivery : ∀ d, i.deliveryId = some d → i'.deliveryId = some d) :
    ∃ r', @Rewritten Body C binding.principalScope binding.clientDeliveryId row r' db db' ∧
      r'.phase = i'.phase ∧ r'.ownerEpoch = i'.ownerEpoch ∧ r'.response = none ∧
      binding'.principalScope = binding.principalScope ∧
      binding'.clientDeliveryId = binding.clientDeliveryId ∧ binding'.ownsAttempt = owns := by
  simp only [rewrite, bind_eq_ok, pure_eq_ok_iff, Prod.mk.injEq] at ran
  obtain ⟨ciphertext, encoded, _, read, rfl, rfl⟩ := ran
  have sealed := encodeIdentity_eq_ok encoded
  obtain ⟨selected, client, rewritten⟩ := update_spec lawful intact (f := Row.withIdentity
    draws.identityNonce ciphertext i' draws.nowMs) sealed found decoded noResponse
    ⟨rfl, rfl, rfl, rfl⟩ transfer contract delivery
  obtain ⟨sound, scopes, clients, owned⟩ := readBinding_selected read selected
  exact ⟨_, rewritten sound, rfl, rfl, noResponse, scopes, clients.trans client, owned⟩

/-! ## The operations -/

theorem requireOwnedRow_eq_ok (ran : requireOwnedRow C store binding db = .ok row) :
    selectRow C binding.principalScope binding.clientDeliveryId db = some row ∧
      row.contractDigest = C.contractDigest binding.contract ∧
      row.ownerEpoch = store.ownerEpoch ∧ row.response = none := by
  simp only [requireOwnedRow, bind_eq_ok, require_eq_ok, exists_const, rowFor_eq_ok, pure_eq_ok_iff]
    at ran
  obtain ⟨found, selected, _, asserted, owner, noResponse, rfl⟩ := ran
  exact ⟨selected, assertBindingRow_digest asserted, owner, noResponse⟩

theorem bindFresh_spec (lawful : C.Lawful contracts) {contract : Contract}
    (ran : bindFresh C store draws scope clientDeliveryId contract db = .ok (binding', db')) :
    (∃ r, @Inserted Body C store scope clientDeliveryId contract r db db') ∧
      binding'.principalScope = scope ∧ binding'.clientDeliveryId = clientDeliveryId ∧
      binding'.ownsAttempt = true := by
  simp only [bindFresh, bind_eq_ok, require_eq_ok, exists_const, pure_eq_ok_iff, Prod.mk.injEq] at ran
  obtain ⟨fresh, _, _, _, made, rfl, rfl⟩ := ran
  obtain ⟨sound, _, scopes, clients, _, _, owned, _⟩ := bindingOf_eq_ok made
  refine ⟨⟨_, ⟨rfl, rfl⟩, ?_, sound, ?_, rfl, rfl, rfl, rfl⟩, scopes, clients, owned⟩
  · intro other present same
    exact fresh ⟨other, present, same⟩
  · intro i decoded
    have same := (decodeIdentity_eq_ok.1 decoded).1
    rw [lawful.opens _ _ _ _ same]

section

variable (lawful : C.Lawful contracts) (intact : Intact C contracts db)

include lawful intact

theorem advance_spec (used : binding.contract ∈ contracts) {phase : Phase} {deliveryId : Option String}
    (ran : advance C store draws binding phase deliveryId db = .ok (binding', db')) :
    ∃ r r', @Rewritten Body C binding.principalScope binding.clientDeliveryId r r' db db' ∧
      r.phase ∈ allowed phase ∧ r.ownerEpoch = store.ownerEpoch ∧ r'.phase = phase ∧
      r'.ownerEpoch = store.ownerEpoch ∧ r'.response = none ∧
      binding'.principalScope = binding.principalScope ∧
      binding'.clientDeliveryId = binding.clientDeliveryId ∧ binding'.ownsAttempt = true := by
  simp only [advance, bind_eq_ok, require_eq_ok, exists_const] at ran
  obtain ⟨row, owned, phases, i, decoded, delivery, _, ran⟩ := ran
  obtain ⟨found, digest, owner, noResponse⟩ := requireOwnedRow_eq_ok owned
  have kept : ∀ d, i.deliveryId = some d →
      (if deliveryId ≠ none then deliveryId else i.deliveryId) = some d := by
    intro d set
    split
    · rename_i given
      by_contra other
      rw [set] at delivery
      exact delivery ⟨given, Option.some_ne_none d, Ne.symm other⟩
    · exact set
  obtain ⟨r', rewritten, phase', owner', response', fields⟩ := rewrite_spec lawful intact ran found
    decoded noResponse rfl (sealed_contract lawful intact used found decoded digest) kept
  exact ⟨row, r', rewritten, phases, owner, phase', owner', response', fields⟩

theorem release_spec (used : binding.contract ∈ contracts)
    (ran : release C store draws binding db = .ok (binding', db')) :
    ∃ r r', @Rewritten Body C binding.principalScope binding.clientDeliveryId r r' db db' ∧
      r.phase ≠ .dispatching ∧ r'.phase = r.phase ∧ r'.response = none ∧
      binding'.principalScope = binding.principalScope ∧
      binding'.clientDeliveryId = binding.clientDeliveryId ∧ binding'.ownsAttempt = false := by
  simp only [release, bind_eq_ok, require_eq_ok, exists_const] at ran
  obtain ⟨row, owned, phase, i, decoded, ran⟩ := ran
  obtain ⟨found, digest, _, noResponse⟩ := requireOwnedRow_eq_ok owned
  obtain ⟨r', rewritten, phase', _, response', fields⟩ := rewrite_spec lawful intact ran found
    decoded noResponse rfl (sealed_contract lawful intact used found decoded digest) fun _ set => set
  exact ⟨row, r', rewritten, phase, phase', response', fields⟩

theorem reclaim_spec (used : binding.contract ∈ contracts)
    (ran : reclaim C store draws binding db = .ok (binding', db')) :
    ∃ r r', @Rewritten Body C binding.principalScope binding.clientDeliveryId r r' db db' ∧
      r.phase = .dispatching ∧ r.ownerEpoch ≠ store.ownerEpoch ∧ r'.phase = .queued ∧
      r'.ownerEpoch = store.ownerEpoch ∧ r'.response = none ∧
      binding'.principalScope = binding.principalScope ∧
      binding'.clientDeliveryId = binding.clientDeliveryId ∧ binding'.ownsAttempt = true := by
  simp only [reclaim, bind_eq_ok, require_eq_ok, exists_const, rowFor_eq_ok] at ran
  obtain ⟨row, found, _, asserted, noResponse, phase, owner, i, decoded, _, ran⟩ := ran
  obtain ⟨r', rewritten, phase', owner', response', fields⟩ := rewrite_spec lawful intact ran found
    decoded noResponse rfl (sealed_contract lawful intact used found decoded (assertBindingRow_digest asserted))
    fun _ set => set
  exact ⟨row, r', rewritten, phase, owner, phase', owner', response', fields⟩

/-- A response is recorded once; recording it again changes nothing. -/
theorem recordResponse_spec [DecidableEq Body] (used : binding.contract ∈ contracts) {status : Nat} {body : Body} {encoded : Bytes}
    {reconciled : Bool}
    (ran : recordResponse C store draws binding status body encoded reconciled db =
      .ok (binding', db')) :
    (db' = db ∨
      ∃ r r', @Rewritten Body C binding.principalScope binding.clientDeliveryId r r' db db' ∧
        r'.response.isSome) ∧
      binding'.principalScope = binding.principalScope ∧
      binding'.clientDeliveryId = binding.clientDeliveryId ∧ binding'.ownsAttempt = false := by
  simp only [recordResponse, bind_eq_ok, rowFor_eq_ok] at ran
  obtain ⟨row, found, _, asserted, recorded, decodedResponse, ran⟩ := ran
  have digest := assertBindingRow_digest asserted
  cases recorded with
  | some response =>
    simp only [bind_eq_ok, require_eq_ok, exists_const, pure_eq_ok_iff, Prod.mk.injEq] at ran
    obtain ⟨_, _, made, rfl, rfl⟩ := ran
    obtain ⟨_, _, scopes, clients, _, _, owned, _⟩ := bindingOf_eq_ok made
    exact ⟨.inl rfl, scopes, clients.trans (selectRow_eq_some intact found).1.2, owned⟩
  | none =>
    simp only [bind_eq_ok, pure_eq_ok_iff, Prod.mk.injEq] at ran
    obtain ⟨_, _, i, decoded, ciphertext, encodedIdentity, _, read, rfl, rfl⟩ := ran
    have sealed := encodeIdentity_eq_ok encodedIdentity
    have noResponse : row.response = none := by
      have columns := decodeResponse_isSome decodedResponse
      rw [Option.isSome_none] at columns
      exact Option.isSome_eq_false_iff.1 columns.symm |> Option.isNone_iff_eq_none.1
    obtain ⟨selected, client, rewritten⟩ := update_spec lawful intact (f := fun row =>
      (row.withIdentity draws.identityNonce ciphertext _ draws.nowMs).withResponse C status
        draws.responseNonce encoded) sealed found decoded noResponse ⟨rfl, rfl, rfl, rfl⟩ rfl
      (sealed_contract lawful intact used found decoded digest) fun _ set => set
    obtain ⟨sound, scopes, clients, owned⟩ := readBinding_selected read selected
    exact ⟨.inr ⟨row, _, rewritten sound, rfl⟩, scopes, clients.trans client, owned⟩

theorem bindExisting_spec {contract : Contract} (used : contract ∈ contracts)
    (found : selectRow C scope clientDeliveryId db = some row)
    (ran : bindExisting C store draws scope clientDeliveryId contract row db = .ok (binding', db')) :
    (db' = db ∧ binding'.ownsAttempt = false ∨
      ∃ r', @Rewritten Body C scope clientDeliveryId row r' db db' ∧
        row.phase ≠ .dispatching ∧ row.ownerEpoch ≠ store.ownerEpoch ∧ r'.phase = row.phase ∧
        r'.ownerEpoch = store.ownerEpoch ∧ r'.response = none ∧ binding'.ownsAttempt = true) ∧
      binding'.principalScope = scope ∧ binding'.clientDeliveryId = clientDeliveryId := by
  simp only [bindExisting, bind_eq_ok] at ran
  obtain ⟨_, _, existing, made, ran⟩ := ran
  obtain ⟨⟨⟨i, decoded⟩, _⟩, digest, scopes, clients, _, phase, owned, response, fields⟩ :=
    bindingOf_eq_ok made
  have client := (selectRow_eq_some intact found).1.2
  split at ran
  · obtain ⟨rfl, rfl⟩ := Prod.mk.inj (pure_eq_ok_iff.1 ran)
    exact ⟨.inl ⟨rfl, owned⟩, scopes, clients.trans client⟩
  split at ran
  · obtain ⟨rfl, rfl⟩ := Prod.mk.inj (pure_eq_ok_iff.1 ran)
    exact ⟨.inl ⟨rfl, owned⟩, scopes, clients.trans client⟩
  rename_i open' other
  obtain ⟨unanswered, early⟩ := not_or.1 open'
  rw [decodeResponse_isSome response, Bool.not_eq_true, Option.isSome_eq_false_iff,
    Option.isNone_iff_eq_none] at unanswered
  simp only [bind_eq_ok] at ran
  obtain ⟨ciphertext, encoded, ran⟩ := ran
  have sealed := encodeIdentity_eq_ok encoded
  obtain ⟨transfer, delivery⟩ := fields i decoded
  obtain ⟨selected, client', rewritten⟩ := update_spec lawful intact (f := Row.withIdentity
    draws.identityNonce ciphertext _ draws.nowMs) sealed found decoded unanswered
    ⟨rfl, rfl, rfl, rfl⟩ transfer (sealed_contract lawful intact used found decoded digest)
    fun d set => delivery.trans set
  rw [selected] at ran
  simp only [bind_eq_ok, pure_eq_ok_iff, Prod.mk.injEq] at ran
  obtain ⟨_, made', rfl, rfl⟩ := ran
  obtain ⟨sound, _, scopes', clients', _, _, owned', _⟩ := bindingOf_eq_ok made'
  exact ⟨.inr ⟨_, rewritten sound, phase ▸ early, other, phase, rfl, unanswered, owned'⟩, scopes',
    clients'.trans client'⟩

/-- **What a call that succeeds does to the table.**  An owner binding comes of the first row of a
key or of a row that moved on, never of a table that stays. -/
theorem Call.body_cases [DecidableEq Body] {call : Call Body} (used : call.contract ∈ contracts)
    (ran : call.body C store draws db = .ok (binding', db')) :
    (binding'.principalScope = call.scope ∧ binding'.clientDeliveryId = call.clientDeliveryId) ∧
      (db' = db ∧ binding'.ownsAttempt = false ∧ call.advances = false ∨
        call.isBind ∧ binding'.ownsAttempt = true ∧
          (∃ r, @Inserted Body C store call.scope call.clientDeliveryId call.contract r db db') ∨
        ∃ r r', @Rewritten Body C call.scope call.clientDeliveryId r r' db db' ∧
          call.Moves store r r' ∧ binding'.ownsAttempt = call.grants) := by
  cases call with
  | bind scope clientDeliveryId contract =>
    rw [Call.body, bindBody] at ran
    split at ran
    · obtain ⟨inserted, scopes, clients, owned⟩ := bindFresh_spec lawful ran
      exact ⟨⟨scopes, clients⟩, .inr (.inl ⟨rfl, owned, inserted⟩)⟩
    · rename_i found
      obtain ⟨changed, keys⟩ := bindExisting_spec lawful intact used found ran
      obtain same | ⟨r', rewritten, early, other, phase, owner, response, owned⟩ := changed
      · exact ⟨keys, .inl ⟨same.1, same.2, rfl⟩⟩
      · exact ⟨keys, .inr (.inr ⟨_, r', rewritten, ⟨early, other, phase, owner, response⟩, owned⟩)⟩
  | markQueued binding deliveryId =>
    obtain ⟨r, r', rewritten, phases, owner, phase, owner', response, scopes, clients, owned⟩ :=
      advance_spec lawful intact used ran
    refine ⟨⟨scopes, clients⟩, .inr (.inr ⟨r, r', rewritten, ⟨?_, owner, phase, owner', response⟩,
      owned⟩)⟩
    intro dispatching
    rw [dispatching] at phases
    exact absurd phases (by decide)
  | markDispatching binding =>
    obtain ⟨r, r', rewritten, _, owner, phase, owner', response, scopes, clients, owned⟩ :=
      advance_spec lawful intact used ran
    exact ⟨⟨scopes, clients⟩, .inr (.inr ⟨r, r', rewritten, ⟨owner, phase, owner', response⟩, owned⟩)⟩
  | releaseBeforeDispatch binding =>
    obtain ⟨r, r', rewritten, early, phase, response, scopes, clients, owned⟩ :=
      release_spec lawful intact used ran
    exact ⟨⟨scopes, clients⟩, .inr (.inr ⟨r, r', rewritten, ⟨early, phase, response⟩, owned⟩)⟩
  | recordResponse binding status body =>
    simp only [Call.body, bind_eq_ok] at ran
    obtain ⟨encoded, _, ran⟩ := ran
    obtain ⟨same | ⟨r, r', rewritten, answered⟩, scopes, clients, owned⟩ :=
      recordResponse_spec lawful intact used ran
    · exact ⟨⟨scopes, clients⟩, .inl ⟨same, owned, rfl⟩⟩
    · exact ⟨⟨scopes, clients⟩, .inr (.inr ⟨r, r', rewritten, answered, owned⟩)⟩
  | recordReconciledResponse binding status body =>
    simp only [Call.body, bind_eq_ok] at ran
    obtain ⟨encoded, _, ran⟩ := ran
    obtain ⟨same | ⟨r, r', rewritten, answered⟩, scopes, clients, owned⟩ :=
      recordResponse_spec lawful intact used ran
    · exact ⟨⟨scopes, clients⟩, .inl ⟨same, owned, rfl⟩⟩
    · exact ⟨⟨scopes, clients⟩, .inr (.inr ⟨r, r', rewritten, answered, owned⟩)⟩
  | reclaimDispatchingBeforeWire binding =>
    obtain ⟨r, r', rewritten, phase, owner, phase', owner', response, scopes, clients, owned⟩ :=
      reclaim_spec lawful intact used ran
    exact ⟨⟨scopes, clients⟩, .inr (.inr ⟨r, r', rewritten, ⟨phase, owner, phase', owner', response⟩,
      owned⟩)⟩

end

/-! ## The table over a call -/

theorem isOf_iff {scope clientDeliveryId : String} {row : Row} :
    row.IsOf C scope clientDeliveryId ↔ row.key = (C.principalDigest scope, clientDeliveryId) := by
  rw [Row.key, Prod.mk.injEq]
  rfl

/-- Rows go on, each keeping what is bound to it. -/
def Goes (C : Crypto Body) (db db' : List Row) : Prop := ∀ row ∈ db, ∃ row' ∈ db', Kept C row row'

variable {call : Call Body} {r r' : Row}

section Rewritten

variable (rewritten : @Rewritten Body C call.scope call.clientDeliveryId r r' db db')

include rewritten

theorem Rewritten.keys : r.key = call.key C ∧ r'.key = call.key C := by
  have first : r.key = call.key C := isOf_iff.1 rewritten.isOf
  obtain ⟨_, principal, client, _⟩ := rewritten.kept.key
  refine ⟨first, ?_⟩
  rw [Row.key, principal, client]
  exact first

theorem Rewritten.mem : r ∈ db ∧ r' ∈ db' := by
  obtain ⟨early, late, rfl, rfl, _⟩ := rewritten.splits
  exact ⟨List.mem_append_right _ List.mem_cons_self, List.mem_append_right _ List.mem_cons_self⟩

theorem Rewritten.elsewhere {row : Row} (other : row.key ≠ call.key C) : row ∈ db ↔ row ∈ db' := by
  obtain ⟨first, second⟩ := rewritten.keys
  have apart : row ≠ r := fun same => other (same ▸ first)
  have apart' : row ≠ r' := fun same => other (same ▸ second)
  obtain ⟨early, late, rfl, rfl, _⟩ := rewritten.splits
  simp only [List.mem_append, List.mem_cons, apart, apart', false_or]

theorem Rewritten.here {row : Row} (present : row ∈ db) (same : row.key = call.key C) : row = r := by
  obtain ⟨early, late, rfl, _, apart⟩ := rewritten.splits
  obtain before | rfl | behind := by
    simpa only [List.mem_append, List.mem_cons] using present
  · exact absurd (isOf_iff.2 same) (apart row (List.mem_append_left _ before))
  · rfl
  · exact absurd (isOf_iff.2 same) (apart row (List.mem_append_right _ behind))

theorem Rewritten.here' {row : Row} (present : row ∈ db') (same : row.key = call.key C) :
    row = r' := by
  obtain ⟨early, late, _, rfl, apart⟩ := rewritten.splits
  obtain before | rfl | behind := by
    simpa only [List.mem_append, List.mem_cons] using present
  · exact absurd (isOf_iff.2 same) (apart row (List.mem_append_left _ before))
  · rfl
  · exact absurd (isOf_iff.2 same) (apart row (List.mem_append_right _ behind))

theorem Rewritten.goes : Goes C db db' := by
  intro row present
  by_cases same : row.key = call.key C
  · obtain rfl := rewritten.here present same
    exact ⟨r', rewritten.mem.2, rewritten.kept⟩
  · exact ⟨row, (rewritten.elsewhere same).1 present, Kept.refl row⟩

theorem Rewritten.intact (intact : Intact C contracts db) : Intact C contracts db' where
  distinct := by
    have ids : r'.clientDeliveryId = r.clientDeliveryId := rewritten.kept.key.2.2.1
    obtain ⟨early, late, rfl, rfl, _⟩ := rewritten.splits
    have distinct := intact.distinct
    rw [List.map_append, List.map_cons] at distinct ⊢
    rw [ids]
    exact distinct
  sound row present := by
    by_cases same : row.key = call.key C
    · rw [rewritten.here' present same]
      exact rewritten.sound
    · exact intact.sound row ((rewritten.elsewhere same).2 present)
  known row present i decoded := by
    by_cases same : row.key = call.key C
    · obtain rfl := rewritten.here' present same
      obtain ⟨j, opened⟩ := (intact.sound r rewritten.mem.1).identity
      obtain ⟨i', decoded', _, contract, _⟩ := rewritten.kept.identity j opened
      obtain rfl := Except.ok.inj (decoded.symm.trans decoded')
      rw [contract]
      exact intact.known r rewritten.mem.1 j opened
    · exact intact.known row ((rewritten.elsewhere same).2 present) i decoded

end Rewritten

theorem Inserted.intact (inserted : @Inserted Body C store call.scope call.clientDeliveryId
    call.contract r db db') (used : call.contract ∈ contracts) (intact : Intact C contracts db) :
    Intact C contracts db' := by
  obtain rfl := inserted.added
  refine ⟨?_, ?_, ?_⟩
  · rw [List.map_append, List.nodup_append]
    refine ⟨intact.distinct, List.nodup_singleton _, ?_⟩
    intro id before id' behind same
    obtain ⟨other, present, rfl⟩ := List.mem_map.1 before
    obtain rfl := List.mem_singleton.1 behind
    exact inserted.fresh other present (same.trans inserted.isOf.2)
  · intro row present
    obtain old | rfl := by simpa only [List.mem_append, List.mem_singleton] using present
    · exact intact.sound row old
    · exact inserted.sound
  · intro row present i decoded
    obtain old | rfl := by simpa only [List.mem_append, List.mem_singleton] using present
    · exact intact.known row old i decoded
    · rw [inserted.sealed i decoded]
      exact used

end OneLink.UiDelivery
