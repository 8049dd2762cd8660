/-
# CapGrants.Store -- signed capability grants, and those a daemon has accepted

A grant is read from its record field by field, checked against the signature of
its granter, the identities the caller expects and the clock, and last against
the nonces seen so far.  `checkGrant` is everything before the replay check: it
depends on the record and the clock only, never on the store.

Accepted grants are kept under granter, subject and nonce until they expire or a
party of theirs is revoked; the nonces of all grants share one bounded memory.
Each operation has one lemma that says what it does to the grants: an accepted
grant is filed under its key, a revocation removes the grants it selects, and
everything that looks at the clock only removes grants that are past it
(`Swept`).
-/
import OneLink.Library.ByteReader
import OneLink.Library.Checked
import OneLink.Library.OrderedDict

namespace OneLink.CapGrants

set_option autoImplicit false

open Library

/-! ## Records -/

def grantMagic : Bytes := ascii "OLCAP1"
def grantVersion : UInt8 := 1
def nonceLen : Nat := 16
def sigLen : Nat := 64
def edPubLen : Nat := 32

/-- `HEADER_FIXED_LEN`: magic, version, two keys, two times and the nonce. -/
def headerFixedLen : Nat := 6 + 1 + edPubLen + edPubLen + 8 + 8 + nonceLen

def maxCapsLen : Nat := 4096
def maxScopeLen : Nat := 4096

structure CapabilityGrant where
  granterPub : Bytes
  subjectPub : Bytes
  notBeforeMs : Nat
  notAfterMs : Nat
  nonce : Bytes
  capabilities : List String
  scope : Bytes
  signature : Bytes
  encoded : Bytes
deriving DecidableEq, Repr

/-- The `ValueError`s of the module, one constructor a message. -/
inductive GrantError where
  | tooShort (size : Nat)
  | badMagic
  | unsupportedVersion (version : UInt8)
  | truncatedAtCapsLen
  | capsLenExceedsCap (capsLen : Nat)
  | truncatedAtCapsBody
  | truncatedAtScopeLen
  | scopeLenExceedsCap (scopeLen : Nat)
  | lengthMismatch (capsLen scopeLen size : Nat)
  | capsNotUtf8
  | signatureInvalid
  | granterMismatch (expected : Bytes)
  | subjectMismatch (presenter : Bytes)
  | notYetValid (nowMs : Int) (notBefore : Nat)
  | expired (nowMs : Int) (notAfter : Nat)
  | nonceReplayed (nonce : Bytes)
deriving DecidableEq, Repr

/-- `_decode_caps`; the set is given by its members. -/
def decodeCaps (encoded : Bytes) : Option (List String) :=
  (decodeUtf8 encoded).map fun s =>
    ((s.toList.splitOn ',').map String.ofList).filter (· ≠ "")

/-- `parse_grant`. -/
def parseGrant (blob : Bytes) : Except GrantError CapabilityGrant := do
  require (headerFixedLen + 2 + 2 + sigLen ≤ blob.length) (.tooShort blob.length)
  require (slice blob 0 6 = grantMagic) .badMagic
  require (blob.getD 6 0 = grantVersion) (.unsupportedVersion (blob.getD 6 0))
  let off := headerFixedLen
  require (off + 2 ≤ blob.length) .truncatedAtCapsLen
  let capsLen := beValue (slice blob off (off + 2))
  let off := off + 2
  require (capsLen ≤ maxCapsLen) (.capsLenExceedsCap capsLen)
  require (off + capsLen ≤ blob.length) .truncatedAtCapsBody
  let capsBytes := slice blob off (off + capsLen)
  let off := off + capsLen
  require (off + 2 ≤ blob.length) .truncatedAtScopeLen
  let scopeLen := beValue (slice blob off (off + 2))
  let off := off + 2
  require (scopeLen ≤ maxScopeLen) (.scopeLenExceedsCap scopeLen)
  require (off + scopeLen + sigLen = blob.length) (.lengthMismatch capsLen scopeLen blob.length)
  match decodeCaps capsBytes with
  | none => .error .capsNotUtf8
  | some capabilities => .ok {
      granterPub := slice blob 7 39
      subjectPub := slice blob 39 71
      notBeforeMs := beValue (slice blob 71 79)
      notAfterMs := beValue (slice blob 79 87)
      nonce := slice blob 87 103
      capabilities
      scope := slice blob off (off + scopeLen)
      signature := slice blob (off + scopeLen) (off + scopeLen + sigLen)
      encoded := blob }

/-! ## Verification -/

section Verify

-- Ed25519 verification: public key, signature, message
variable (verify : Bytes → Bytes → Bytes → Bool)

/-- The checks of `verify_grant` before the replay check. -/
def checkGrant (blob : Bytes) (expectedGranterPub expectedSubjectPub : Option Bytes) (nowMs : Int) :
    Except GrantError CapabilityGrant := do
  let parsed ← parseGrant blob
  require (verify parsed.granterPub parsed.signature (blob.take (blob.length - sigLen)))
    .signatureInvalid
  require (∀ expected ∈ expectedGranterPub, parsed.granterPub = expected)
    (.granterMismatch (expectedGranterPub.getD []))
  require (∀ expected ∈ expectedSubjectPub, parsed.subjectPub = expected)
    (.subjectMismatch (expectedSubjectPub.getD []))
  require (parsed.notBeforeMs ≤ nowMs) (.notYetValid nowMs parsed.notBeforeMs)
  require (nowMs < parsed.notAfterMs) (.expired nowMs parsed.notAfterMs)
  .ok parsed

/-- `verify_grant`, with the nonces seen so far and those seen after it. -/
def verifyGrant (blob : Bytes) (expectedGranterPub expectedSubjectPub : Option Bytes) (nowMs : Int)
    (seenNonces : OrderedDict Bytes Unit) :
    Except GrantError (CapabilityGrant × OrderedDict Bytes Unit) := do
  let parsed ← checkGrant verify blob expectedGranterPub expectedSubjectPub nowMs
  require (parsed.nonce ∉ seenNonces.keys) (.nonceReplayed parsed.nonce)
  .ok (parsed, seenNonces.set parsed.nonce ())

end Verify

theorem parseGrant_encoded {blob : Bytes} {grant : CapabilityGrant}
    (parsed : parseGrant blob = .ok grant) : grant.encoded = blob := by
  simp only [parseGrant, bind_eq_ok, require_eq_ok, exists_const] at parsed
  obtain ⟨-, -, -, -, -, -, -, -, -, parsed⟩ := parsed
  split at parsed
  · cases parsed
  · rw [Except.ok.injEq] at parsed
    rw [← parsed]

/-- A grant that passes is the one its record holds, inside its validity interval. -/
theorem checkGrant_ok {verify : Bytes → Bytes → Bytes → Bool} {blob : Bytes}
    {expectedGranterPub expectedSubjectPub : Option Bytes} {nowMs : Int} {grant : CapabilityGrant}
    (passed : checkGrant verify blob expectedGranterPub expectedSubjectPub nowMs = .ok grant) :
    parseGrant grant.encoded = .ok grant ∧ grant.encoded = blob ∧
      grant.notBeforeMs ≤ nowMs ∧ nowMs < grant.notAfterMs := by
  simp only [checkGrant, bind_eq_ok, require_eq_ok, exists_const, Except.ok.injEq] at passed
  obtain ⟨parsed, read, -, -, -, started, unexpired, rfl⟩ := passed
  have same := parseGrant_encoded read
  exact ⟨by rw [same, read], same, started, unexpired⟩

/-- Granter, subject and nonce. -/
abbrev Key := Bytes × Bytes × Bytes

structure StoredGrant where
  grant : CapabilityGrant
  acceptedMs : Int
deriving DecidableEq, Repr

structure CapStore where
  seenNonces : OrderedDict Bytes Unit
  maxSeenNonces : Nat
  grants : OrderedDict Key StoredGrant
  lastPruneMs : Int

/-- A new store; `_last_prune_ms` is read as zero until the first pruning. -/
def CapStore.new (maxSeenNonces : Nat) : CapStore := ⟨.empty, maxSeenNonces, .empty, 0⟩

def CapabilityGrant.key (grant : CapabilityGrant) : Key :=
  (grant.granterPub, grant.subjectPub, grant.nonce)

namespace CapStore

/-! ## The operations -/

/-- The oldest tenth of the nonces is forgotten once there are too many. -/
def evictOldest (maxSeenNonces : Nat) (seenNonces : OrderedDict Bytes Unit) : OrderedDict Bytes Unit :=
  if maxSeenNonces < seenNonces.size then seenNonces.dropFirst (maxSeenNonces / 10) else seenNonces

section Accept

variable (verify : Bytes → Bytes → Bytes → Bool)

/-- `accept`. -/
def accept (store : CapStore) (grantBlob expectedSubjectPub : Bytes)
    (expectedGranterPub : Option Bytes) (nowMs : Int) :
    Except GrantError (CapabilityGrant × CapStore) := do
  let (verified, seenNonces) ←
    verifyGrant verify grantBlob expectedGranterPub (some expectedSubjectPub) nowMs store.seenNonces
  .ok (verified, { store with
    seenNonces := evictOldest store.maxSeenNonces seenNonces
    grants := store.grants.set verified.key ⟨verified, nowMs⟩ })

end Accept

/-- `d.pop(k, None)` for each of the keys. -/
def popAll {V : Type} (grants : OrderedDict Key V) (dead : List Key) : OrderedDict Key V :=
  dead.foldl OrderedDict.erase grants

/-- `prune_expired`. -/
def pruneExpired (store : CapStore) (nowMs : Int) : Nat × CapStore :=
  if nowMs - store.lastPruneMs < 1000 then (0, store)
  else
    let dead := (store.grants.items.filter fun entry => entry.2.grant.notAfterMs < nowMs).map Prod.fst
    (dead.length, { store with grants := popAll store.grants dead, lastPruneMs := nowMs })

/-- The body of `revoke_subject` and `revoke_granter`: tombstone and drop the grants selected. -/
def revoke (store : CapStore) (selected : Key → Bool) : Nat × CapStore :=
  let dead := store.grants.items.filter fun entry => selected entry.1
  (dead.length, { store with
    seenNonces := dead.foldl (fun seen entry => seen.set entry.2.grant.nonce ()) store.seenNonces
    grants := popAll store.grants (dead.map Prod.fst) })

/-- `revoke_subject`. -/
def revokeSubject (store : CapStore) (subjectPub : Bytes) : Nat × CapStore :=
  store.revoke fun key => key.2.1 = subjectPub

/-- `revoke_granter`. -/
def revokeGranter (store : CapStore) (granterPub : Bytes) : Nat × CapStore :=
  store.revoke fun key => key.1 = granterPub

/-- What `has_capability` is asked for, the scope as it is compared. -/
structure Query where
  granterPub : Bytes
  subjectPub : Bytes
  capability : String
  queryScope : Bytes
deriving DecidableEq, Repr

/-- The entries `has_capability` has still to look at. -/
def hasCapabilityLoop (query : Query) (nowMs : Int) :
    List (Key × StoredGrant) → OrderedDict Key StoredGrant → Bool × OrderedDict Key StoredGrant
  | [], grants => (false, grants)
  | (k, sg) :: rest, grants =>
    if k.1 ≠ query.granterPub ∨ k.2.1 ≠ query.subjectPub then
      hasCapabilityLoop query nowMs rest grants
    else if nowMs < sg.grant.notBeforeMs ∨ nowMs > sg.grant.notAfterMs then
      -- the inline sweep of what is past its time
      hasCapabilityLoop query nowMs rest
        (if nowMs > sg.grant.notAfterMs then grants.erase k else grants)
    else if query.capability ∉ sg.grant.capabilities then hasCapabilityLoop query nowMs rest grants
    else if sg.grant.scope ≠ query.queryScope then hasCapabilityLoop query nowMs rest grants
    else (true, grants)

/-- `has_capability`; a scope that is not given is the empty one. -/
def hasCapability (store : CapStore) (granterPub subjectPub : Bytes) (capability : String)
    (scope : Option Bytes) (nowMs : Int) : Bool × CapStore :=
  let looked := hasCapabilityLoop ⟨granterPub, subjectPub, capability, scope.getD []⟩ nowMs
    store.grants.items store.grants
  (looked.1, { store with grants := looked.2 })

/-- The entries `list_grants_for` has still to look at. -/
def listGrantsLoop (subjectPub : Bytes) (nowMs : Int) :
    List (Key × StoredGrant) → OrderedDict Key StoredGrant →
      List CapabilityGrant × OrderedDict Key StoredGrant
  | [], grants => ([], grants)
  | (k, sg) :: rest, grants =>
    if k.2.1 ≠ subjectPub then listGrantsLoop subjectPub nowMs rest grants
    else if nowMs > sg.grant.notAfterMs then listGrantsLoop subjectPub nowMs rest (grants.erase k)
    else
      let looked := listGrantsLoop subjectPub nowMs rest grants
      (sg.grant :: looked.1, looked.2)

/-- `list_grants_for`. -/
def listGrantsFor (store : CapStore) (subjectPub : Bytes) (nowMs : Int) :
    List CapabilityGrant × CapStore :=
  let looked := listGrantsLoop subjectPub nowMs store.grants.items store.grants
  (looked.1, { store with grants := looked.2 })

/-! ## What they do to the grants -/

theorem get?_popAll {V : Type} (grants : OrderedDict Key V) (dead : List Key) (k : Key) :
    (popAll grants dead).get? k = if k ∈ dead then none else grants.get? k := by
  rw [popAll]
  induction dead generalizing grants with
  | nil => simp
  | cons first rest ih =>
    rw [List.foldl_cons, ih, OrderedDict.get?_erase]
    by_cases here : first = k
    · simp [here]
    · simp [here, Ne.symm here]

/-- Only entries past their time are gone. -/
structure Swept (nowMs : Int) (before after : OrderedDict Key StoredGrant) : Prop where
  subset : ∀ k sg, after.get? k = some sg → before.get? k = some sg
  kept : ∀ k sg, before.get? k = some sg → nowMs ≤ sg.grant.notAfterMs → after.get? k = some sg

theorem Swept.refl (nowMs : Int) (grants : OrderedDict Key StoredGrant) : Swept nowMs grants grants :=
  ⟨fun _ _ here => here, fun _ _ here _ => here⟩

theorem Swept.erase {nowMs : Int} {before after : OrderedDict Key StoredGrant} {k : Key}
    {sg : StoredGrant} (present : before.get? k = some sg) (past : nowMs > sg.grant.notAfterMs)
    (swept : Swept nowMs before after) : Swept nowMs before (after.erase k) where
  subset k' sg' here := by
    rw [OrderedDict.get?_erase] at here
    split at here
    · cases here
    · exact swept.subset k' sg' here
  kept k' sg' here within := by
    have apart : k ≠ k' := by
      intro same
      rw [← same, present, Option.some.injEq] at here
      rw [← here] at within
      omega
    rw [OrderedDict.get?_erase_of_ne _ apart]
    exact swept.kept k' sg' here within

theorem pruneExpired_swept (store : CapStore) (nowMs : Int) :
    Swept nowMs store.grants (store.pruneExpired nowMs).2.grants := by
  rw [pruneExpired]
  split
  · exact Swept.refl nowMs store.grants
  · refine ⟨fun k sg here => ?_, fun k sg here within => ?_⟩
    · rw [get?_popAll] at here
      split at here
      · cases here
      · exact here
    · rw [get?_popAll, if_neg, here]
      intro dead
      obtain ⟨entry, picked, same⟩ := List.mem_map.1 dead
      obtain ⟨present, past⟩ := List.mem_filter.1 picked
      have stored := (store.grants.get?_eq_some_iff).2 (same ▸ present : (k, entry.2) ∈ _)
      rw [here, Option.some.injEq] at stored
      rw [stored] at within
      simp only [decide_eq_true_eq] at past
      omega

/-- A revocation removes the selected grants and no others. -/
theorem get?_revoke (store : CapStore) (selected : Key → Bool) (k : Key) :
    (store.revoke selected).2.grants.get? k =
      if selected k then none else store.grants.get? k := by
  simp only [revoke, get?_popAll]
  by_cases picked : selected k
  · rw [if_pos picked]
    split
    · rfl
    · rename_i absent
      rw [← OrderedDict.not_mem_keys_iff]
      intro present
      obtain ⟨entry, here, same⟩ := List.mem_map.1 present
      refine absent (List.mem_map.2 ⟨entry, List.mem_filter.2 ⟨here, ?_⟩, same⟩)
      rwa [same]
  · rw [if_neg picked, if_neg]
    intro dead
    obtain ⟨entry, here, same⟩ := List.mem_map.1 dead
    exact picked (same ▸ (List.mem_filter.1 here).2)

/-- The grant answers the query, its validity interval apart. -/
def Query.Matches (query : Query) (k : Key) (grant : CapabilityGrant) : Prop :=
  k.1 = query.granterPub ∧ k.2.1 = query.subjectPub ∧ query.capability ∈ grant.capabilities ∧
    grant.scope = query.queryScope

/-- The loop answers whether a matching entry is in the interval it checks, which is closed above. -/
theorem hasCapabilityLoop_answer (query : Query) (nowMs : Int) (entries : List (Key × StoredGrant))
    (grants : OrderedDict Key StoredGrant) :
    (hasCapabilityLoop query nowMs entries grants).1 = true ↔
      ∃ entry ∈ entries, query.Matches entry.1 entry.2.grant ∧
        entry.2.grant.notBeforeMs ≤ nowMs ∧ nowMs ≤ entry.2.grant.notAfterMs := by
  induction entries generalizing grants with
  | nil => simp [hasCapabilityLoop]
  | cons entry rest ih =>
    obtain ⟨k, sg⟩ := entry
    rw [List.exists_mem_cons_iff, hasCapabilityLoop]
    split
    · rename_i apart
      rw [ih, or_iff_right]
      rintro ⟨⟨granter, subject, -, -⟩, -, -⟩
      exact apart.elim (fun ne => ne granter) fun ne => ne subject
    · rename_i parties
      rw [not_or, not_not, not_not] at parties
      split
      · rename_i outside
        rw [ih, or_iff_right]
        rintro ⟨-, started, unexpired⟩
        simp only at started unexpired
        omega
      · rename_i inside
        rw [not_or] at inside
        split
        · rename_i unlisted
          rw [ih, or_iff_right]
          exact fun same => unlisted same.1.2.2.1
        · rename_i listed
          split
          · rename_i otherScope
            rw [ih, or_iff_right]
            exact fun same => otherScope same.1.2.2.2
          · rename_i sameScope
            simp only [true_iff]
            refine .inl ⟨⟨parties.1, parties.2, not_not.1 listed, not_not.1 sameScope⟩, ?_, ?_⟩
            · omega
            · omega

theorem hasCapabilityLoop_swept (query : Query) (nowMs : Int) {entries : List (Key × StoredGrant)}
    {before grants : OrderedDict Key StoredGrant}
    (entriesOf : ∀ entry ∈ entries, before.get? entry.1 = some entry.2)
    (swept : Swept nowMs before grants) :
    Swept nowMs before (hasCapabilityLoop query nowMs entries grants).2 := by
  induction entries generalizing grants with
  | nil => exact swept
  | cons entry rest ih =>
    obtain ⟨k, sg⟩ := entry
    have here := entriesOf _ List.mem_cons_self
    have there : ∀ entry ∈ rest, before.get? entry.1 = some entry.2 := fun entry mem =>
      entriesOf entry (List.mem_cons_of_mem _ mem)
    rw [hasCapabilityLoop]
    split
    · exact ih there swept
    · split
      · refine ih there ?_
        split
        · rename_i past
          exact swept.erase here past
        · exact swept
      · split
        · exact ih there swept
        · split
          · exact ih there swept
          · exact swept

theorem listGrantsLoop_swept (subjectPub : Bytes) (nowMs : Int) {entries : List (Key × StoredGrant)}
    {before grants : OrderedDict Key StoredGrant}
    (entriesOf : ∀ entry ∈ entries, before.get? entry.1 = some entry.2)
    (swept : Swept nowMs before grants) :
    Swept nowMs before (listGrantsLoop subjectPub nowMs entries grants).2 := by
  induction entries generalizing grants with
  | nil => exact swept
  | cons entry rest ih =>
    obtain ⟨k, sg⟩ := entry
    have here := entriesOf _ List.mem_cons_self
    have there : ∀ entry ∈ rest, before.get? entry.1 = some entry.2 := fun entry mem =>
      entriesOf entry (List.mem_cons_of_mem _ mem)
    rw [listGrantsLoop]
    split
    · exact ih there swept
    · split
      · rename_i past
        exact ih there (swept.erase here past)
      · exact ih there swept

theorem items_get? (grants : OrderedDict Key StoredGrant) :
    ∀ entry ∈ grants.items, grants.get? entry.1 = some entry.2 := fun _ mem =>
  (grants.get?_eq_some_iff).2 mem

/-- The answer of `has_capability`, on the entries stored. -/
theorem hasCapability_answer (store : CapStore) (granterPub subjectPub : Bytes) (capability : String)
    (scope : Option Bytes) (nowMs : Int) :
    (store.hasCapability granterPub subjectPub capability scope nowMs).1 = true ↔
      ∃ k sg, store.grants.get? k = some sg ∧
        Query.Matches ⟨granterPub, subjectPub, capability, scope.getD []⟩ k sg.grant ∧
        sg.grant.notBeforeMs ≤ nowMs ∧ nowMs ≤ sg.grant.notAfterMs := by
  simp only [hasCapability, hasCapabilityLoop_answer, OrderedDict.get?_eq_some_iff, Prod.exists]

theorem hasCapability_swept (store : CapStore) (granterPub subjectPub : Bytes) (capability : String)
    (scope : Option Bytes) (nowMs : Int) :
    Swept nowMs store.grants
      (store.hasCapability granterPub subjectPub capability scope nowMs).2.grants :=
  hasCapabilityLoop_swept _ nowMs (items_get? store.grants) (Swept.refl nowMs store.grants)

theorem listGrantsFor_swept (store : CapStore) (subjectPub : Bytes) (nowMs : Int) :
    Swept nowMs store.grants (store.listGrantsFor subjectPub nowMs).2.grants :=
  listGrantsLoop_swept subjectPub nowMs (items_get? store.grants) (Swept.refl nowMs store.grants)

/-- `accept` succeeds exactly on a grant that passes every check and whose nonce is not remembered,
and files it under its key. -/
theorem accept_eq_ok {verify : Bytes → Bytes → Bytes → Bool} {store after : CapStore}
    {grantBlob expectedSubjectPub : Bytes} {expectedGranterPub : Option Bytes} {nowMs : Int}
    {grant : CapabilityGrant} :
    store.accept verify grantBlob expectedSubjectPub expectedGranterPub nowMs = .ok (grant, after) ↔
      checkGrant verify grantBlob expectedGranterPub (some expectedSubjectPub) nowMs = .ok grant ∧
      grant.nonce ∉ store.seenNonces.keys ∧
      after = { store with
        seenNonces := evictOldest store.maxSeenNonces (store.seenNonces.set grant.nonce ())
        grants := store.grants.set grant.key ⟨grant, nowMs⟩ } := by
  simp only [accept, verifyGrant, bind_eq_ok, require_eq_ok, exists_const, Prod.exists,
    Except.ok.injEq, Prod.mk.injEq]
  constructor
  · rintro ⟨_, _, ⟨_, passed, fresh, rfl, rfl⟩, rfl, rfl⟩
    exact ⟨passed, fresh, rfl⟩
  · rintro ⟨passed, fresh, rfl⟩
    exact ⟨grant, _, ⟨grant, passed, fresh, rfl, rfl⟩, rfl, rfl⟩

end CapStore

end OneLink.CapGrants
