/-
# CapGrants.Lifetime -- a grant lives from its acceptance to its expiry or revocation

What happened to a store is a log of acceptances and revocations.  A grant is
live in a log when no revocation of a party of its follows its first acceptance.
As long as the memory of nonces answers for the granter's own grants, the store
holds the live grants that are not past their time (`Inv`, kept by every call).
-/
import OneLink.CapGrants.Store
import OneLink.Library.Run

namespace OneLink.CapGrants

set_option autoImplicit false

open Library

/-! ## Logs -/

/-- What happened to a store. -/
inductive Event where
  | accepted (grant : CapabilityGrant)
  | revokedSubject (subjectPub : Bytes)
  | revokedGranter (granterPub : Bytes)
deriving DecidableEq, Repr

/-- Accepted, and no party of the grant revoked after it was first accepted. -/
def Live (log : List Event) (grant : CapabilityGrant) : Prop :=
  ∃ early late, log = early ++ .accepted grant :: late ∧ .accepted grant ∉ early ∧
    .revokedSubject grant.subjectPub ∉ late ∧ .revokedGranter grant.granterPub ∉ late

theorem Live.accepted {log : List Event} {grant : CapabilityGrant} (live : Live log grant) :
    .accepted grant ∈ log := by
  obtain ⟨early, late, rfl, -⟩ := live
  exact List.mem_append_right _ List.mem_cons_self

/-- What one more event does to the grants that live. -/
theorem live_append {log : List Event} {event : Event} {grant : CapabilityGrant} :
    Live (log ++ [event]) grant ↔
      (Live log grant ∧ event ≠ .revokedSubject grant.subjectPub ∧
        event ≠ .revokedGranter grant.granterPub) ∨
      (event = .accepted grant ∧ event ∉ log) := by
  constructor
  · rintro ⟨early, late, split, first, subject, granter⟩
    obtain rfl | ⟨late, last, rfl⟩ := List.eq_nil_or_concat late
    · obtain ⟨rfl, same⟩ := List.append_inj' split rfl
      obtain rfl := List.singleton_inj.1 same
      exact .inr ⟨rfl, first⟩
    · rw [List.concat_eq_append, ← List.cons_append, ← List.append_assoc] at split
      rw [List.concat_eq_append] at subject granter
      obtain ⟨rfl, same⟩ := List.append_inj' split rfl
      obtain rfl := List.singleton_inj.1 same
      rw [List.mem_append, List.mem_singleton, not_or] at subject granter
      exact .inl ⟨⟨early, late, rfl, first, subject.1, granter.1⟩, Ne.symm subject.2,
        Ne.symm granter.2⟩
  · rintro (⟨⟨early, late, rfl, first, subject, granter⟩, notSubject, notGranter⟩ | ⟨rfl, fresh⟩)
    · refine ⟨early, late ++ [event], by simp, first, ?_, ?_⟩
      · rw [List.mem_append, List.mem_singleton, not_or]
        exact ⟨subject, Ne.symm notSubject⟩
      · rw [List.mem_append, List.mem_singleton, not_or]
        exact ⟨granter, Ne.symm notGranter⟩
    · exact ⟨log, [], rfl, fresh, List.not_mem_nil, List.not_mem_nil⟩

/-- A revocation of its subject ends every earlier accepted grant for good. -/
theorem not_live_of_revoked {early late : List Event} {grant : CapabilityGrant}
    (before : .accepted grant ∈ early) :
    ¬ Live (early ++ .revokedSubject grant.subjectPub :: late) grant := by
  rintro ⟨front, back, split, first, subject, -⟩
  rw [List.append_eq_append_iff] at split
  obtain ⟨between, rfl, behind⟩ | ⟨between, rfl, behind⟩ := split
  · exact first (List.mem_append_left _ before)
  · obtain _ | ⟨next, between⟩ := between
    · cases behind
    · obtain ⟨-, rfl⟩ := List.cons.inj behind
      exact subject (List.mem_append_right _ List.mem_cons_self)

/-! ## Runs of a store -/

/-- A store with what happened to it and the latest time it was told. -/
structure World where
  store : CapStore
  log : List Event
  clock : Int

def World.initial (maxSeenNonces : Nat) (clock : Int) : World :=
  ⟨CapStore.new maxSeenNonces, [], clock⟩

inductive Call where
  | accept (grantBlob expectedSubjectPub : Bytes) (expectedGranterPub : Option Bytes) (nowMs : Int)
  | pruneExpired (nowMs : Int)
  | revokeSubject (subjectPub : Bytes)
  | revokeGranter (granterPub : Bytes)
  | hasCapability (granterPub subjectPub : Bytes) (capability : String) (scope : Option Bytes)
      (nowMs : Int)
  | listGrantsFor (subjectPub : Bytes) (nowMs : Int)

section Calls

variable (verify : Bytes → Bytes → Bytes → Bool)

def step (w : World) : Call → World
  | .accept grantBlob expectedSubjectPub expectedGranterPub nowMs =>
    match w.store.accept verify grantBlob expectedSubjectPub expectedGranterPub nowMs with
    | .error _ => { w with clock := nowMs }
    | .ok (grant, store) => ⟨store, w.log ++ [.accepted grant], nowMs⟩
  | .pruneExpired nowMs => ⟨(w.store.pruneExpired nowMs).2, w.log, nowMs⟩
  | .revokeSubject subjectPub =>
    ⟨(w.store.revokeSubject subjectPub).2, w.log ++ [.revokedSubject subjectPub], w.clock⟩
  | .revokeGranter granterPub =>
    ⟨(w.store.revokeGranter granterPub).2, w.log ++ [.revokedGranter granterPub], w.clock⟩
  | .hasCapability granterPub subjectPub capability scope nowMs =>
    ⟨(w.store.hasCapability granterPub subjectPub capability scope nowMs).2, w.log, nowMs⟩
  | .listGrantsFor subjectPub nowMs => ⟨(w.store.listGrantsFor subjectPub nowMs).2, w.log, nowMs⟩

/-- The nonce was carried by an accepted grant of the same granter. -/
def CarriedBefore (log : List Event) (grant : CapabilityGrant) : Prop :=
  ∃ earlier, .accepted earlier ∈ log ∧ earlier.granterPub = grant.granterPub ∧
    earlier.nonce = grant.nonce

/-- For a record that passes every other check, the memory of nonces answers for the granter's own
grants: it has not forgotten one of them, and it does not hold the nonce for another granter. -/
def MemoryExact (w : World) (grantBlob expectedSubjectPub : Bytes)
    (expectedGranterPub : Option Bytes) (nowMs : Int) : Prop :=
  ∀ grant, checkGrant verify grantBlob expectedGranterPub (some expectedSubjectPub) nowMs = .ok grant →
    (grant.nonce ∈ w.store.seenNonces.keys ↔ CarriedBefore w.log grant)

/-- The clock does not go back, and the memory of nonces is exact for what is presented. -/
def Guard (w : World) : Call → Prop
  | .accept grantBlob expectedSubjectPub expectedGranterPub nowMs => w.clock ≤ nowMs ∧
      MemoryExact verify w grantBlob expectedSubjectPub expectedGranterPub nowMs
  | .pruneExpired nowMs => w.clock ≤ nowMs
  | .revokeSubject _ => True
  | .revokeGranter _ => True
  | .hasCapability _ _ _ _ nowMs => w.clock ≤ nowMs
  | .listGrantsFor _ nowMs => w.clock ≤ nowMs

end Calls

/-! ## The invariant -/

/-- The store holds live grants only, and all of those that are not past their time. -/
structure Inv (w : World) : Prop where
  stored : ∀ k sg, w.store.grants.get? k = some sg → k = sg.grant.key ∧ Live w.log sg.grant
  kept : ∀ grant, Live w.log grant → w.clock ≤ grant.notAfterMs →
    ∃ sg, w.store.grants.get? grant.key = some sg ∧ sg.grant = grant
  started : ∀ grant, .accepted grant ∈ w.log → grant.notBeforeMs ≤ w.clock
  parsed : ∀ grant, .accepted grant ∈ w.log → parseGrant grant.encoded = .ok grant

theorem inv_initial (maxSeenNonces : Nat) (clock : Int) : Inv (World.initial maxSeenNonces clock) where
  stored k sg here := by cases here
  kept grant live := by
    have none := live.accepted
    cases none
  started grant here := by cases here
  parsed grant here := by cases here

/-- Calls that only sweep what is past its time. -/
theorem Inv.swept {w : World} (inv : Inv w) {nowMs : Int} (later : w.clock ≤ nowMs) {store : CapStore}
    (swept : CapStore.Swept nowMs w.store.grants store.grants) : Inv ⟨store, w.log, nowMs⟩ where
  stored k sg here := inv.stored k sg (swept.subset k sg here)
  kept grant live within := by
    obtain ⟨sg, here, same⟩ := inv.kept grant live (Int.le_trans later within)
    exact ⟨sg, swept.kept _ sg here (by rw [same]; exact within), same⟩
  started grant here := Int.le_trans (inv.started grant here) later
  parsed := inv.parsed

/-- Calls that revoke a party. -/
theorem Inv.revoked {w : World} (inv : Inv w) {event : Event} {selected : Key → Bool}
    (revokes : ∀ grant : CapabilityGrant, selected grant.key = true ↔
      event = .revokedSubject grant.subjectPub ∨ event = .revokedGranter grant.granterPub)
    (notAccepted : ∀ grant, event ≠ .accepted grant) :
    Inv ⟨(w.store.revoke selected).2, w.log ++ [event], w.clock⟩ where
  stored k sg here := by
    rw [CapStore.get?_revoke] at here
    split at here
    · cases here
    · rename_i unselected
      obtain ⟨rfl, live⟩ := inv.stored k sg here
      rw [revokes, not_or] at unselected
      exact ⟨rfl, live_append.2 (.inl ⟨live, unselected.1, unselected.2⟩)⟩
  kept grant live within := by
    obtain ⟨lived, subject, granter⟩ | ⟨same, -⟩ := live_append.1 live
    · obtain ⟨sg, here, same⟩ := inv.kept grant lived within
      refine ⟨sg, ?_, same⟩
      rw [CapStore.get?_revoke, if_neg, here]
      rw [revokes, not_or]
      exact ⟨subject, granter⟩
    · exact absurd same (notAccepted grant)
  started grant here := by
    obtain here | here := List.mem_append.1 here
    · exact inv.started grant here
    · exact absurd (List.mem_singleton.1 here).symm (notAccepted grant)
  parsed grant here := by
    obtain here | here := List.mem_append.1 here
    · exact inv.parsed grant here
    · exact absurd (List.mem_singleton.1 here).symm (notAccepted grant)

/-- An acceptance files a grant whose granter never used its nonce before. -/
theorem Inv.accepted {w : World} (inv : Inv w) {nowMs : Int} (later : w.clock ≤ nowMs)
    {store : CapStore} {grant : CapabilityGrant} (fresh : ¬ CarriedBefore w.log grant)
    (filed : store.grants = w.store.grants.set grant.key ⟨grant, nowMs⟩)
    (begun : grant.notBeforeMs ≤ nowMs) (read : parseGrant grant.encoded = .ok grant) :
    Inv ⟨store, w.log ++ [.accepted grant], nowMs⟩ where
  stored k sg here := by
    rw [filed, OrderedDict.get?_set] at here
    split at here
    · rename_i same
      rw [Option.some.injEq] at here
      subst here
      refine ⟨same.symm, live_append.2 (.inr ⟨rfl, fun again => fresh ⟨grant, again, rfl, rfl⟩⟩)⟩
    · obtain ⟨rfl, live⟩ := inv.stored k sg here
      refine ⟨rfl, live_append.2 (.inl ⟨live, ?_, ?_⟩)⟩
      · intro same
        cases same
      · intro same
        cases same
  kept other live within := by
    rw [filed]
    obtain ⟨lived, -, -⟩ | ⟨same, -⟩ := live_append.1 live
    · obtain ⟨sg, here, same⟩ := inv.kept other lived (Int.le_trans later within)
      -- a live grant under the same key would have carried the nonce before
      have apart : grant.key ≠ other.key := by
        intro same
        simp only [CapabilityGrant.key, Prod.mk.injEq] at same
        exact fresh ⟨other, lived.accepted, same.1.symm, same.2.2.symm⟩
      exact ⟨sg, by rw [OrderedDict.get?_set_of_ne _ apart, here], same⟩
    · cases same
      exact ⟨⟨grant, nowMs⟩, OrderedDict.get?_set_self _ _ _, rfl⟩
  started other here := by
    obtain here | here := List.mem_append.1 here
    · exact Int.le_trans (inv.started other here) later
    · cases List.mem_singleton.1 here
      exact begun
  parsed other here := by
    obtain here | here := List.mem_append.1 here
    · exact inv.parsed other here
    · cases List.mem_singleton.1 here
      exact read

variable {verify : Bytes → Bytes → Bytes → Bool}

/-- With an exact memory, acceptance is decided by the granter's own grants. -/
theorem accepts_iff {w : World} {grantBlob expectedSubjectPub : Bytes}
    {expectedGranterPub : Option Bytes} {nowMs : Int}
    (exact_ : MemoryExact verify w grantBlob expectedSubjectPub expectedGranterPub nowMs)
    (grant : CapabilityGrant) :
    (∃ store, w.store.accept verify grantBlob expectedSubjectPub expectedGranterPub nowMs =
      .ok (grant, store)) ↔
      checkGrant verify grantBlob expectedGranterPub (some expectedSubjectPub) nowMs = .ok grant ∧
      ¬ CarriedBefore w.log grant := by
  simp only [CapStore.accept_eq_ok]
  constructor
  · rintro ⟨store, passed, unseen, -⟩
    exact ⟨passed, fun carried => unseen ((exact_ grant passed).2 carried)⟩
  · rintro ⟨passed, fresh⟩
    exact ⟨_, passed, fun seen => fresh ((exact_ grant passed).1 seen), rfl⟩

theorem inv_step {w : World} {call : Call} (inv : Inv w) (guarded : Guard verify w call) :
    Inv (step verify w call) := by
  cases call with
  | accept grantBlob expectedSubjectPub expectedGranterPub nowMs =>
    obtain ⟨later, memory⟩ := guarded
    rw [step]
    split
    · exact inv.swept later (CapStore.Swept.refl nowMs w.store.grants)
    · rename_i grant store ran
      have fresh := ((accepts_iff memory grant).1 ⟨store, ran⟩).2
      obtain ⟨passed, -, rfl⟩ := CapStore.accept_eq_ok.1 ran
      obtain ⟨read, -, begun, -⟩ := checkGrant_ok passed
      exact inv.accepted later fresh rfl begun read
  | pruneExpired nowMs => exact inv.swept guarded (CapStore.pruneExpired_swept w.store nowMs)
  | revokeSubject subjectPub =>
    refine inv.revoked (fun grant => ?_) (by intro grant same; cases same)
    simp [CapabilityGrant.key, eq_comm]
  | revokeGranter granterPub =>
    refine inv.revoked (fun grant => ?_) (by intro grant same; cases same)
    simp [CapabilityGrant.key, eq_comm]
  | hasCapability granterPub subjectPub capability scope nowMs =>
    exact inv.swept guarded (CapStore.hasCapability_swept w.store _ _ _ _ nowMs)
  | listGrantsFor subjectPub nowMs =>
    exact inv.swept guarded (CapStore.listGrantsFor_swept w.store subjectPub nowMs)

/-! ## What a store answers -/

/-- A live grant answers the query, inside the interval that `verify_grant` checks. -/
def Effective (log : List Event) (query : CapStore.Query) (nowMs : Int) : Prop :=
  ∃ grant, Live log grant ∧ query.Matches grant.key grant ∧
    grant.notBeforeMs ≤ nowMs ∧ nowMs < grant.notAfterMs

/-- At this millisecond a stored grant that answers the query expires, and no other is valid. -/
def ExpiresNow (store : CapStore) (query : CapStore.Query) (nowMs : Int) : Prop :=
  (∃ k sg, store.grants.get? k = some sg ∧ query.Matches k sg.grant ∧ nowMs = sg.grant.notAfterMs) ∧
  ¬ ∃ k sg, store.grants.get? k = some sg ∧ query.Matches k sg.grant ∧ nowMs < sg.grant.notAfterMs

/-- The store and the log agree on a query except at the expiry. -/
theorem Inv.answers {w : World} (inv : Inv w) (granterPub subjectPub : Bytes) (capability : String)
    (scope : Option Bytes) {nowMs : Int} (later : w.clock ≤ nowMs) :
    ((w.store.hasCapability granterPub subjectPub capability scope nowMs).1 = true ↔
      Effective w.log ⟨granterPub, subjectPub, capability, scope.getD []⟩ nowMs) ↔
    ¬ ExpiresNow w.store ⟨granterPub, subjectPub, capability, scope.getD []⟩ nowMs := by
  rw [CapStore.hasCapability_answer]
  generalize (⟨granterPub, subjectPub, capability, scope.getD []⟩ : CapStore.Query) = query
  have begun : ∀ k sg, w.store.grants.get? k = some sg → sg.grant.notBeforeMs ≤ nowMs :=
    fun k sg here => Int.le_trans (inv.started _ (inv.stored k sg here).2.accepted) later
  -- the live grants that answer are the stored ones that are strictly inside
  have effective : Effective w.log query nowMs ↔ ∃ k sg, w.store.grants.get? k = some sg ∧
      query.Matches k sg.grant ∧ nowMs < sg.grant.notAfterMs := by
    constructor
    · rintro ⟨grant, live, answers, -, unexpired⟩
      obtain ⟨sg, here, rfl⟩ := inv.kept grant live (by omega)
      exact ⟨_, sg, here, answers, unexpired⟩
    · rintro ⟨k, sg, here, answers, unexpired⟩
      obtain ⟨rfl, live⟩ := inv.stored k sg here
      exact ⟨sg.grant, live, answers, begun _ sg here, unexpired⟩
  rw [effective, ExpiresNow]
  constructor
  · rintro agree ⟨⟨k, sg, here, answers, expiring⟩, noneInside⟩
    exact noneInside (agree.1 ⟨k, sg, here, answers, begun k sg here, by omega⟩)
  · intro apart
    constructor
    · rintro ⟨k, sg, here, answers, -, unexpired⟩
      by_contra noneInside
      refine apart ⟨⟨k, sg, here, answers, ?_⟩, noneInside⟩
      by_contra early
      exact noneInside ⟨k, sg, here, answers, by omega⟩
    · rintro ⟨k, sg, here, answers, unexpired⟩
      exact ⟨k, sg, here, answers, begun k sg here, by omega⟩

/-- **Grants die when they expire or are revoked.**  After every run in which the clock does not go
back and the memory of nonces is exact for each record presented, `has_capability` answers for the
live grants inside their interval, except at the very millisecond of an expiry; a record is accepted
or not by the history of its own granter; and a record accepted once is never accepted again. -/
theorem grants_die {maxSeenNonces : Nat} {start : Int} {calls : List Call}
    (guarded : EachStep (step verify) (Guard verify) (World.initial maxSeenNonces start) calls) :
    let w := run (step verify) (World.initial maxSeenNonces start) calls
    (∀ granterPub subjectPub capability scope nowMs, w.clock ≤ nowMs →
      (((w.store.hasCapability granterPub subjectPub capability scope nowMs).1 = true ↔
        Effective w.log ⟨granterPub, subjectPub, capability, scope.getD []⟩ nowMs) ↔
      ¬ ExpiresNow w.store ⟨granterPub, subjectPub, capability, scope.getD []⟩ nowMs)) ∧
    ∀ grantBlob expectedSubjectPub expectedGranterPub nowMs,
      MemoryExact verify w grantBlob expectedSubjectPub expectedGranterPub nowMs →
      (∀ grant, (∃ store, w.store.accept verify grantBlob expectedSubjectPub expectedGranterPub nowMs =
        .ok (grant, store)) ↔
        checkGrant verify grantBlob expectedGranterPub (some expectedSubjectPub) nowMs = .ok grant ∧
        ¬ CarriedBefore w.log grant) ∧
      ∀ earlier, .accepted earlier ∈ w.log → earlier.encoded = grantBlob → ∀ result,
        w.store.accept verify grantBlob expectedSubjectPub expectedGranterPub nowMs ≠ .ok result := by
  intro w
  have inv : Inv w :=
    run_invariant (fun _ _ => inv_step) (inv_initial maxSeenNonces start) guarded
  refine ⟨fun granterPub subjectPub capability scope nowMs later =>
    inv.answers granterPub subjectPub capability scope later, ?_⟩
  intro grantBlob expectedSubjectPub expectedGranterPub nowMs memory
  refine ⟨accepts_iff memory, ?_⟩
  rintro earlier before rfl ⟨grant, store⟩ ran
  obtain ⟨passed, fresh⟩ := (accepts_iff memory grant).1 ⟨store, ran⟩
  obtain ⟨read, same, -, -⟩ := checkGrant_ok passed
  rw [same, inv.parsed earlier before, Except.ok.injEq] at read
  subst read
  exact fresh ⟨earlier, before, rfl, rfl⟩

/-! ## Where the store fails -/

namespace Toy

def anySignature : Bytes → Bytes → Bytes → Bool := fun _ _ _ => true

def party (byte : UInt8) : Bytes := List.replicate edPubLen byte

/-- A grant of `chat:send` from time zero on, with an unrestricted scope. -/
def record (granter subject : UInt8) (notAfterMs : Nat) (nonce : UInt8) : Bytes :=
  grantMagic ++ [grantVersion] ++ party granter ++ party subject ++ beBytes 8 0 ++
    beBytes 8 notAfterMs ++ List.replicate nonceLen nonce ++ beBytes 2 9 ++ ascii "chat:send" ++
    beBytes 2 0 ++ List.replicate sigLen 0

def parsed (granter subject : UInt8) (notAfterMs : Nat) (nonce : UInt8) : CapabilityGrant :=
  { granterPub := party granter, subjectPub := party subject, notBeforeMs := 0, notAfterMs
    nonce := List.replicate nonceLen nonce, capabilities := ["chat:send"], scope := []
    signature := List.replicate sigLen 0, encoded := record granter subject notAfterMs nonce }

def after (maxSeenNonces : Nat) (calls : List Call) : World :=
  run (step anySignature) (World.initial maxSeenNonces 0) calls

def once : List Call := [.accept (record 1 2 1000 7) (party 2) none 500]

/-- Accepted, revoked, and presented again after ten grants of another granter. -/
def flooded : List Call :=
  once ++ [.revokeSubject (party 2)] ++
    ([11, 12, 13, 14, 15, 16, 17, 18, 19, 20].map fun nonce =>
      .accept (record 3 2 1000 nonce) (party 2) none 600) ++
    [.accept (record 1 2 1000 7) (party 2) none 700]

theorem grants_die_once : let w := after 100000 once
    (((w.store.hasCapability (party 1) (party 2) "chat:send" none 800).1 = true ↔
        Effective w.log ⟨party 1, party 2, "chat:send", []⟩ 800) ↔
      ¬ ExpiresNow w.store ⟨party 1, party 2, "chat:send", []⟩ 800) := by
  have unseen : MemoryExact anySignature (World.initial 100000 0) (record 1 2 1000 7) (party 2) none 500 := by
    rintro grant -
    constructor
    · intro seen
      cases seen
    · rintro ⟨earlier, here, -⟩
      cases here
  have guarded : EachStep (step anySignature) (Guard anySignature) (World.initial 100000 0) once :=
    ⟨⟨by decide, unseen⟩, trivial⟩
  exact (grants_die guarded).1 (party 1) (party 2) "chat:send" none 800 (by decide +kernel)

theorem log_once : (after 100000 once).log = [.accepted (parsed 1 2 1000 7)] := by decide +kernel

theorem log_flooded : (after 10 flooded).log =
    [.accepted (parsed 1 2 1000 7)] ++ .revokedSubject (party 2) ::
      (([11, 12, 13, 14, 15, 16, 17, 18, 19, 20].map fun nonce => .accepted (parsed 3 2 1000 nonce)) ++
        [.accepted (parsed 1 2 1000 7)]) := by decide +kernel

/-- A grant answers at the very millisecond of its expiry; a revoked one answers again once its nonce
is flooded out; and a granter's first grant is refused for the nonce of another granter's. -/
theorem grants_outlive :
    ((((after 100000 once).store.hasCapability (party 1) (party 2) "chat:send" none 1000).1 = true) ∧
      ¬ Effective (after 100000 once).log ⟨party 1, party 2, "chat:send", []⟩ 1000) ∧
    ((((after 10 flooded).store.hasCapability (party 1) (party 2) "chat:send" none 800).1 = true) ∧
      ¬ Effective (after 10 flooded).log ⟨party 1, party 2, "chat:send", []⟩ 800) ∧
    (((after 100000 once).store.accept anySignature (record 3 2 1000 7) (party 2) none 600).toOption =
        none ∧
      ((CapStore.new 100000).accept anySignature (record 3 2 1000 7) (party 2) none 600).toOption ≠
        none) := by
  refine ⟨⟨by decide +kernel, ?_⟩, ⟨by decide +kernel, ?_⟩, by decide +kernel, ?_⟩
  · rintro ⟨grant, live, -, -, unexpired⟩
    have accepted := live.accepted
    rw [log_once, List.mem_singleton, Event.accepted.injEq] at accepted
    subst accepted
    exact absurd unexpired (by decide)
  · rintro ⟨grant, live, answers, -, -⟩
    have accepted := live.accepted
    have granted : grant.granterPub = party 1 := answers.1
    rw [log_flooded] at live accepted
    have same : grant = parsed 1 2 1000 7 := by
      simp only [List.mem_append, List.mem_cons, List.mem_map, List.not_mem_nil, or_false,
        Event.accepted.injEq, reduceCtorEq, false_or] at accepted
      obtain same | ⟨nonce, -, rfl⟩ | same := accepted
      · exact same
      · have others : party 3 = party 1 := granted
        exact absurd others (by decide)
      · exact same
    subst same
    exact not_live_of_revoked (List.mem_singleton_self _) live
  · intro none
    have accepts := congrArg Option.isSome none
    revert accepts
    decide +kernel

end Toy

end OneLink.CapGrants
