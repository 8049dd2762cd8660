/-
# UiDelivery.AtMostOnce -- a send is dispatched at most once

Callers of any number of stores over one table, each with the owner bindings it
was handed.  A key that was dispatched stays answered, or dispatching with one
attempt alone able to advance it (`Row.Held`): that is the invariant, and it is
lost when a row goes back to a store one of whose callers still holds an owner
binding from before (`Returns`).
-/
import OneLink.Library.Run
import OneLink.UiDelivery.Changes

namespace OneLink.UiDelivery

open Library

set_option autoImplicit false

variable {Body : Type} (C : Crypto Body)

/-- The owner bindings that came of one admission, held by a caller of the store of this epoch. -/
structure Attempt (Body : Type) where
  id : Nat
  epoch : String
  key : Bytes × String
  bindings : List (Binding Body)
deriving DecidableEq

/-- The table, the epochs of the stores that are closed or dead, the attempts still held, and which
attempt's `mark_dispatching` succeeded since the key was last reclaimed. -/
structure World (Body : Type) where
  db : List Row
  closed : List String
  attempts : List (Attempt Body)
  nextId : Nat
  dispatched : List ((Bytes × String) × Nat)
deriving DecidableEq

def World.initial : World Body := ⟨[], [], [], 0, []⟩

inductive Action (Body : Type) where
  | call (store : Store) (attempt : Nat) (call : Call Body) (draws : Draws) (fault : Fault)
  | drop (attempt : Nat)

/-! ## Steps -/

def Call.isReclaim : Call Body → Bool
  | .reclaimDispatchingBeforeWire .. => true
  | _ => false

/-- The table as a call leaves it. -/
def World.commit (w : World Body) (call : Call Body) (db : List Row) : World Body :=
  { w with
    db := db
    dispatched :=
      if call.isReclaim ∧ db ≠ w.db then w.dispatched.filter fun entry => entry.1 ≠ call.key C
      else w.dispatched }

def World.close (w : World Body) (store : Store) (closes : Bool) : World Body :=
  { w with closed := if closes then store.ownerEpoch :: w.closed else w.closed }

/-- A caller drops its bindings. -/
def World.forget (w : World Body) (id : Nat) : World Body :=
  { w with attempts := w.attempts.filter fun attempt => attempt.id ≠ id }

/-- A caller is handed an owner binding by an admission. -/
def World.grant (w : World Body) (store : Store) (key : Bytes × String) (binding : Binding Body) :
    World Body :=
  { w with
    attempts := ⟨w.nextId, store.ownerEpoch, key, [binding]⟩ :: w.attempts
    nextId := w.nextId + 1 }

/-- A caller is handed its advanced binding. -/
def World.extend (w : World Body) (id : Nat) (binding : Binding Body) : World Body :=
  { w with
    attempts := w.attempts.map fun attempt =>
      if attempt.id = id then { attempt with bindings := binding :: attempt.bindings } else attempt }

/-- What a caller keeps of a binding that a call returned. -/
def World.keep (w : World Body) (store : Store) (id : Nat) (call : Call Body) (binding : Binding Body) :
    World Body :=
  match call with
  | .bind .. | .reclaimDispatchingBeforeWire .. =>
    if binding.ownsAttempt then w.grant store (call.key C) binding else w
  | .markQueued .. => w.extend id binding
  | .markDispatching .. =>
    { w.extend id binding with dispatched := (call.key C, id) :: w.dispatched }
  | .releaseBeforeDispatch .. => w.forget id
  | .recordResponse .. | .recordReconciledResponse .. => w

def World.settle (w : World Body) (store : Store) (id : Nat) (call : Call Body) :
    Outcome Body → World Body
  | .returned binding => w.keep C store id call binding
  | _ => w

/-- A call in the store of this epoch, as the world finds it. -/
def World.effect [DecidableEq Body] (w : World Body) (store : Store) (call : Call Body) (draws : Draws) (fault : Fault) :
    Effect Body :=
  call.run C store (store.ownerEpoch ∉ w.closed) draws fault w.db

def World.step [DecidableEq Body] (w : World Body) : Action Body → World Body
  | .drop id => w.forget id
  | .call store id call draws fault =>
    let effect := w.effect C store call draws fault
    ((w.commit C call effect.db).close store effect.closes).settle C store id call effect.outcome

/-! ## Callers -/

/-- The binding that a call advances. -/
def Call.advanced : Call Body → Option (Binding Body)
  | .markQueued binding _ | .markDispatching binding | .releaseBeforeDispatch binding => some binding
  | _ => none

/-- The row of the call's key is about to go back to a store while a caller of that store holds an
owner binding of it. -/
def Returns (w : World Body) (store : Store) (call : Call Body) : Prop :=
  (∃ attempt ∈ w.attempts, attempt.epoch = store.ownerEpoch ∧ attempt.key = call.key C) ∧
    ∃ row ∈ w.db, row.key = call.key C ∧ row.response = none ∧ row.ownerEpoch ≠ store.ownerEpoch ∧
      (call.isBind ∧ row.phase ≠ .dispatching ∨ call.isReclaim ∧ row.phase = .dispatching)

/-- A caller advances only an owner binding that it holds. -/
def Disciplined (contracts : Set Contract) (w : World Body) : Action Body → Prop
  | .drop _ => True
  | .call store id call _ _ => call.contract ∈ contracts ∧
      ∀ binding ∈ call.advanced, ∃ attempt ∈ w.attempts, attempt.id = id ∧
        attempt.epoch = store.ownerEpoch ∧ binding ∈ attempt.bindings

instance (contracts : Set Contract) [DecidablePred (· ∈ contracts)] [DecidableEq Body] (w : World Body)
    (action : Action Body) : Decidable (Disciplined contracts w action) :=
  match action with
  | .drop _ => inferInstanceAs (Decidable True)
  | .call .. => inferInstanceAs (Decidable (_ ∧ _))

/-- No row goes back to a store where an owner binding of it is still held, and the paths behind a
commit are sound. -/
def Spared (w : World Body) : Action Body → Prop
  | .drop _ => True
  | .call store _ call _ fault => ¬ Returns C w store call ∧ fault ≠ .harden

instance (w : World Body) (action : Action Body) : Decidable (Spared C w action) :=
  match action with
  | .drop _ => inferInstanceAs (Decidable True)
  | .call store _ call _ _ =>
    haveI : Decidable (Returns C w store call) := inferInstanceAs (Decidable (_ ∧ _))
    inferInstanceAs (Decidable (_ ∧ _))

/-! ## A run of one call -/

variable {C} {contracts : Set Contract}

/-- A call leaves the table, and returns nothing, or is decided by the body of its transaction. -/
theorem Call.run_cases [DecidableEq Body] (call : Call Body) (store : Store) (isOpen : Bool)
    (draws : Draws) (fault : Fault) (db : List Row) :
    (call.run C store isOpen draws fault db).db = db ∧
        (∀ binding, (call.run C store isOpen draws fault db).outcome ≠ .returned binding) ∨
      ∃ binding db', call.body C store draws db = .ok (binding, db') ∧
        (call.run C store isOpen draws fault db).db = db' ∧
        ((call.run C store isOpen draws fault db).outcome = .returned binding ∨
          (∀ other, (call.run C store isOpen draws fault db).outcome ≠ .returned other) ∧
            (fault ≠ .harden → ∀ error,
              (call.run C store isOpen draws fault db).outcome ≠ .raised error)) := by
  have raised : ∀ error (binding : Binding Body), Outcome.raised error ≠ .returned binding := by
    intro error binding same
    cases same
  have died : ∀ binding : Binding Body, Outcome.died ≠ .returned binding := by
    intro binding same
    cases same
  rw [Call.run]
  cases call.precheck C with
  | error error => exact .inl ⟨rfl, raised _⟩
  | ok _ =>
    simp only
    split
    · exact .inl ⟨rfl, raised _⟩
    split
    · exact .inl ⟨rfl, raised _⟩
    split
    · exact .inl ⟨rfl, died⟩
    cases ran : call.body C store draws db with
    | error error => cases error <;> exact .inl ⟨rfl, raised _⟩
    | ok result =>
      obtain ⟨binding, db'⟩ := result
      cases fault with
      | commit => exact .inl ⟨rfl, raised _⟩
      | harden => exact .inr ⟨binding, db', rfl, rfl, .inr ⟨raised _, fun other => absurd rfl other⟩⟩
      | dieAfter => exact .inr ⟨binding, db', rfl, rfl, .inr ⟨died, fun _ => nofun⟩⟩
      | _ => exact .inr ⟨binding, db', rfl, rfl, .inl rfl⟩

/-- A call that raises leaves the table, unless the paths behind its commit fail. -/
theorem Call.run_raised [DecidableEq Body] {call : Call Body} {store : Store} {isOpen : Bool} {draws : Draws}
    {fault : Fault} {db : List Row} {error : DeliveryError} (sound : fault ≠ .harden)
    (raised : (call.run C store isOpen draws fault db).outcome = .raised error) :
    (call.run C store isOpen draws fault db).db = db := by
  obtain ⟨same, _⟩ | ⟨_, _, _, _, returned | ⟨_, silent⟩⟩ :=
    call.run_cases (C := C) store isOpen draws fault db
  · exact same
  · rw [raised] at returned
    cases returned
  · exact absurd raised (silent sound error)

/-! ## The invariant -/

/-- A dispatched row is answered, or dispatching with one attempt alone able to advance it. -/
def Row.Held (row : Row) (attempts : List (Attempt Body)) (id : Nat) : Prop :=
  row.response.isSome ∨ row.phase = .dispatching ∧ ∀ attempt ∈ attempts, attempt.key = row.key →
    attempt.epoch = row.ownerEpoch → attempt.id = id

structure Inv (C : Crypto Body) (contracts : Set Contract) (w : World Body) : Prop where
  intact : Intact C contracts w.db
  bindings : ∀ attempt ∈ w.attempts, ∀ binding ∈ attempt.bindings,
    (C.principalDigest binding.principalScope, binding.clientDeliveryId) = attempt.key
  placed : ∀ attempt ∈ w.attempts, ∃ row ∈ w.db, row.key = attempt.key
  single : ∀ attempt ∈ w.attempts, ∀ other ∈ w.attempts, attempt.epoch = other.epoch →
    attempt.key = other.key → attempt.id = other.id
  known : ∀ attempt ∈ w.attempts, attempt.id < w.nextId
  named : ∀ attempt ∈ w.attempts, ∀ other ∈ w.attempts, attempt.id = other.id →
    attempt.key = other.key
  held : ∀ key id, (key, id) ∈ w.dispatched → ∃ row ∈ w.db, row.key = key ∧ row.Held w.attempts id
  once : ∀ key id other, (key, id) ∈ w.dispatched → (key, other) ∈ w.dispatched → id = other

theorem inv_initial : Inv C contracts (World.initial : World Body) where
  intact := ⟨List.nodup_nil, nofun, nofun⟩
  bindings := nofun
  placed := nofun
  single := nofun
  known := nofun
  named := nofun
  held := nofun
  once := nofun

variable {w : World Body} {call : Call Body} {store : Store} {db' : List Row} {binding : Binding Body}
  {id : Nat}

theorem Inv.close (inv : Inv C contracts w) (closes : Bool) : Inv C contracts (w.close store closes) :=
  ⟨inv.intact, inv.bindings, inv.placed, inv.single, inv.known, inv.named, inv.held, inv.once⟩

/-- Fewer attempts can only advance less. -/
theorem Inv.forget (inv : Inv C contracts w) (id : Nat) : Inv C contracts (w.forget id) where
  intact := inv.intact
  bindings attempt present := inv.bindings attempt (List.mem_of_mem_filter present)
  placed attempt present := inv.placed attempt (List.mem_of_mem_filter present)
  single attempt present other present' :=
    inv.single attempt (List.mem_of_mem_filter present) other (List.mem_of_mem_filter present')
  known attempt present := inv.known attempt (List.mem_of_mem_filter present)
  named attempt present other present' :=
    inv.named attempt (List.mem_of_mem_filter present) other (List.mem_of_mem_filter present')
  held key id dispatched := by
    obtain ⟨row, present, same, answered | ⟨phase, alone⟩⟩ := inv.held key id dispatched
    · exact ⟨row, present, same, .inl answered⟩
    · exact ⟨row, present, same, .inr ⟨phase, fun attempt kept =>
        alone attempt (List.mem_of_mem_filter kept)⟩⟩
  once := inv.once

theorem mem_extend {attempt : Attempt Body} (present : attempt ∈ (w.extend id binding).attempts) :
    ∃ before ∈ w.attempts, attempt.id = before.id ∧ attempt.epoch = before.epoch ∧
      attempt.key = before.key ∧ (attempt.bindings = before.bindings ∨
        attempt.id = id ∧ attempt.bindings = binding :: before.bindings) := by
  obtain ⟨before, held, rfl⟩ := List.mem_map.1 present
  refine ⟨before, held, ?_⟩
  split
  · rename_i same
    exact ⟨rfl, rfl, rfl, .inr ⟨same, rfl⟩⟩
  · exact ⟨rfl, rfl, rfl, .inl rfl⟩

/-- An attempt is handed a binding of its own key. -/
theorem Inv.extend (inv : Inv C contracts w)
    (own : ∀ attempt ∈ w.attempts, attempt.id = id →
      (C.principalDigest binding.principalScope, binding.clientDeliveryId) = attempt.key) :
    Inv C contracts (w.extend id binding) where
  intact := inv.intact
  bindings attempt present handed among := by
    obtain ⟨before, held, ids, _, keys, same | ⟨taken, same⟩⟩ := mem_extend present
    · rw [keys]
      exact inv.bindings before held handed (same ▸ among)
    · rw [same] at among
      rw [keys]
      obtain rfl | among := List.mem_cons.1 among
      · exact own before held (ids.symm.trans taken)
      · exact inv.bindings before held handed among
  placed attempt present := by
    obtain ⟨before, present, _, _, keys, _⟩ := mem_extend present
    rw [keys]
    exact inv.placed before present
  single attempt present other present' epochs same := by
    obtain ⟨before, present, ids, epoch, keys, _⟩ := mem_extend present
    obtain ⟨before', present', ids', epoch', keys', _⟩ := mem_extend present'
    rw [ids, ids']
    exact inv.single before present before' present' (epoch ▸ epoch' ▸ epochs) (keys ▸ keys' ▸ same)
  known attempt present := by
    obtain ⟨before, present, ids, _⟩ := mem_extend present
    rw [ids]
    exact inv.known before present
  named attempt present other present' same := by
    obtain ⟨before, present, ids, _, keys, _⟩ := mem_extend present
    obtain ⟨before', present', ids', _, keys', _⟩ := mem_extend present'
    rw [keys, keys']
    exact inv.named before present before' present' (ids ▸ ids' ▸ same)
  held key id dispatched := by
    obtain ⟨row, present, same, answered | ⟨phase, alone⟩⟩ := inv.held key id dispatched
    · exact ⟨row, present, same, .inl answered⟩
    · refine ⟨row, present, same, .inr ⟨phase, fun attempt kept keyed owned => ?_⟩⟩
      obtain ⟨before, present, ids, epochs, keys, _⟩ := mem_extend kept
      rw [ids]
      exact alone before present (keys ▸ keyed) (epochs ▸ owned)
  once := inv.once

/-- A new attempt of a key that is not dispatched, in a store where none of that key is held. -/
theorem Inv.grant (inv : Inv C contracts w) {key : Bytes × String}
    (keyed : (C.principalDigest binding.principalScope, binding.clientDeliveryId) = key)
    (placed : ∃ row ∈ w.db, row.key = key)
    (alone : ∀ attempt ∈ w.attempts, attempt.epoch = store.ownerEpoch → attempt.key ≠ key)
    (quiet : ∀ id, (key, id) ∉ w.dispatched) : Inv C contracts (w.grant store key binding) where
  intact := inv.intact
  bindings attempt present handed among := by
    obtain rfl | present := List.mem_cons.1 present
    · obtain rfl := List.mem_singleton.1 among
      exact keyed
    · exact inv.bindings attempt present handed among
  placed attempt present := by
    obtain rfl | present := List.mem_cons.1 present
    · exact placed
    · exact inv.placed attempt present
  single attempt present other present' epochs keys := by
    obtain rfl | present := List.mem_cons.1 present <;>
      obtain rfl | present' := List.mem_cons.1 present'
    · rfl
    · exact absurd keys.symm (alone other present' epochs.symm)
    · exact absurd keys (alone attempt present epochs)
    · exact inv.single attempt present other present' epochs keys
  known attempt present := by
    obtain rfl | present := List.mem_cons.1 present
    · exact Nat.lt_succ_self _
    · exact Nat.lt_succ_of_lt (inv.known attempt present)
  named attempt present other present' same := by
    obtain rfl | present := List.mem_cons.1 present <;>
      obtain rfl | present' := List.mem_cons.1 present'
    · rfl
    · exact absurd same.symm (Nat.ne_of_lt (inv.known other present'))
    · exact absurd same (Nat.ne_of_lt (inv.known attempt present))
    · exact inv.named attempt present other present' same
  held other id dispatched := by
    obtain ⟨row, present, same, answered | ⟨phase, held⟩⟩ := inv.held other id dispatched
    · exact ⟨row, present, same, .inl answered⟩
    · refine ⟨row, present, same, .inr ⟨phase, fun attempt kept keys owned => ?_⟩⟩
      obtain rfl | kept := List.mem_cons.1 kept
      · have here : key = other := keys.trans same
        exact absurd (here ▸ dispatched) (quiet id)
      · exact held attempt kept keys owned
  once := inv.once

/-! ## Commits -/

theorem commit_self : w.commit C call w.db = w := by
  rw [World.commit, if_neg (fun both => both.2 rfl)]

theorem mem_commit_dispatched {entry : (Bytes × String) × Nat}
    (kept : entry ∈ (w.commit C call db').dispatched) :
    entry ∈ w.dispatched ∧ (call.isReclaim → db' ≠ w.db → entry.1 ≠ call.key C) := by
  change entry ∈ (if call.isReclaim ∧ db' ≠ w.db then
    w.dispatched.filter fun entry => entry.1 ≠ call.key C else w.dispatched) at kept
  split at kept
  · obtain ⟨present, other⟩ := List.mem_filter.1 kept
    exact ⟨present, fun _ _ => of_decide_eq_true other⟩
  · rename_i not
    exact ⟨kept, fun reclaims changed => absurd ⟨reclaims, changed⟩ not⟩

/-- A dispatching row is left dispatching to its owner, or answered, by every call but a reclaim. -/
theorem Call.Moves.dispatching {r r' : Row} (moves : call.Moves store r r')
    (phase : r.phase = .dispatching) (other : call.isReclaim = false) :
    r'.response.isSome ∨ r'.phase = .dispatching ∧ r'.ownerEpoch = r.ownerEpoch := by
  cases call with
  | bind => exact absurd phase moves.1
  | markQueued => exact absurd phase moves.1
  | markDispatching =>
    obtain ⟨owner, phase', owner', _⟩ := moves
    exact .inr ⟨phase', owner'.trans owner.symm⟩
  | releaseBeforeDispatch => exact absurd phase moves.1
  | recordResponse => exact .inl moves
  | recordReconciledResponse => exact .inl moves
  | reclaimDispatchingBeforeWire => cases other

theorem Goes.placed {db : List Row} (goes : Goes C db db') {key : Bytes × String}
    (placed : ∃ row ∈ db, row.key = key) : ∃ row ∈ db', row.key = key := by
  obtain ⟨row, present, rfl⟩ := placed
  obtain ⟨row', present', kept⟩ := goes row present
  obtain ⟨_, principal, client, _⟩ := kept.key
  exact ⟨row', present', by rw [Row.key, Row.key, principal, client]⟩

section Rewritten

variable {r r' : Row} (rewritten : @Rewritten Body C call.scope call.clientDeliveryId r r' w.db db')
    (moves : call.Moves store r r')

include rewritten moves

theorem reclaim_changes (reclaims : call.isReclaim) : db' ≠ w.db := by
  rintro rfl
  have same := rewritten.here rewritten.mem.2 rewritten.keys.2
  cases call with
  | reclaimDispatchingBeforeWire =>
    obtain ⟨phase, _, phase', _⟩ := moves
    rw [same, phase] at phase'
    cases phase'
  | _ => cases reclaims

/-- A row of a dispatched key that moves is dispatching. -/
theorem Inv.moved (inv : Inv C contracts w) (dispatched : (call.key C, id) ∈ w.dispatched) :
    r.phase = .dispatching ∧ ∀ attempt ∈ w.attempts, attempt.key = r.key →
      attempt.epoch = r.ownerEpoch → attempt.id = id := by
  obtain ⟨row, present, same, answered | held⟩ := inv.held _ id dispatched
  · obtain rfl := rewritten.here present same
    rw [rewritten.noResponse] at answered
    cases answered
  · obtain rfl := rewritten.here present same
    exact held

theorem Inv.commit_rewritten (inv : Inv C contracts w) : Inv C contracts (w.commit C call db') where
  intact := rewritten.intact inv.intact
  bindings := inv.bindings
  placed attempt present := rewritten.goes.placed (inv.placed attempt present)
  single := inv.single
  known := inv.known
  named := inv.named
  held key id dispatched := by
    obtain ⟨dispatched, kept⟩ := mem_commit_dispatched dispatched
    by_cases same : key = call.key C
    · have other : call.isReclaim = false := by
        by_contra reclaims
        rw [Bool.not_eq_false] at reclaims
        exact kept reclaims (reclaim_changes rewritten moves reclaims) same
      obtain ⟨phase, alone⟩ := inv.moved rewritten moves (same ▸ dispatched)
      refine ⟨r', rewritten.mem.2, rewritten.keys.2.trans same.symm, ?_⟩
      obtain answered | ⟨phase', owner⟩ := moves.dispatching phase other
      · exact .inl answered
      · refine .inr ⟨phase', fun attempt present keyed owned => alone attempt present ?_ ?_⟩
        · rw [keyed, rewritten.keys.1, rewritten.keys.2]
        · rw [owned, owner]
    · obtain ⟨row, present, keyed, held⟩ := inv.held key id dispatched
      exact ⟨row, (rewritten.elsewhere (keyed ▸ same)).1 present, keyed, held⟩
  once key id other first second :=
    inv.once key id other (mem_commit_dispatched first).1 (mem_commit_dispatched second).1

end Rewritten

theorem Inserted.goes {r : Row} {db : List Row}
    (inserted : @Inserted Body C store call.scope call.clientDeliveryId call.contract r db db') :
    Goes C db db' := by
  intro row present
  rw [inserted.added]
  exact ⟨row, List.mem_append_left _ present, Kept.refl row⟩

theorem Inv.commit_inserted (inv : Inv C contracts w) (used : call.contract ∈ contracts) {r : Row}
    (inserted : @Inserted Body C store call.scope call.clientDeliveryId call.contract r w.db db') :
    Inv C contracts (w.commit C call db') where
  intact := inserted.intact used inv.intact
  bindings := inv.bindings
  placed attempt present := inserted.goes.placed (inv.placed attempt present)
  single := inv.single
  known := inv.known
  named := inv.named
  held key id dispatched := by
    obtain ⟨row, present, keyed, held⟩ := inv.held key id (mem_commit_dispatched dispatched).1
    refine ⟨row, ?_, keyed, held⟩
    rw [World.commit, inserted.added]
    exact List.mem_append_left _ present
  once key id other first second :=
    inv.once key id other (mem_commit_dispatched first).1 (mem_commit_dispatched second).1

/-! ## Steps -/

/-- The key of the attempt that a call advances is the call's. -/
theorem Inv.advanced (inv : Inv C contracts w) {draws : Draws} {fault : Fault}
    (disciplined : Disciplined contracts w (.call store id call draws fault))
    {advances : Binding Body} (advanced : call.advanced = some advances) :
    (∃ attempt ∈ w.attempts, attempt.id = id ∧ attempt.epoch = store.ownerEpoch ∧
      attempt.key = call.key C) ∧
      ∀ attempt ∈ w.attempts, attempt.id = id → attempt.key = call.key C := by
  obtain ⟨attempt, present, ids, epoch, among⟩ := disciplined.2 advances advanced
  have keys : attempt.key = call.key C := by
    rw [← inv.bindings attempt present advances among]
    cases call <;> cases advanced <;> rfl
  refine ⟨⟨attempt, present, ids, epoch, keys⟩, fun other present' same => ?_⟩
  rw [← keys]
  exact inv.named other present' attempt present (same.trans ids.symm)

theorem Inv.keep [DecidableEq Body] (lawful : C.Lawful contracts) (inv : Inv C contracts w)
    {draws : Draws} {fault : Fault}
    (disciplined : Disciplined contracts w (.call store id call draws fault))
    (spared : ¬ Returns C w store call)
    (ran : call.body C store draws w.db = .ok (binding, db')) :
    Inv C contracts (w.commit C call db') ∧
      Inv C contracts ((w.commit C call db').keep C store id call binding) := by
  obtain ⟨keys, ⟨rfl, owned, stays⟩ | ⟨binds, owned, r, inserted⟩ | ⟨r, r', rewritten, moves, owned⟩⟩ :=
    Call.body_cases lawful inv.intact disciplined.1 ran
  · rw [commit_self]
    refine ⟨inv, ?_⟩
    cases call <;> first | exact inv | (rw [World.keep, owned]; exact inv) | cases stays
  · have commit := inv.commit_inserted disciplined.1 inserted
    refine ⟨commit, ?_⟩
    have nowhere : ∀ row ∈ w.db, row.key ≠ call.key C := fun row present same =>
      inserted.fresh row present (Prod.mk.inj same).2
    have admitted : Inv C contracts ((w.commit C call db').grant store (call.key C) binding) :=
      commit.grant (by rw [keys.1, keys.2]; rfl)
      ⟨r, by rw [World.commit, inserted.added]; exact List.mem_append_right _ List.mem_cons_self,
        isOf_iff.1 inserted.isOf⟩
      (fun attempt present _ same => by
        obtain ⟨row, stored, keyed⟩ := inv.placed attempt present
        exact nowhere row stored (keyed.trans same))
      (fun id dispatched => by
        obtain ⟨row, stored, keyed, _⟩ := inv.held _ id (mem_commit_dispatched dispatched).1
        exact nowhere row stored keyed)
    cases call with
    | bind =>
      rw [World.keep, if_pos owned]
      exact admitted
    | _ => cases binds
  · have commit := inv.commit_rewritten rewritten moves
    refine ⟨commit, ?_⟩
    have placed : ∃ row ∈ (w.commit C call db').db, row.key = call.key C :=
      ⟨r', rewritten.mem.2, rewritten.keys.2⟩
    have keyed : (C.principalDigest binding.principalScope, binding.clientDeliveryId) = call.key C := by
      rw [keys.1, keys.2]
      rfl
    have alone : r.ownerEpoch ≠ store.ownerEpoch →
        call.isBind ∧ r.phase ≠ .dispatching ∨ call.isReclaim ∧ r.phase = .dispatching →
        ∀ attempt ∈ w.attempts, attempt.epoch = store.ownerEpoch → attempt.key ≠ call.key C :=
      fun other phase attempt present epoch same => spared ⟨⟨attempt, present, epoch, same⟩, r,
        rewritten.mem.1, rewritten.keys.1, rewritten.noResponse, other, phase⟩
    cases call with
    | bind =>
      rw [World.keep, if_pos (owned.trans rfl : binding.ownsAttempt = true)]
      exact commit.grant keyed placed (alone moves.2.1 (.inl ⟨rfl, moves.1⟩)) fun id dispatched =>
        moves.1 (inv.moved rewritten moves (mem_commit_dispatched dispatched).1).1
    | markQueued =>
      exact commit.extend fun attempt present same =>
        keyed.trans ((inv.advanced disciplined rfl).2 attempt present same).symm
    | markDispatching handed =>
      obtain ⟨⟨own, present, ids, epoch, same⟩, others⟩ := inv.advanced disciplined rfl
      have extended : Inv C contracts ((w.commit C _ db').extend id binding) :=
        commit.extend fun attempt present same => keyed.trans (others attempt present same).symm
      obtain ⟨owner, phase', owner', _⟩ := moves
      -- an attempt that was dispatched before is the one that advances
      have first : ∀ before, ((Call.markDispatching handed).key C, before) ∈ w.dispatched →
          before = id := by
        intro before dispatched
        obtain ⟨_, held⟩ := inv.moved rewritten ⟨owner, phase', owner', ‹_›⟩ dispatched
        rw [← held own present (same.trans rewritten.keys.1.symm) (epoch.trans owner.symm)]
        exact ids
      refine ⟨extended.intact, extended.bindings, extended.placed, extended.single, extended.known,
        extended.named, ?_, ?_⟩
      · intro key other dispatched
        obtain new | old := List.mem_cons.1 dispatched
        · obtain ⟨rfl, rfl⟩ := Prod.mk.inj new
          refine ⟨r', rewritten.mem.2, rewritten.keys.2, .inr ⟨phase', fun attempt kept keys owned => ?_⟩⟩
          obtain ⟨before, stored, ids', epochs, keys', _⟩ := mem_extend kept
          rw [ids', ← ids]
          exact inv.single before stored own present (epochs ▸ owned.trans (owner'.trans epoch.symm))
            (keys' ▸ keys.trans (rewritten.keys.2.trans same.symm))
        · exact extended.held key other old
      · intro key one other dispatched dispatched'
        obtain new | old := List.mem_cons.1 dispatched <;>
          obtain new' | old' := List.mem_cons.1 dispatched'
        · rw [(Prod.mk.inj new).2, (Prod.mk.inj new').2]
        · obtain ⟨rfl, rfl⟩ := Prod.mk.inj new
          exact (first other (mem_commit_dispatched old').1).symm
        · obtain ⟨rfl, rfl⟩ := Prod.mk.inj new'
          exact first one (mem_commit_dispatched old).1
        · exact extended.once key one other old old'
    | releaseBeforeDispatch => exact commit.forget id
    | recordResponse => exact commit
    | recordReconciledResponse => exact commit
    | reclaimDispatchingBeforeWire =>
      rw [World.keep, if_pos (owned.trans rfl : binding.ownsAttempt = true)]
      exact commit.grant keyed placed (alone moves.2.1 (.inr ⟨rfl, moves.1⟩)) fun id dispatched =>
        (mem_commit_dispatched dispatched).2 rfl (reclaim_changes rewritten moves rfl) rfl

theorem keep_close (closes : Bool) :
    (w.close store closes).keep C store id call binding =
      (w.keep C store id call binding).close store closes := by
  cases call with
  | bind => rw [World.keep, World.keep]; split <;> rfl
  | reclaimDispatchingBeforeWire => rw [World.keep, World.keep]; split <;> rfl
  | _ => rfl

theorem settle_silent {outcome : Outcome Body} (silent : ∀ binding, outcome ≠ .returned binding) :
    w.settle C store id call outcome = w := by
  cases outcome with
  | returned binding => exact absurd rfl (silent binding)
  | raised => rfl
  | died => rfl

/-- **A call or a drop keeps the invariant.** -/
theorem Inv.step [DecidableEq Body] (lawful : C.Lawful contracts) (w : World Body)
    (action : Action Body) (inv : Inv C contracts w)
    (guard : Disciplined contracts w action ∧ Spared C w action) :
    Inv C contracts (w.step C action) := by
  cases action with
  | drop id => exact inv.forget id
  | call store id call draws fault =>
    obtain ⟨disciplined, spared, _⟩ := guard
    rw [World.step, World.effect]
    obtain ⟨same, silent⟩ | ⟨binding, db', ran, same, returned | ⟨silent, _⟩⟩ :=
      call.run_cases (C := C) store (store.ownerEpoch ∉ w.closed) draws fault w.db
    · rw [settle_silent silent, same, commit_self]
      exact inv.close _
    · rw [returned, same, World.settle, keep_close]
      exact (inv.keep lawful disciplined spared ran).2.close _
    · rw [settle_silent silent, same]
      exact (inv.keep lawful disciplined spared ran).1.close _

theorem World.step_goes [DecidableEq Body] (lawful : C.Lawful contracts) (inv : Inv C contracts w)
    {action : Action Body} (disciplined : Disciplined contracts w action) :
    Goes C w.db (w.step C action).db := by
  have still : Goes C w.db w.db := fun row present => ⟨row, present, Kept.refl row⟩
  cases action with
  | drop id => exact still
  | call store id call draws fault =>
    have kept : (w.step C (.call store id call draws fault)).db =
        (w.effect C store call draws fault).db := by
      rw [World.step]
      cases (w.effect C store call draws fault).outcome with
      | returned binding =>
        cases call with
        | bind => simp only [World.settle, World.keep]; split <;> rfl
        | reclaimDispatchingBeforeWire => simp only [World.settle, World.keep]; split <;> rfl
        | _ => rfl
      | raised => rfl
      | died => rfl
    rw [kept, World.effect]
    obtain ⟨same, _⟩ | ⟨binding, db', ran, same, _⟩ :=
      call.run_cases (C := C) store (store.ownerEpoch ∉ w.closed) draws fault w.db
    · rw [same]
      exact still
    · rw [same]
      obtain ⟨_, ⟨rfl, _⟩ | ⟨_, _, r, inserted⟩ | ⟨r, r', rewritten, _⟩⟩ :=
        Call.body_cases lawful inv.intact disciplined.1 ran
      · exact still
      · exact inserted.goes
      · exact rewritten.goes

/-! ## Replays -/

theorem selectRow_of_mem {scope : String} {row : Row} {db : List Row} (intact : Intact C contracts db)
    (present : row ∈ db) (principal : row.principalDigest = C.principalDigest scope) :
    selectRow C scope row.clientDeliveryId db = some row := by
  have isOf : row.IsOf C scope row.clientDeliveryId := ⟨principal, rfl⟩
  cases found : selectRow C scope row.clientDeliveryId db with
  | none => exact absurd (decide_eq_true isOf) (List.find?_eq_none.1 found row present)
  | some other =>
    obtain ⟨_, early, late, rfl, apart⟩ := selectRow_eq_some intact found
    obtain before | rfl | behind := by
      simpa only [List.mem_append, List.mem_cons] using present
    · exact absurd isOf (apart row (List.mem_append_left _ before))
    · rfl
    · exact absurd isOf (apart row (List.mem_append_right _ behind))

theorem bindingOf_sound {epoch scope : String} {row : Row} {contract : Contract} {owns : Bool}
    (sound : row.Sound C) (digest : row.contractDigest = C.contractDigest contract) :
    ∃ binding, bindingOf C epoch row scope contract owns = .ok binding := by
  obtain ⟨⟨identity, opened⟩, response, decoded⟩ := sound
  rw [bindingOf, assertContract, require, if_pos digest, decoded, opened]
  exact ⟨_, rfl⟩

/-- A bind of the contract of an answered row returns the recorded response and owns nothing. -/
theorem bind_answered [DecidableEq Body] {scope : String} {row : Row} {i : Identity} {db : List Row}
    (intact : Intact C contracts db) (present : row ∈ db) (answered : row.response.isSome)
    (principal : row.principalDigest = C.principalDigest scope)
    (decoded : decodeIdentity C row = .ok i)
    (valid : validateKey scope row.clientDeliveryId = .ok ()) (store : Store) (draws : Draws) :
    ∃ binding, (Call.bind scope row.clientDeliveryId i.contract).run C store true draws .none db =
        ⟨.returned binding, db, false⟩ ∧
      binding.ownsAttempt = false ∧ decodeResponse C row = .ok binding.response := by
  have digest := (decodeIdentity_digest decoded).1
  have checked := (decodeIdentity_eq_ok.1 decoded).2
  simp only [checkIdentity, bind_eq_ok, require_eq_ok, exists_const] at checked
  obtain ⟨_, _, _, _, _, contract, _⟩ := checked
  obtain ⟨binding, made⟩ := @bindingOf_sound _ _ store.ownerEpoch scope _ _ false
    (intact.sound row present) digest
  obtain ⟨_, _, _, _, _, _, owned, response, _⟩ := bindingOf_eq_ok made
  have ran : Call.body C store draws db (.bind scope row.clientDeliveryId i.contract) =
      .ok (binding, db) := by
    rw [Call.body, bindBody, selectRow_of_mem intact present principal]
    simp only [bindExisting, assertContract, require, if_pos digest, made, bind, Except.bind]
    rw [if_pos (.inl (by rw [decodeResponse_isSome response]; exact answered))]
    rfl
  refine ⟨binding, ?_, owned, response⟩
  rw [Call.run, Call.precheck, valid]
  simp only [bind, Except.bind, contract, ran, not_true_eq_false, if_false, reduceCtorEq]

/-! ## Runs -/

/-- A caller within its rights, where no row goes back to a holder and no path check fails. -/
def Guard (C : Crypto Body) (contracts : Set Contract) (w : World Body) (action : Action Body) : Prop :=
  Disciplined contracts w action ∧ Spared C w action

instance [DecidablePred (· ∈ contracts)] [DecidableEq Body] (action : Action Body) :
    Decidable (Guard C contracts w action) :=
  inferInstanceAs (Decidable (_ ∧ _))

theorem Inv.run [DecidableEq Body] (lawful : C.Lawful contracts) (inv : Inv C contracts w)
    {later : List (Action Body)} (guarded : EachStep (World.step C) (Guard C contracts) w later) :
    Inv C contracts (Library.run (World.step C) w later) ∧
      Goes C w.db (Library.run (World.step C) w later).db := by
  refine @run_invariant _ _ _ _ (fun later => Inv C contracts later ∧ Goes C w.db later.db) ?_ _ _
    ⟨inv, fun row present => ⟨row, present, Kept.refl row⟩⟩ guarded
  intro between action ⟨inv', goes⟩ guard
  refine ⟨inv'.step lawful between action guard, fun row present => ?_⟩
  obtain ⟨row', present', kept⟩ := goes row present
  obtain ⟨row'', present'', kept'⟩ := between.step_goes lawful inv' guard.1 row' present'
  exact ⟨row'', present'', kept.trans kept'⟩

theorem World.effect_raised [DecidableEq Body] (w : World Body) {draws : Draws} {fault : Fault}
    {error : DeliveryError} (sound : fault ≠ .harden)
    (raised : (w.effect C store call draws fault).outcome = .raised error) :
    (w.effect C store call draws fault).db = w.db := by
  unfold World.effect at raised ⊢
  exact Call.run_raised sound raised

/-- **A send is dispatched at most once.**  In a run of any stores over one table, where no row goes
back to a store while an owner binding of it is still held there and no path check behind a commit
fails: one attempt at most dispatched a key since its last reclaim; a client delivery id is that of
one row; rows keep what is bound to them; an answered row answers every later bind with the same
response; and a call that raises leaves the table. -/
theorem dispatched_at_most_once [DecidableEq Body] (lawful : C.Lawful contracts)
    (actions : List (Action Body))
    (guarded : EachStep (World.step C) (Guard C contracts) .initial actions) :
    let w := Library.run (World.step C) .initial actions
    (∀ key id other, (key, id) ∈ w.dispatched → (key, other) ∈ w.dispatched → id = other) ∧
      (∀ row ∈ w.db, ∀ other ∈ w.db, row.clientDeliveryId = other.clientDeliveryId → row = other) ∧
      (∀ later, EachStep (World.step C) (Guard C contracts) w later →
        (∀ row ∈ w.db, ∃ row' ∈ (Library.run (World.step C) w later).db, Kept C row row') ∧
        ∀ row ∈ w.db, row.response.isSome → ∀ scope i, row.principalDigest = C.principalDigest scope →
          decodeIdentity C row = .ok i → validateKey scope row.clientDeliveryId = .ok () →
          ∀ store draws, ∃ binding,
            (Call.bind scope row.clientDeliveryId i.contract).run C store true draws .none
                (Library.run (World.step C) w later).db =
              ⟨.returned binding, (Library.run (World.step C) w later).db, false⟩ ∧
            binding.ownsAttempt = false ∧ decodeResponse C row = .ok binding.response) ∧
      (∀ store call draws fault error, fault ≠ .harden →
        (w.effect C store call draws fault).outcome = .raised error →
        (w.effect C store call draws fault).db = w.db) := by
  intro w
  have inv : Inv C contracts w := (inv_initial.run lawful guarded).1
  refine ⟨inv.once, ?_, ?_, fun store call draws fault error sound raised =>
    w.effect_raised sound raised⟩
  · intro row present other present' same
    exact List.inj_on_of_nodup_map inv.intact.distinct present present' same
  · intro later guarded'
    obtain ⟨inv', goes⟩ := inv.run lawful guarded'
    refine ⟨goes, ?_⟩
    intro row present answered scope i principal decoded valid store draws
    obtain ⟨row', present', kept⟩ := goes row present
    obtain rfl := kept.response answered
    exact bind_answered inv'.intact present' answered principal decoded valid store draws

/-! ## A row that goes back to a holder -/

namespace Toy

def contract : Contract :=
  { peerFp := "00112233445566778899aabbccddeeff00112233445566778899aabbccddeeff"
    blobHash := "ffeeddccbbaa99887766554433221100ffeeddccbbaa99887766554433221100"
    size := 3
    displayName := "a.txt"
    relPath := ""
    chatInline := false }

def clientDeliveryId : String := "0123456789abcdef0123456789abcdef"

def deliveryId : String := "abcdefabcdefabcdefabcdefabcdefab"

def transferId : String :=
  "out:ffeeddccbbaa99887766554433221100ffeeddccbbaa99887766554433221100:00aa00bb00cc"

/-- Two servers over one table. -/
def alpha : Store := ⟨"aaaaaaaaaaaaaaaaaaaaaaaaaaaaaaaa", 100⟩

def beta : Store := ⟨"bbbbbbbbbbbbbbbbbbbbbbbbbbbbbbbb", 100⟩

def identity (store : Store) (phase : Phase) (delivery : Option String) : Identity :=
  ⟨contract, delivery, store.ownerEpoch, phase, transferId⟩

/-- An envelope that names which of the identities of the run it holds. -/
def crypto : Crypto Unit where
  principalDigest scope := utf8 scope
  contractDigest _ := []
  sealIdentity _ i _ :=
    if i.phase = .bound ∧ i = identity alpha .bound none then [0]
    else if i.phase = .dispatching ∧ i = identity alpha .dispatching (some deliveryId) then [3]
    else if i.ownerEpoch = alpha.ownerEpoch ∧ i = identity alpha .queued (some deliveryId) then [1]
    else if i = identity beta .queued (some deliveryId) then [2]
    else []
  openIdentity
    | _, [0], _ => some (identity alpha .bound none)
    | _, [1], _ => some (identity alpha .queued (some deliveryId))
    | _, [2], _ => some (identity beta .queued (some deliveryId))
    | _, [3], _ => some (identity alpha .dispatching (some deliveryId))
    | _, _, _ => none
  sealResponse _ plaintext _ := plaintext
  openResponse _ ciphertext _ := some ciphertext
  sha256 bytes := bytes
  dumps _ := some []
  loads _ := some ()

theorem lawful : crypto.Lawful {contract} where
  apart := Set.injOn_singleton _ _
  opens nonce i aad opened sealed := by
    simp only [crypto] at sealed
    split_ifs at sealed with first second third fourth
    · exact (Option.some.inj sealed).symm.trans first.2.symm
    · exact (Option.some.inj sealed).symm.trans second.2.symm
    · exact (Option.some.inj sealed).symm.trans third.2.symm
    · exact (Option.some.inj sealed).symm.trans fourth.symm
    · cases sealed

def draws : Draws := ⟨"00aa00bb00cc", [7], [1], [2], 1000⟩

def owned (phase : Phase) (delivery : Option String) : Binding Unit :=
  ⟨"session", clientDeliveryId, contract, transferId, delivery, phase, true, false, false, none⟩

def bindCall : Call Unit := .bind "session" clientDeliveryId contract

def key : Bytes × String := (utf8 "session", clientDeliveryId)

def bound : Binding Unit := owned .bound none

def queued : Binding Unit := owned .queued (some deliveryId)

instance : DecidablePred (· ∈ ({contract} : Set Contract)) :=
  fun other => inferInstanceAs (Decidable (other = contract))

/-- One server alone: bind, queue, dispatch. -/
def plain : List (Action Unit) :=
  [.call alpha 0 bindCall draws .none,
    .call alpha 0 (.markQueued bound deliveryId) draws .none,
    .call alpha 0 (.markDispatching queued) draws .none]

theorem guarded_plain : EachStep (World.step crypto) (Guard crypto {contract}) .initial plain := by
  decide +kernel

/-- One caller alone dispatches its send, once. -/
theorem dispatched_at_most_once_plain :
    (run (World.step crypto) .initial plain).dispatched = [(key, 0)] ∧
      ∀ key id other, (key, id) ∈ (run (World.step crypto) .initial plain).dispatched →
        (key, other) ∈ (run (World.step crypto) .initial plain).dispatched → id = other :=
  ⟨by decide +kernel, (dispatched_at_most_once lawful plain guarded_plain).1⟩

/-- Between queueing and dispatch the other server takes the row over, and the first one takes it
back for a second caller. -/
def returned : List (Action Unit) :=
  [.call alpha 0 bindCall draws .none,
    .call alpha 0 (.markQueued bound deliveryId) draws .none,
    .call beta 1 bindCall draws .none,
    .call alpha 2 bindCall draws .none,
    .call alpha 0 (.markDispatching queued) draws .none,
    .call alpha 2 (.markDispatching queued) draws .none]

theorem dispatched_returned :
    (run (World.step crypto) .initial returned).dispatched = [(key, 2), (key, 0)] := by
  decide +kernel

/-- Both callers dispatch the send: the first one's binding is good again once its server owns the
row again. -/
theorem returned_row_dispatched_twice :
    crypto.Lawful {contract} ∧
      EachStep (World.step crypto) (Disciplined {contract}) .initial returned ∧
      (∀ action ∈ returned, ∃ store id call, action = .call store id call draws .none) ∧
      ∃ key, (key, 0) ∈ (run (World.step crypto) .initial returned).dispatched ∧
        (key, 2) ∈ (run (World.step crypto) .initial returned).dispatched := by
  refine ⟨lawful, by decide +kernel, by simp [returned], key, ?_⟩
  rw [dispatched_returned]
  simp

end Toy

end OneLink.UiDelivery
