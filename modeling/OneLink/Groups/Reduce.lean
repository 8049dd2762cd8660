/-
# Groups.Reduce — replaying a group's event log

`reduce_events` deduplicates by event id, sorts by `(timestamp_ms, event_id)`,
checks group ids and signatures, takes the first `create` as the genesis and
replays the rest through `_apply_event`.

Two facts carry every result about it:

* `sortedEvents_unsigned_eq` — the bodies that reach the replay, in their order,
  are a function of the *set* of bodies in the input;
* `settle_unsigned` — past the signature check nothing reads a signature.

`stateAfter` names the state at each point of the replay: after each prefix of
the sorted log.
-/
import OneLink.Groups.Event
import Mathlib.Data.Prod.Lex
import Mathlib.Data.List.Sort
import Mathlib.Data.List.Induction

namespace OneLink.Groups

open Library

set_option autoImplicit false

scoped instance lawfulBytes : LawfulBEq Bytes := inferInstance

structure GroupState where
  groupId : Bytes
  name : String
  createdMs : Int
  members : OrderedDict Bytes Role
  stateHash : String
  deriving DecidableEq

variable (P : Primitives)

/-! ## The source functions -/

def sortKey (e : GroupEvent) : Int ×ₗ String := toLex (e.timestampMs, e.eventId P)

/-- `_sort_events`. -/
def sortEvents (events : List GroupEvent) : List GroupEvent :=
  events.insertionSort fun a b => sortKey P a ≤ sortKey P b

/-- `deduped`: one event an id, the last of the input. -/
def deduped (events : List GroupEvent) : OrderedDict String GroupEvent :=
  events.foldl (fun d e => d.set (e.eventId P) e) .empty

def sortedEvents (events : List GroupEvent) : List GroupEvent :=
  sortEvents P (deduped P events).values

/-- `_apply_event`: the new state, and whether the event was applied. -/
def applyEvent (state : GroupState) (e : GroupEvent) : GroupState × Bool :=
  match state.members.get? e.authorPubkey with
  | none => (state, false)
  | some authorRole =>
    match e.eventKind? with
    | some .create => (state, false)
    | some .addMember =>
      if authorRole.rank < Role.admin.rank then (state, false)
      else if e.targetPubkey.length ≠ 32 then (state, false)
      else if maxGroupMembers ≤ state.members.size then (state, false)
      else
        match Role.ofString? (if e.role = "" then "member" else e.role) with
        | none => (state, false)
        | some newRole =>
          if newRole = .owner ∧ authorRole ≠ .owner then (state, false)
          else
            match state.members.get? e.targetPubkey with
            | none =>
              ({ state with members := state.members.set e.targetPubkey newRole }, true)
            | some _ => (state, false)
    | some .removeMember =>
      if authorRole.rank < Role.admin.rank then (state, false)
      else
        match state.members.get? e.targetPubkey with
        | none => (state, false)
        | some targetRole =>
          if targetRole = .owner ∧ authorRole ≠ .owner then (state, false)
          else if e.targetPubkey = e.authorPubkey ∧ targetRole = .owner ∧
              -- no other owner, yet other members: they would be orphaned
              (state.members.items.filter fun m =>
                m.2 = Role.owner ∧ m.1 ≠ e.targetPubkey) = [] ∧
              (state.members.keys.filter fun pk => pk ≠ e.targetPubkey) ≠ [] then
            (state, false)
          else ({ state with members := state.members.erase e.targetPubkey }, true)
    | some .changeRole =>
      if authorRole ≠ .owner then (state, false)
      else if e.targetPubkey ∉ state.members.keys then (state, false)
      else
        match Role.ofString? e.role with
        | none => (state, false)
        | some newRole =>
          if e.targetPubkey = e.authorPubkey ∧ newRole ≠ .owner ∧
              (state.members.items.filter fun m =>
                m.2 = Role.owner ∧ m.1 ≠ e.targetPubkey) = [] then
            (state, false)
          else ({ state with members := state.members.set e.targetPubkey newRole }, true)
    | some .rename =>
      if authorRole.rank < Role.admin.rank then (state, false)
      else if e.name = "" ∨ maxGroupNameLen < e.name.length then (state, false)
      else ({ state with name := e.name }, true)
    | none => (state, false)

/-- The state the genesis event sets up. -/
def genesisState (gid : Bytes) (first : GroupEvent) : GroupState where
  groupId := gid
  name := first.name
  createdMs := first.timestampMs
  members := OrderedDict.empty.set first.authorPubkey .owner
  stateHash := ""

/-- One turn of the replay loop, over the state and the bytes fed to the chain
hash.  `e is first_create` compares identities; `deduped` holds one event an id,
so it compares ids. -/
def replayStep (first : GroupEvent) (gid : Bytes) (acc : GroupState × Bytes) (e : GroupEvent) :
    GroupState × Bytes :=
  if e.eventId P = first.eventId P then acc
  else if e.groupId ≠ gid then acc
  else
    let next := applyEvent acc.1 e
    (next.1, if next.2 then acc.2 ++ e.canonicalBytes else acc.2)

/-- The first `create` of a sorted log. -/
def firstCreate? (sorted : List GroupEvent) : Option GroupEvent :=
  (sorted.filter fun e => e.kind = "create").head?

def replay (first : GroupEvent) (gid : Bytes) (sorted : List GroupEvent) : GroupState × Bytes :=
  sorted.foldl (replayStep P first gid) (genesisState gid first, first.canonicalBytes)

/-- `reduce_events` past its checks: genesis selection and replay. -/
def settle (gid : Bytes) (sorted : List GroupEvent) : Option GroupState :=
  match firstCreate? sorted with
  | none => none
  | some first =>
    let (state, chain) := replay P first gid sorted
    some { state with stateHash := P.blake3 chain }

/-- The group-id comparison of the check loop, against the first event of the log. -/
def checkGroupId (e₀ e : GroupEvent) : Except GroupError Unit :=
  if e.groupId ≠ e₀.groupId then .error .multipleGroupIds else .ok ()

/-- `reduce_events` after its sort. -/
def reduceSorted (skipSignatureVerify : Bool) (sorted : List GroupEvent) :
    Except GroupError (Option GroupState) := do
  match sorted.head? with
  | none => return none
  | some e₀ =>
    sorted.forM (checkGroupId e₀)
    if ¬ skipSignatureVerify then
      sorted.forM (GroupEvent.verify P)
    return settle P e₀.groupId sorted

def reduceEvents (skipSignatureVerify : Bool) (events : List GroupEvent) :
    Except GroupError (Option GroupState) :=
  reduceSorted P skipSignatureVerify (sortedEvents P events)

/-- The state after a prefix of the sorted log. -/
def stateAfter (first : GroupEvent) (gid : Bytes) (done : List GroupEvent) : GroupState :=
  (replay P first gid done).1

/-! ## What reaches the replay -/

theorem deduped_snoc (events : List GroupEvent) (e : GroupEvent) :
    deduped P (events ++ [e]) = (deduped P events).set (e.eventId P) e := by
  simp [deduped]

/-- An entry of `deduped` is an input event under its own id. -/
theorem deduped_get? {events : List GroupEvent} {id : String} {e : GroupEvent}
    (found : (deduped P events).get? id = some e) : e ∈ events ∧ e.eventId P = id := by
  induction events using List.reverseRec with
  | nil => simp [deduped] at found
  | append_singleton events last ih =>
    rw [deduped_snoc, OrderedDict.get?_set] at found
    split at found
    · rename_i same
      cases found
      exact ⟨by simp, same⟩
    · obtain ⟨member, id⟩ := ih found
      exact ⟨by simp [member], id⟩

theorem deduped_isSome {events : List GroupEvent} {e : GroupEvent} (member : e ∈ events) :
    ∃ e', (deduped P events).get? (e.eventId P) = some e' := by
  induction events using List.reverseRec with
  | nil => simp at member
  | append_singleton events last ih =>
    rw [deduped_snoc]
    by_cases same : last.eventId P = e.eventId P
    · exact ⟨last, by rw [← same, OrderedDict.get?_set_self]⟩
    · rw [OrderedDict.get?_set_of_ne _ same]
      rcases List.mem_append.mp member with early | late
      · exact ih early
      · rw [List.mem_singleton] at late
        exact absurd (by rw [late]) same

theorem mem_sortedEvents {events : List GroupEvent} {e : GroupEvent} :
    e ∈ sortedEvents P events ↔ (deduped P events).get? (e.eventId P) = some e := by
  rw [sortedEvents, sortEvents, List.mem_insertionSort, OrderedDict.values, List.mem_map]
  constructor
  · rintro ⟨⟨id, e'⟩, member, rfl⟩
    have found := (OrderedDict.get?_eq_some_iff _).mpr member
    obtain ⟨-, same⟩ := deduped_get? P found
    rw [same]
    exact found
  · intro found
    exact ⟨(e.eventId P, e), (OrderedDict.get?_eq_some_iff _).mp found, rfl⟩

theorem mem_of_mem_sortedEvents {events : List GroupEvent} {e : GroupEvent}
    (member : e ∈ sortedEvents P events) : e ∈ events :=
  (deduped_get? P ((mem_sortedEvents P).mp member)).1

/-- Every input event is represented in the sorted log by one with its id. -/
theorem exists_mem_sortedEvents {events : List GroupEvent} {e : GroupEvent} (member : e ∈ events) :
    ∃ e' ∈ sortedEvents P events, e'.eventId P = e.eventId P := by
  obtain ⟨e', found⟩ := deduped_isSome P member
  obtain ⟨-, same⟩ := deduped_get? P found
  exact ⟨e', (mem_sortedEvents P).mpr (by rw [same]; exact found), same⟩

theorem eventId_inj_of_mem_sortedEvents {events : List GroupEvent} {e e' : GroupEvent}
    (he : e ∈ sortedEvents P events) (he' : e' ∈ sortedEvents P events)
    (same : e.eventId P = e'.eventId P) : e = e' := by
  rw [mem_sortedEvents] at he he'
  rw [same, he'] at he
  exact (Option.some.inj he).symm

theorem nodup_sortedEvents (events : List GroupEvent) : (sortedEvents P events).Nodup := by
  rw [sortedEvents, sortEvents, (List.perm_insertionSort _ _).nodup_iff]
  have distinct := (deduped P events).nodup
  rw [OrderedDict.values]
  rw [List.nodup_map_iff_inj_on (List.Nodup.of_map _ distinct)]
  rintro ⟨id, e⟩ member ⟨id', e'⟩ member' same
  obtain ⟨-, own⟩ := deduped_get? P ((OrderedDict.get?_eq_some_iff _).mpr member)
  obtain ⟨-, own'⟩ := deduped_get? P ((OrderedDict.get?_eq_some_iff _).mpr member')
  simp only at same own own'
  rw [← own, ← own', same]

theorem pairwise_sortedEvents (events : List GroupEvent) :
    (sortedEvents P events).Pairwise fun a b => sortKey P a ≤ sortKey P b := by
  have : Std.Total fun a b : GroupEvent => sortKey P a ≤ sortKey P b := ⟨fun _ _ => le_total _ _⟩
  have : IsTrans GroupEvent fun a b => sortKey P a ≤ sortKey P b := ⟨fun _ _ _ => le_trans⟩
  exact List.pairwise_insertionSort _ _

@[simp] theorem sortKey_unsigned (e : GroupEvent) : sortKey P e.unsigned = sortKey P e := rfl

@[simp] theorem eventId_unsigned (e : GroupEvent) : e.unsigned.eventId P = e.eventId P := rfl

theorem eventId_eq_of_sortKey {a b : GroupEvent} (same : sortKey P a = sortKey P b) :
    a.eventId P = b.eventId P :=
  congrArg (fun k => (ofLex k).2) same

theorem mem_sortedBodies {events : List GroupEvent} (free : CollisionFree P events)
    {b : GroupEvent} :
    b ∈ (sortedEvents P events).map GroupEvent.unsigned ↔ b ∈ events.map GroupEvent.unsigned := by
  simp only [List.mem_map]
  constructor
  · rintro ⟨e, member, rfl⟩
    exact ⟨e, mem_of_mem_sortedEvents P member, rfl⟩
  · rintro ⟨e, member, rfl⟩
    obtain ⟨e', member', same⟩ := exists_mem_sortedEvents P member
    exact ⟨e', member', unsigned_eq_of_eventId free (mem_of_mem_sortedEvents P member') member same⟩

/-- Two strictly ordered lists of bodies with the same elements are the same. -/
theorem sortedBodies_ext {xs ys : List GroupEvent}
    (hx : xs.Nodup) (hy : ys.Nodup)
    (sx : xs.Pairwise fun a b => sortKey P a ≤ sortKey P b)
    (sy : ys.Pairwise fun a b => sortKey P a ≤ sortKey P b)
    (inj : ∀ a ∈ xs, ∀ b ∈ ys, sortKey P a = sortKey P b → a = b)
    (same : ∀ b, b ∈ xs ↔ b ∈ ys) : xs = ys := by
  apply List.Perm.eq_of_pairwise _ sx sy ((List.perm_ext_iff_of_nodup hx hy).mpr same)
  intro a b ha hb le ge
  exact inj a ha b hb (le_antisymm le ge)

theorem nodup_sortedBodies (events : List GroupEvent) :
    ((sortedEvents P events).map GroupEvent.unsigned).Nodup := by
  rw [List.nodup_map_iff_inj_on (nodup_sortedEvents P events)]
  intro a ha b hb same
  exact eventId_inj_of_mem_sortedEvents P ha hb (GroupEvent.eventId_eq_of_unsigned P same)

theorem pairwise_sortedBodies (events : List GroupEvent) :
    ((sortedEvents P events).map GroupEvent.unsigned).Pairwise
      fun a b => sortKey P a ≤ sortKey P b := by
  rw [List.pairwise_map]
  simpa using pairwise_sortedEvents P events

/-- **The replayed bodies are a function of the set of bodies.** -/
theorem sortedEvents_unsigned_eq {l l' : List GroupEvent} (free : CollisionFree P (l ++ l'))
    (same : ∀ b, b ∈ l.map GroupEvent.unsigned ↔ b ∈ l'.map GroupEvent.unsigned) :
    (sortedEvents P l).map GroupEvent.unsigned = (sortedEvents P l').map GroupEvent.unsigned := by
  have freeLeft : CollisionFree P l := free.subset (by simp +contextual)
  have freeRight : CollisionFree P l' := free.subset (by simp +contextual)
  apply sortedBodies_ext P (nodup_sortedBodies P l) (nodup_sortedBodies P l')
    (pairwise_sortedBodies P l) (pairwise_sortedBodies P l')
  · intro a ha b hb key
    simp only [List.mem_map] at ha hb
    obtain ⟨e, he, rfl⟩ := ha
    obtain ⟨e', he', rfl⟩ := hb
    exact unsigned_eq_of_eventId free
      (by simp [mem_of_mem_sortedEvents P he]) (by simp [mem_of_mem_sortedEvents P he'])
      (eventId_eq_of_sortKey P key)
  · intro b
    rw [mem_sortedBodies P freeLeft, mem_sortedBodies P freeRight, same]

/-! ## The replay does not read signatures -/

theorem replayStep_unsigned (first : GroupEvent) (gid : Bytes) (acc : GroupState × Bytes)
    (e : GroupEvent) :
    replayStep P first.unsigned gid acc e.unsigned = replayStep P first gid acc e := rfl

theorem foldl_replayStep_unsigned (first : GroupEvent) (gid : Bytes) (l : List GroupEvent)
    (acc : GroupState × Bytes) :
    (l.map GroupEvent.unsigned).foldl (replayStep P first.unsigned gid) acc =
      l.foldl (replayStep P first gid) acc := by
  induction l generalizing acc with
  | nil => rfl
  | cons e l ih => simp only [List.map_cons, List.foldl_cons, replayStep_unsigned, ih]

theorem replay_unsigned (first : GroupEvent) (gid : Bytes) (sorted : List GroupEvent) :
    replay P first.unsigned gid (sorted.map GroupEvent.unsigned) = replay P first gid sorted :=
  foldl_replayStep_unsigned P first gid sorted _

theorem firstCreate?_unsigned (sorted : List GroupEvent) :
    firstCreate? (sorted.map GroupEvent.unsigned) =
      (firstCreate? sorted).map GroupEvent.unsigned := by
  rw [firstCreate?, firstCreate?, List.filter_map, List.head?_map]
  rfl

/-- **Past its checks, `reduce_events` does not read signatures.** -/
theorem settle_unsigned (gid : Bytes) (sorted : List GroupEvent) :
    settle P gid (sorted.map GroupEvent.unsigned) = settle P gid sorted := by
  unfold settle
  rw [firstCreate?_unsigned]
  cases firstCreate? sorted with
  | none => rfl
  | some first => simp only [Option.map_some, replay_unsigned]

/-! ## The two checks -/

/-- Every event of the list is of one group. -/
def OneGroup (events : List GroupEvent) : Prop :=
  ∀ e ∈ events, ∀ e' ∈ events, e.groupId = e'.groupId

/-- `reduce_events` raises on none of its checks. -/
def Admissible (skipSignatureVerify : Bool) (sorted : List GroupEvent) : Prop :=
  OneGroup sorted ∧ (skipSignatureVerify = true ∨ ∀ e ∈ sorted, e.Verifies P)

theorem checkGroupId_ok_iff (e₀ e : GroupEvent) :
    checkGroupId e₀ e = .ok () ↔ e.groupId = e₀.groupId := by
  by_cases same : e.groupId = e₀.groupId
  · simp [checkGroupId, same]
  · simp [checkGroupId, same]

theorem groupCheck_ok_iff (e₀ : GroupEvent) (rest : List GroupEvent) :
    (e₀ :: rest).forM (checkGroupId e₀) = .ok () ↔ OneGroup (e₀ :: rest) := by
  simp only [forM_ok_iff, checkGroupId_ok_iff]
  constructor
  · intro all e he e' he'
    rw [all e he, all e' he']
  · intro one e he
    exact one e he e₀ (by simp)

theorem reduceSorted_of_admissible {skip : Bool} {e₀ : GroupEvent} {rest : List GroupEvent}
    (ok : Admissible P skip (e₀ :: rest)) :
    reduceSorted P skip (e₀ :: rest) = .ok (settle P e₀.groupId (e₀ :: rest)) := by
  have groups := (groupCheck_ok_iff e₀ rest).mpr ok.1
  simp only [reduceSorted, List.head?_cons]
  rw [groups]
  rcases ok.2 with skipped | verified
  · subst skipped
    rfl
  · have signatures := (forM_ok_iff (GroupEvent.verify P) (e₀ :: rest)).mpr verified
    cases skip with
    | true => rfl
    | false =>
      simp only [Bool.false_eq_true, not_false_eq_true, if_true]
      rw [signatures]
      rfl

theorem reduceSorted_of_not_admissible {skip : Bool} {sorted : List GroupEvent}
    (bad : ¬ Admissible P skip sorted) : ∃ err, reduceSorted P skip sorted = .error err := by
  cases sorted with
  | nil => exact absurd ⟨by simp [OneGroup], Or.inr (by simp)⟩ bad
  | cons e₀ rest =>
    simp only [reduceSorted, List.head?_cons]
    cases groups : (e₀ :: rest).forM (checkGroupId e₀) with
    | error err => exact ⟨err, rfl⟩
    | ok u =>
      have one : OneGroup (e₀ :: rest) := (groupCheck_ok_iff e₀ rest).mp groups
      cases skip with
      | true => exact absurd ⟨one, Or.inl rfl⟩ bad
      | false =>
        simp only [Bool.false_eq_true, not_false_eq_true, if_true]
        cases signatures : (e₀ :: rest).forM (GroupEvent.verify P) with
        | error err => exact ⟨err, rfl⟩
        | ok u =>
          have verified := (forM_ok_iff (GroupEvent.verify P) (e₀ :: rest)).mp signatures
          exact absurd ⟨one, Or.inr verified⟩ bad

end OneLink.Groups
