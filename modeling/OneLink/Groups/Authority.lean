/-
# Groups.Authority — who may change a group

`Applied` says everything an applied event can do, guards included; every
invariant below is read off it and not off `applyEvent`.

* `Applied.governed` — one applied event keeps an owner in every nonempty group
  and the member cap;
* `Applied.authorised` — ownership comes from owners, every other change from
  admins;
* `reduceEvents_authority` — both at every point of every replay.
-/
import OneLink.Groups.Reduce

namespace OneLink.Groups

open Library

set_option autoImplicit false

/-- `GroupState.has_role_at_least`. -/
def GroupState.hasRoleAtLeast (state : GroupState) (pubkey : Bytes) (required : Role) : Bool :=
  match state.members.get? pubkey with
  | none => false
  | some actual => required.rank ≤ actual.rank

/-- No owner of the group other than `pubkey`. -/
def NoOtherOwner (members : OrderedDict Bytes Role) (pubkey : Bytes) : Prop :=
  ∀ pk, members.get? pk = some .owner → pk = pubkey

/-- What an applied event does, and what it needed to be applied. -/
inductive Applied (state : GroupState) (e : GroupEvent) : GroupState → Prop where
  | added (authorRole newRole : Role)
      (author : state.members.get? e.authorPubkey = some authorRole)
      (rank : Role.admin.rank ≤ authorRole.rank)
      (room : state.members.size < maxGroupMembers)
      (owners : newRole = .owner → authorRole = .owner)
      (fresh : state.members.get? e.targetPubkey = none) :
      Applied state e { state with members := state.members.set e.targetPubkey newRole }
  | removed (authorRole targetRole : Role)
      (author : state.members.get? e.authorPubkey = some authorRole)
      (rank : Role.admin.rank ≤ authorRole.rank)
      (target : state.members.get? e.targetPubkey = some targetRole)
      (owners : targetRole = .owner → authorRole = .owner)
      (orphans : e.targetPubkey = e.authorPubkey → targetRole = .owner →
        NoOtherOwner state.members e.targetPubkey →
        ∀ pk ∈ state.members.keys, pk = e.targetPubkey) :
      Applied state e { state with members := state.members.erase e.targetPubkey }
  | changed (newRole : Role)
      (author : state.members.get? e.authorPubkey = some .owner)
      (target : e.targetPubkey ∈ state.members.keys)
      (orphans : e.targetPubkey = e.authorPubkey → newRole ≠ .owner →
        ¬ NoOtherOwner state.members e.targetPubkey) :
      Applied state e { state with members := state.members.set e.targetPubkey newRole }
  | renamed (authorRole : Role)
      (author : state.members.get? e.authorPubkey = some authorRole)
      (rank : Role.admin.rank ≤ authorRole.rank) :
      Applied state e { state with name := e.name }

theorem otherOwners_eq_nil_iff (members : OrderedDict Bytes Role) (pubkey : Bytes) :
    (members.items.filter fun m => m.2 = Role.owner ∧ m.1 ≠ pubkey) = [] ↔
      NoOtherOwner members pubkey := by
  simp only [List.filter_eq_nil_iff, decide_eq_true_eq, not_and, not_not, NoOtherOwner, Prod.forall]
  constructor
  · intro none pk owner
    exact none pk .owner ((members.get?_eq_some_iff).mp owner) rfl
  · rintro none pk role member rfl
    exact none pk ((members.get?_eq_some_iff).mpr member)

/-- An event leaves the state alone or is applied. -/
theorem applyEvent_cases (state : GroupState) (e : GroupEvent) :
    applyEvent state e = (state, false) ∨
      ∃ next, applyEvent state e = (next, true) ∧ Applied state e next := by
  unfold applyEvent
  cases author : state.members.get? e.authorPubkey with
  | none => exact .inl rfl
  | some authorRole =>
    cases kind : e.eventKind? with
    | none => exact .inl rfl
    | some k =>
      cases k with
      | create => exact .inl rfl
      | addMember =>
        dsimp only
        split
        · exact .inl rfl
        rename_i rank
        split
        · exact .inl rfl
        split
        · exact .inl rfl
        rename_i room
        split
        · exact .inl rfl
        rename_i newRole _
        split
        · exact .inl rfl
        rename_i owners
        split
        · rename_i fresh
          refine .inr ⟨_, rfl, .added authorRole newRole author (not_lt.mp rank)
            (not_le.mp room) ?_ fresh⟩
          intro isOwner
          by_contra other
          exact owners ⟨isOwner, other⟩
        · exact .inl rfl
      | removeMember =>
        dsimp only
        split
        · exact .inl rfl
        rename_i rank
        split
        · exact .inl rfl
        rename_i targetRole target
        split
        · exact .inl rfl
        rename_i owners
        split
        · exact .inl rfl
        rename_i orphans
        refine .inr ⟨_, rfl, .removed authorRole targetRole author (not_lt.mp rank) target
          ?_ ?_⟩
        · intro isOwner
          by_contra other
          exact owners ⟨isOwner, other⟩
        · intro self isOwner alone pk member
          by_contra other
          refine orphans ⟨self, isOwner, (otherOwners_eq_nil_iff _ _).mpr alone, ?_⟩
          exact List.ne_nil_of_mem (List.mem_filter.mpr ⟨member, by simpa using other⟩)
      | changeRole =>
        dsimp only
        split
        · exact .inl rfl
        rename_i isOwner
        split
        · exact .inl rfl
        rename_i target
        split
        · exact .inl rfl
        rename_i newRole _
        split
        · exact .inl rfl
        rename_i orphans
        rw [not_not] at isOwner target
        refine .inr ⟨_, rfl, .changed newRole (by rw [author, isOwner]) target ?_⟩
        intro self demoted alone
        exact orphans ⟨self, demoted, (otherOwners_eq_nil_iff _ _).mpr alone⟩
      | rename =>
        dsimp only
        split
        · exact .inl rfl
        rename_i rank
        split
        · exact .inl rfl
        exact .inr ⟨_, rfl, .renamed authorRole author (not_lt.mp rank)⟩

/-! ## One event -/

/-- An owner in every nonempty group, and no more members than the cap. -/
def Governed (state : GroupState) : Prop :=
  (state.members.keys = [] ∨ ∃ pk, state.members.get? pk = some .owner) ∧
    state.members.size ≤ maxGroupMembers

/-- What the author's role before the event allows the event to change. -/
def Authorised (before : GroupState) (e : GroupEvent) (after : GroupState) : Prop :=
  (∀ pk, after.members.get? pk = some .owner → before.members.get? pk ≠ some .owner →
    before.members.get? e.authorPubkey = some .owner) ∧
  (∀ pk, after.members.get? pk ≠ before.members.get? pk →
    before.hasRoleAtLeast e.authorPubkey .admin = true) ∧
  (after.name ≠ before.name → before.hasRoleAtLeast e.authorPubkey .admin = true)

theorem Authorised.refl (state : GroupState) (e : GroupEvent) : Authorised state e state :=
  ⟨fun _ owner noOwner => absurd owner noOwner, fun _ changed => absurd rfl changed,
    fun changed => absurd rfl changed⟩

/-- A group with a member at all has an owner. -/
theorem Governed.exists_owner {state : GroupState} (governed : Governed state) {pk : Bytes}
    {role : Role} (member : state.members.get? pk = some role) :
    ∃ owner, state.members.get? owner = some .owner := by
  rcases governed.1 with empty | owner
  · have := (state.members.mem_keys_iff).mpr ⟨role, member⟩
    simp [empty] at this
  · exact owner

theorem Applied.owner_remains {state next : GroupState} {e : GroupEvent}
    (applied : Applied state e next) (governed : Governed state) :
    next.members.keys = [] ∨ ∃ pk, next.members.get? pk = some .owner := by
  cases applied with
  | added authorRole newRole author rank room owners fresh =>
    obtain ⟨pk, owner⟩ := governed.exists_owner author
    have other : e.targetPubkey ≠ pk := by
      rintro rfl
      simp [fresh] at owner
    exact .inr ⟨pk, by rw [OrderedDict.get?_set_of_ne _ other, owner]⟩
  | removed authorRole targetRole author rank target owners orphans =>
    by_cases alone : NoOtherOwner state.members e.targetPubkey
    · -- the target is the owner, hence the author, hence the last member
      obtain ⟨pk, owner⟩ := governed.exists_owner author
      obtain rfl := alone pk owner
      rw [target, Option.some.injEq] at owner
      rw [owners owner] at author
      have self := alone _ author
      refine .inl (List.eq_nil_iff_forall_not_mem.mpr fun pk member => ?_)
      obtain ⟨role, found⟩ := (OrderedDict.mem_keys_iff _).mp member
      rw [OrderedDict.get?_erase] at found
      split at found
      · simp at found
      · rename_i other
        exact other (orphans self.symm owner alone pk
          ((OrderedDict.mem_keys_iff _).mpr ⟨role, found⟩)).symm
    · simp only [NoOtherOwner, not_forall] at alone
      obtain ⟨pk, owner, other⟩ := alone
      exact .inr ⟨pk, by rw [OrderedDict.get?_erase_of_ne _ (Ne.symm other), owner]⟩
  | changed newRole author target orphans =>
    by_cases promoted : newRole = .owner
    · exact .inr ⟨e.targetPubkey, by rw [OrderedDict.get?_set_self, promoted]⟩
    by_cases self : e.targetPubkey = e.authorPubkey
    · have other := orphans self promoted
      simp only [NoOtherOwner, not_forall] at other
      obtain ⟨pk, owner, other⟩ := other
      exact .inr ⟨pk, by rw [OrderedDict.get?_set_of_ne _ (Ne.symm other), owner]⟩
    · exact .inr ⟨e.authorPubkey, by rw [OrderedDict.get?_set_of_ne _ self, author]⟩
  | renamed authorRole author rank => exact governed.1

theorem Applied.size_le {state next : GroupState} {e : GroupEvent}
    (applied : Applied state e next) (governed : Governed state) :
    next.members.size ≤ maxGroupMembers := by
  cases applied with
  | added authorRole newRole author rank room owners fresh =>
    rw [OrderedDict.size_set_of_not_mem _ ((OrderedDict.not_mem_keys_iff _).mpr fresh)]
    exact room
  | removed authorRole targetRole author rank target owners orphans =>
    exact (OrderedDict.size_erase_le _ _).trans governed.2
  | changed newRole author target orphans =>
    rw [OrderedDict.size_set_of_mem _ target]
    exact governed.2
  | renamed authorRole author rank => exact governed.2

theorem hasRoleAtLeast_of_rank {state : GroupState} {pk : Bytes} {role required : Role}
    (member : state.members.get? pk = some role) (rank : required.rank ≤ role.rank) :
    state.hasRoleAtLeast pk required = true := by
  simp [GroupState.hasRoleAtLeast, member, rank]

theorem Applied.author_admin {state next : GroupState} {e : GroupEvent}
    (applied : Applied state e next) : state.hasRoleAtLeast e.authorPubkey .admin = true := by
  cases applied with
  | added authorRole newRole author rank room owners fresh => exact hasRoleAtLeast_of_rank author rank
  | removed authorRole targetRole author rank target owners orphans =>
    exact hasRoleAtLeast_of_rank author rank
  | changed newRole author target orphans => exact hasRoleAtLeast_of_rank author (by decide)
  | renamed authorRole author rank => exact hasRoleAtLeast_of_rank author rank

theorem Applied.author_owner {state next : GroupState} {e : GroupEvent}
    (applied : Applied state e next) {pk : Bytes} (owner : next.members.get? pk = some .owner)
    (noOwner : state.members.get? pk ≠ some .owner) :
    state.members.get? e.authorPubkey = some .owner := by
  cases applied with
  | added authorRole newRole author rank room owners fresh =>
    rw [OrderedDict.get?_set] at owner
    split at owner
    · rw [author, owners (Option.some.inj owner)]
    · exact absurd owner noOwner
  | removed authorRole targetRole author rank target owners orphans =>
    rw [OrderedDict.get?_erase] at owner
    split at owner
    · simp at owner
    · exact absurd owner noOwner
  | changed newRole author target orphans => exact author
  | renamed authorRole author rank => exact absurd owner noOwner

theorem Applied.authorised {state next : GroupState} {e : GroupEvent}
    (applied : Applied state e next) : Authorised state e next :=
  ⟨fun _ => applied.author_owner, fun _ _ => applied.author_admin, fun _ => applied.author_admin⟩

/-! ## Every point of the replay -/

variable (P : Primitives)

/-- One turn of the loop: nothing happens, or the event is applied. -/
theorem stateAfter_snoc (first : GroupEvent) (gid : Bytes) (done : List GroupEvent)
    (e : GroupEvent) :
    stateAfter P first gid (done ++ [e]) = stateAfter P first gid done ∨
      Applied (stateAfter P first gid done) e (stateAfter P first gid (done ++ [e])) := by
  have turn : stateAfter P first gid (done ++ [e]) =
      (replayStep P first gid (replay P first gid done) e).1 := by
    rw [stateAfter, replay, List.foldl_append]
    rfl
  rw [turn, replayStep]
  split
  · exact .inl rfl
  split
  · exact .inl rfl
  rcases applyEvent_cases (replay P first gid done).1 e with same | ⟨next, applied, effect⟩
  · exact .inl (by rw [same]; rfl)
  · exact .inr (by rw [applied]; exact effect)

theorem governed_genesisState (gid : Bytes) (first : GroupEvent) :
    Governed (genesisState gid first) := by
  refine ⟨.inr ⟨first.authorPubkey, OrderedDict.get?_set_self _ _ _⟩, ?_⟩
  rw [genesisState, OrderedDict.size_set_of_not_mem _ (by simp)]
  decide

theorem governed_stateAfter (first : GroupEvent) (gid : Bytes) (done : List GroupEvent) :
    Governed (stateAfter P first gid done) := by
  induction done using List.reverseRec with
  | nil => exact governed_genesisState gid first
  | append_singleton done e ih =>
    rcases stateAfter_snoc P first gid done e with same | applied
    · rw [same]
      exact ih
    · exact ⟨applied.owner_remains ih, applied.size_le ih⟩

theorem authorised_stateAfter (first : GroupEvent) (gid : Bytes) (done : List GroupEvent)
    (e : GroupEvent) :
    Authorised (stateAfter P first gid done) e (stateAfter P first gid (done ++ [e])) := by
  rcases stateAfter_snoc P first gid done e with same | applied
  · rw [same]
    exact .refl _ e
  · exact applied.authorised

/-- The genesis author is the only member the group starts with. -/
theorem members_stateAfter_nil (first : GroupEvent) (gid : Bytes) (pk : Bytes) (role : Role) :
    (stateAfter P first gid []).members.get? pk = some role ↔
      pk = first.authorPubkey ∧ role = .owner := by
  have members : (stateAfter P first gid []).members =
      OrderedDict.empty.set first.authorPubkey .owner := rfl
  rw [members, OrderedDict.get?_set]
  split
  · rename_i same
    simp [same, eq_comm]
  · rename_i other
    simp [Ne.symm other]

theorem mem_of_firstCreate? {sorted : List GroupEvent} {first : GroupEvent}
    (found : firstCreate? sorted = some first) : first ∈ sorted ∧ first.kind = "create" := by
  have := List.mem_of_mem_head? found
  simpa using this

/-- What `reduce_events` returns on a log it accepts. -/
theorem reduceEvents_of_valid (skip : Bool) {events : List GroupEvent}
    (valid : ∀ e ∈ events, e.Verifies P) (one : OneGroup events) :
    (firstCreate? (sortedEvents P events) = none → reduceEvents P skip events = .ok none) ∧
    ∀ first, firstCreate? (sortedEvents P events) = some first →
      reduceEvents P skip events = .ok (some
        { stateAfter P first first.groupId (sortedEvents P events) with
          stateHash := P.blake3 (replay P first first.groupId (sortedEvents P events)).2 }) := by
  have ok : Admissible P skip (sortedEvents P events) := by
    refine ⟨fun e he e' he' => ?_, .inr fun e he => valid e (mem_of_mem_sortedEvents P he)⟩
    exact one e (mem_of_mem_sortedEvents P he) e' (mem_of_mem_sortedEvents P he')
  rw [reduceEvents]
  generalize sortedEvents P events = sorted at ok
  cases sorted with
  | nil => exact ⟨fun _ => rfl, fun first found => by simp [firstCreate?] at found⟩
  | cons e₀ rest =>
    rw [reduceSorted_of_admissible P ok]
    refine ⟨fun none => by rw [settle, none], fun first found => ?_⟩
    have gid : e₀.groupId = first.groupId :=
      ok.1 e₀ (by simp) first (mem_of_firstCreate? found).1
    rw [settle, found, gid]
    rfl

/-- **Group authority, at every point of every replay.** -/
theorem reduceEvents_authority (skip : Bool) (events : List GroupEvent)
    (valid : ∀ e ∈ events, e.Verifies P) (one : OneGroup events) :
    (firstCreate? (sortedEvents P events) = none → reduceEvents P skip events = .ok none) ∧
    ∀ first, firstCreate? (sortedEvents P events) = some first →
      reduceEvents P skip events = .ok (some
        { stateAfter P first first.groupId (sortedEvents P events) with
          stateHash := P.blake3 (replay P first first.groupId (sortedEvents P events)).2 }) ∧
      (∀ pk role, (stateAfter P first first.groupId []).members.get? pk = some role ↔
        pk = first.authorPubkey ∧ role = .owner) ∧
      (∀ done, done <+: sortedEvents P events →
        Governed (stateAfter P first first.groupId done)) ∧
      (∀ done e, done ++ [e] <+: sortedEvents P events →
        Authorised (stateAfter P first first.groupId done) e
          (stateAfter P first first.groupId (done ++ [e]))) := by
  obtain ⟨noGenesis, genesis⟩ := reduceEvents_of_valid P skip valid one
  refine ⟨noGenesis, fun first found => ⟨genesis first found, ?_, ?_, ?_⟩⟩
  · exact members_stateAfter_nil P first first.groupId
  · intro done _
    exact governed_stateAfter P first first.groupId done
  · intro done e _
    exact authorised_stateAfter P first first.groupId done e

/-- A group of one: its founder. -/
theorem reduceEvents_authority_founder :
    (∀ e ∈ [createEvent 1 5 toySignature], e.Verifies toyPrimitives) ∧
      OneGroup [createEvent 1 5 toySignature] ∧
      Governed (stateAfter toyPrimitives (createEvent 1 5 toySignature) (List.replicate 16 7)
        [createEvent 1 5 toySignature]) := by
  have valid : ∀ e ∈ [createEvent 1 5 toySignature], e.Verifies toyPrimitives := by
    intro e he
    rw [List.mem_singleton.mp he]
    exact createEvent_verifies 1 (by decide)
  have one : OneGroup [createEvent 1 5 toySignature] := by
    intro e he e' he'
    rw [List.mem_singleton.mp he, List.mem_singleton.mp he']
  obtain ⟨-, -, governed, -⟩ :=
    (reduceEvents_authority toyPrimitives false _ valid one).2 (createEvent 1 5 toySignature) rfl
  exact ⟨valid, one, governed _ (List.prefix_refl _)⟩

end OneLink.Groups
