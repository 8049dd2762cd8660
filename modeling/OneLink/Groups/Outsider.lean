/-
# Groups.Outsider — events from keys that never were members

An event whose author is never a member is replayed into nothing
(`replayStep_outsider`), wherever its timestamp sorts it.  Genesis selection is
the exception: the earliest `create` of the log founds the group, so a backdated
`create` by anyone replaces the founder (`backdated_create_replaces_founder`).
`reduceEvents_outsider` is the statement that is left: any outsider event that
does not become the genesis changes nothing.
-/
import OneLink.Groups.OrderIndependence
import OneLink.Groups.Authority

namespace OneLink.Groups

open Library

set_option autoImplicit false

variable (P : Primitives)

/-- `pk` is not a member at any point of the replay of `events`. -/
def NeverMember (events : List GroupEvent) (pk : Bytes) : Prop :=
  ∀ first, firstCreate? (sortedEvents P events) = some first →
    ∀ done, done <+: sortedEvents P events →
      (stateAfter P first first.groupId done).members.get? pk = none

/-! ## The replay skips the event -/

theorem replayStep_outsider {first : GroupEvent} {gid : Bytes} {acc : GroupState × Bytes}
    {e : GroupEvent} (outsider : acc.1.members.get? e.authorPubkey = none) :
    replayStep P first gid acc e = acc := by
  have ignored : applyEvent acc.1 e = (acc.1, false) := by
    rw [applyEvent, outsider]
  unfold replayStep
  split
  · rfl
  split
  · rfl
  rw [ignored]
  rfl

theorem replay_insert {first : GroupEvent} {gid : Bytes} {pre : List GroupEvent} {e : GroupEvent}
    (post : List GroupEvent)
    (outsider : (stateAfter P first gid pre).members.get? e.authorPubkey = none) :
    replay P first gid (pre ++ e :: post) = replay P first gid (pre ++ post) := by
  simp only [replay, List.foldl_append, List.foldl_cons]
  rw [replayStep_outsider P (by exact outsider)]

theorem firstCreate?_insert {pre post : List GroupEvent} {e : GroupEvent}
    (late : e.kind ≠ "create" ∨ ∃ c ∈ pre, c.kind = "create") :
    firstCreate? (pre ++ e :: post) = firstCreate? (pre ++ post) := by
  unfold firstCreate?
  rcases late with other | ⟨c, member, create⟩
  · simp [List.filter_append, other]
  · have found : (pre.filter fun e => e.kind = "create") ≠ [] :=
      List.ne_nil_of_mem (List.mem_filter.mpr ⟨member, by simpa using create⟩)
    simp only [List.filter_append, List.head?_append_of_ne_nil _ found]

/-! ## The sorted log with one more event -/

/-- One new body is spliced into the sorted bodies. -/
theorem sortedBodies_cons {S : List GroupEvent} {e : GroupEvent}
    (free : CollisionFree P (e :: S)) (fresh : e.unsigned ∉ S.map GroupEvent.unsigned) :
    ∃ pre post, (sortedEvents P (e :: S)).map GroupEvent.unsigned = pre ++ e.unsigned :: post ∧
      (sortedEvents P S).map GroupEvent.unsigned = pre ++ post := by
  have freeS : CollisionFree P S := free.subset (by simp +contextual)
  have mem : ∀ b, b ∈ (sortedEvents P (e :: S)).map GroupEvent.unsigned ↔
      b = e.unsigned ∨ b ∈ (sortedEvents P S).map GroupEvent.unsigned := by
    intro b
    rw [mem_sortedBodies P free, mem_sortedBodies P freeS, List.map_cons, List.mem_cons]
  obtain ⟨pre, post, split⟩ := List.append_of_mem ((mem e.unsigned).mpr (.inl rfl))
  refine ⟨pre, post, split, ?_⟩
  have nodup := nodup_sortedBodies P (e :: S)
  have sorted := pairwise_sortedBodies P (e :: S)
  rw [split] at nodup sorted
  have drop : (pre ++ post).Sublist (pre ++ e.unsigned :: post) :=
    List.Sublist.append_left (List.sublist_cons_self _ _) pre
  have absent : e.unsigned ∉ pre ++ post := (List.nodup_middle.mp nodup).notMem
  apply sortedBodies_ext P (nodup_sortedBodies P S) (nodup.sublist drop)
    (pairwise_sortedBodies P S) (sorted.sublist drop)
  · intro a ha b hb key
    have inputA := (mem_sortedBodies P freeS).mp ha
    have inputB : b ∈ (e :: S).map GroupEvent.unsigned := by
      rw [← mem_sortedBodies P free, split]
      exact drop.subset hb
    simp only [List.mem_map] at inputA inputB
    obtain ⟨x, hx, rfl⟩ := inputA
    obtain ⟨y, hy, rfl⟩ := inputB
    exact unsigned_eq_of_eventId free (by simp [hx]) hy (eventId_eq_of_sortKey P key)
  · intro b
    have both := mem b
    rw [split] at both
    simp only [List.mem_append, List.mem_cons] at both ⊢
    constructor
    · intro old
      rcases both.mpr (.inr old) with before | rfl | after
      · exact .inl before
      · exact absurd ((mem_sortedBodies P freeS).mp old) fresh
      · exact .inr after
    · intro kept
      rcases both.mp (kept.imp_right .inr) with rfl | old
      · exact absurd (List.mem_append.mpr kept) absent
      · exact old

/-- A body that sorts before the new one stands before it. -/
theorem mem_pre_of_sortKey_lt {pre post : List GroupEvent} {b c : GroupEvent}
    (sorted : (pre ++ b :: post).Pairwise fun a b => sortKey P a ≤ sortKey P b)
    (member : c ∈ pre ++ b :: post) (before : sortKey P c < sortKey P b) : c ∈ pre := by
  rcases List.mem_append.mp member with early | late
  · exact early
  · rcases List.mem_cons.mp late with rfl | after
    · exact absurd before (lt_irrefl _)
    · have tail := (List.pairwise_append.mp sorted).2.1
      exact absurd before (not_lt.mpr ((List.pairwise_cons.mp tail).1 c after))

/-! ## The two replays -/

theorem settle_outsider {S : List GroupEvent} {e : GroupEvent}
    (free : CollisionFree P (e :: S)) (one : OneGroup (e :: S))
    (outsider : NeverMember P S e.authorPubkey)
    (late : e.kind ≠ "create" ∨
      ∃ c ∈ S, c.kind = "create" ∧ sortKey P c < sortKey P e) :
    settle P e.groupId (sortedEvents P (e :: S)) = settle P e.groupId (sortedEvents P S) := by
  rw [← settle_unsigned, ← settle_unsigned P _ (sortedEvents P S)]
  by_cases known : e.unsigned ∈ S.map GroupEvent.unsigned
  · rw [sortedEvents_unsigned_eq P (free.subset ?_)]
    · intro b
      rw [List.map_cons, List.mem_cons]
      exact ⟨fun member => member.elim (· ▸ known) id, .inr⟩
    · simp only [List.mem_append, List.mem_cons]
      exact fun a member => member.elim id .inr
  obtain ⟨pre, post, spliced, old⟩ := sortedBodies_cons P free known
  have freeS : CollisionFree P S := free.subset (by simp +contextual)
  have sameFirst : firstCreate? (pre ++ e.unsigned :: post) = firstCreate? (pre ++ post) := by
    apply firstCreate?_insert
    refine late.imp id fun ⟨c, member, create, before⟩ => ⟨c.unsigned, ?_, create⟩
    apply mem_pre_of_sortKey_lt P (spliced ▸ pairwise_sortedBodies P (e :: S)) _
      (by simpa using before)
    rw [← spliced, mem_sortedBodies P free]
    exact List.mem_map_of_mem (List.mem_cons_of_mem _ member)
  rw [spliced, old, settle, settle, sameFirst, ← old, firstCreate?_unsigned]
  cases found : firstCreate? (sortedEvents P S) with
  | none => rfl
  | some first =>
    obtain ⟨done, rest, sorted, rfl, -⟩ := List.map_eq_append_iff.mp old
    have gid : first.groupId = e.groupId := by
      have input := mem_of_mem_sortedEvents P (mem_of_firstCreate? found).1
      exact one first (by simp [input]) e (by simp)
    have absent := outsider first found done (sorted ▸ List.prefix_append done rest)
    rw [gid] at absent
    have skipped : replay P first.unsigned e.groupId
        (done.map GroupEvent.unsigned ++ e.unsigned :: post) =
        replay P first.unsigned e.groupId (done.map GroupEvent.unsigned ++ post) := by
      apply replay_insert
      rw [stateAfter, replay_unsigned]
      exact absent
    simp only [Option.map_some, skipped, old]

theorem reduceEvents_eq_settle (skip : Bool) {events : List GroupEvent} {gid : Bytes}
    (valid : ∀ e ∈ events, e.Verifies P) (group : ∀ e ∈ events, e.groupId = gid) :
    reduceEvents P skip events = .ok (settle P gid (sortedEvents P events)) := by
  have input : ∀ e ∈ sortedEvents P events, e ∈ events :=
    fun e he => mem_of_mem_sortedEvents P he
  have ok : Admissible P skip (sortedEvents P events) := by
    refine ⟨fun e he e' he' => ?_, .inr fun e he => valid e (input e he)⟩
    rw [group e (input e he), group e' (input e' he')]
  rw [reduceEvents]
  generalize sortedEvents P events = sorted at ok input
  cases sorted with
  | nil => rfl
  | cons e₀ rest => rw [reduceSorted_of_admissible P ok, group e₀ (input e₀ (by simp))]

/-- **An outsider's event changes nothing unless it becomes the genesis.**  The
extended log may be listed in any order and with any repetition. -/
theorem reduceEvents_outsider (skip : Bool) (S : List GroupEvent) (e : GroupEvent)
    (valid : ∀ x ∈ e :: S, x.Verifies P) (one : OneGroup (e :: S))
    (free : CollisionFree P (e :: S))
    (outsider : NeverMember P S e.authorPubkey)
    (late : e.kind ≠ "create" ∨
      ∃ c ∈ S, c.kind = "create" ∧ sortKey P c < sortKey P e) :
    ∀ l, SameEvents l (e :: S) → reduceEvents P skip l = reduceEvents P skip S := by
  intro l same
  have group : ∀ x ∈ e :: S, x.groupId = e.groupId := fun x hx => one x hx e (by simp)
  have known : ∀ x ∈ S, x ∈ e :: S := fun x hx => List.mem_cons_of_mem _ hx
  have bodies : (sortedEvents P l).map GroupEvent.unsigned =
      (sortedEvents P (e :: S)).map GroupEvent.unsigned := by
    apply sortedEvents_unsigned_eq P (free.subset ?_)
    · intro b
      simp only [List.mem_map, same _]
    · intro x hx
      exact (List.mem_append.mp hx).elim (same x).mp id
  rw [reduceEvents_eq_settle P skip (fun x hx => valid x ((same x).mp hx))
      (fun x hx => group x ((same x).mp hx)),
    reduceEvents_eq_settle P skip (fun x hx => valid x (known x hx))
      (fun x hx => group x (known x hx)),
    ← settle_unsigned, bodies, settle_unsigned, settle_outsider P free one outsider late]

/-! ## Poles -/

def founder : GroupEvent := createEvent 1 5 toySignature

/-- A `create` by another key, dated before the founding. -/
def usurper : GroupEvent := createEvent 2 3 toySignature

/-- A `create` by another key, dated after the founding. -/
def latecomer : GroupEvent := createEvent 2 8 toySignature

theorem sortKey_createEvent_lt {author author' : UInt8} {t t' : Int} (earlier : t < t') :
    sortKey toyPrimitives (createEvent author t toySignature) <
      sortKey toyPrimitives (createEvent author' t' toySignature) := by
  rw [sortKey, sortKey, Prod.Lex.toLex_lt_toLex]
  exact .inl earlier

theorem verifies_of_mem_creates {t : Int} (range : 0 ≤ t ∧ t ≤ maxEventTimestampMs) :
    ∀ x ∈ [createEvent 2 t toySignature, founder], x.Verifies toyPrimitives := by
  intro x hx
  rcases List.mem_pair.mp hx with rfl | rfl
  · exact createEvent_verifies 2 range
  · exact createEvent_verifies 1 (by decide)

theorem oneGroup_creates (t : Int) : OneGroup [createEvent 2 t toySignature, founder] := by
  intro x hx y hy
  rcases List.mem_pair.mp hx with rfl | rfl <;> rcases List.mem_pair.mp hy with rfl | rfl <;> rfl

theorem neverMember_founder : NeverMember toyPrimitives [founder] (List.replicate 32 2) := by
  intro first found done isPrefix
  obtain rfl : founder = first := Option.some.inj found
  have sorted : sortedEvents toyPrimitives [founder] = [founder] := rfl
  rw [sorted] at isPrefix
  have points : stateAfter toyPrimitives founder founder.groupId done =
      genesisState founder.groupId founder := by
    rcases List.prefix_cons_iff.mp isPrefix with rfl | ⟨rest, rfl, empty⟩
    · rfl
    · rw [List.prefix_nil.mp empty]
      simp [stateAfter, replay, replayStep]
  rw [points]
  decide

/-- A backdated `create` by a key that never was a member founds the group anew. -/
theorem backdated_create_replaces_founder :
    (∀ x ∈ [usurper, founder], x.Verifies toyPrimitives) ∧ OneGroup [usurper, founder] ∧
      CollisionFree toyPrimitives [usurper, founder] ∧
      NeverMember toyPrimitives [founder] usurper.authorPubkey ∧
      reduceEvents toyPrimitives false [founder, usurper] ≠
        reduceEvents toyPrimitives false [founder] := by
  have valid : ∀ x ∈ [usurper, founder], x.Verifies toyPrimitives :=
    verifies_of_mem_creates (by decide)
  have one : OneGroup [usurper, founder] := oneGroup_creates 3
  refine ⟨valid, one, toyPrimitives_collisionFree _, neverMember_founder, ?_⟩
  intro same
  have created := congrArg (fun r => r.toOption.join.map GroupState.createdMs) same
  revert created
  decide +kernel

/-- A `create` dated after the founding changes nothing. -/
theorem reduceEvents_outsider_latecomer :
    (∀ x ∈ [latecomer, founder], x.Verifies toyPrimitives) ∧ OneGroup [latecomer, founder] ∧
      NeverMember toyPrimitives [founder] latecomer.authorPubkey ∧
      reduceEvents toyPrimitives false [founder, latecomer] =
        reduceEvents toyPrimitives false [founder] := by
  have valid := verifies_of_mem_creates (t := 8) (by decide)
  have one := oneGroup_creates 8
  refine ⟨valid, one, neverMember_founder, ?_⟩
  exact reduceEvents_outsider toyPrimitives false [founder] latecomer valid one
    (toyPrimitives_collisionFree _) neverMember_founder
    (.inr ⟨founder, by simp, rfl, sortKey_createEvent_lt (by decide)⟩) [founder, latecomer]
    (fun x => by simp [or_comm])

end OneLink.Groups
