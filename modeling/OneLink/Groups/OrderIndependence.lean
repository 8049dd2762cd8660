/-
# Groups.OrderIndependence — replay as a function of the event set

`reduce_events` takes its events "in any order".  Sorting makes the replay a
function of the set of bodies (`sortedEvents_unsigned_eq`), but `deduped` keeps
the *last* copy of a body, and only that copy's signature is checked.  A body
that arrives once with a good signature and once with a bad one is accepted or
refused by arrival order (`copies_diverge`).

`reduceEvents_orderIndependent_iff` says exactly which inputs are free of this.
-/
import OneLink.Groups.Reduce

namespace OneLink.Groups

open Library

set_option autoImplicit false

/-- Both return the same value, or both raise. -/
def SameOutcome (x y : Except GroupError (Option GroupState)) : Prop :=
  (∃ state, x = .ok state ∧ y = .ok state) ∨ (∃ err err', x = .error err ∧ y = .error err')

/-- The two lists hold the same events; order and repetition may differ. -/
def SameEvents (l l' : List GroupEvent) : Prop := ∀ e, e ∈ l ↔ e ∈ l'

theorem SameOutcome.symm {x y : Except GroupError (Option GroupState)} (same : SameOutcome x y) :
    SameOutcome y x := by
  rcases same with ⟨state, hx, hy⟩ | ⟨err, err', hx, hy⟩
  · exact .inl ⟨state, hy, hx⟩
  · exact .inr ⟨err', err, hy, hx⟩

theorem SameOutcome.trans {x y z : Except GroupError (Option GroupState)}
    (first : SameOutcome x y) (second : SameOutcome y z) : SameOutcome x z := by
  rcases first with ⟨state, hx, hy⟩ | ⟨err, err', hx, hy⟩
  · rcases second with ⟨state', hy', hz⟩ | ⟨err, err', hy', hz⟩
    · rw [hy, Except.ok.injEq] at hy'
      exact .inl ⟨state, hx, by rw [hz, hy']⟩
    · rw [hy] at hy'
      simp at hy'
  · rcases second with ⟨state', hy', hz⟩ | ⟨err₂, err₂', hy', hz⟩
    · rw [hy] at hy'
      simp at hy'
    · exact .inr ⟨err, err₂', hx, hz⟩

theorem not_sameOutcome_of_ok_error {x y : Except GroupError (Option GroupState)}
    {state : Option GroupState} {err : GroupError} (returned : x = .ok state)
    (raised : y = .error err) : ¬ SameOutcome x y := by
  rintro (⟨_, _, returned'⟩ | ⟨_, _, raised', _⟩)
  · rw [raised] at returned'
    simp at returned'
  · rw [returned] at raised'
    simp at raised'

variable (P : Primitives)

/-! ## What the checks and the replay depend on -/

theorem oneGroup_unsigned (l : List GroupEvent) :
    OneGroup (l.map GroupEvent.unsigned) ↔ OneGroup l := by
  simp only [OneGroup, List.forall_mem_map]
  rfl

/-- The group-id check sees every event of the input. -/
theorem oneGroup_sortedEvents {events : List GroupEvent} (free : CollisionFree P events) :
    OneGroup (sortedEvents P events) ↔ OneGroup events := by
  have bodies := fun b => mem_sortedBodies P free (b := b)
  rw [← oneGroup_unsigned, ← oneGroup_unsigned events]
  simp only [OneGroup, bodies]

/-- Equal bodies and equal verdicts of the checks give equal outcomes. -/
theorem reduceSorted_sameOutcome {skip : Bool} {s s' : List GroupEvent}
    (bodies : s.map GroupEvent.unsigned = s'.map GroupEvent.unsigned)
    (checks : Admissible P skip s ↔ Admissible P skip s') :
    SameOutcome (reduceSorted P skip s) (reduceSorted P skip s') := by
  by_cases ok : Admissible P skip s
  · have ok' := checks.mp ok
    cases s with
    | nil =>
      obtain rfl : s' = [] := by simpa using bodies.symm
      exact .inl ⟨none, rfl, rfl⟩
    | cons e rest =>
      cases s' with
      | nil => simp at bodies
      | cons e' rest' =>
        have gids : e.groupId = e'.groupId :=
          (congrArg GroupEvent.groupId (List.cons.inj bodies).1 :
            e.unsigned.groupId = e'.unsigned.groupId)
        refine .inl ⟨_, reduceSorted_of_admissible P ok, ?_⟩
        rw [reduceSorted_of_admissible P ok', gids, ← settle_unsigned, ← bodies,
          settle_unsigned]
  · obtain ⟨err, raised⟩ := reduceSorted_of_not_admissible P ok
    obtain ⟨err', raised'⟩ := reduceSorted_of_not_admissible P (mt checks.mpr ok)
    exact .inr ⟨err, err', raised, raised'⟩

/-- An admissible log returns. -/
theorem reduceSorted_returns {skip : Bool} {sorted : List GroupEvent}
    (ok : Admissible P skip sorted) : ∃ state, reduceSorted P skip sorted = .ok state := by
  cases sorted with
  | nil => exact ⟨none, rfl⟩
  | cons e rest => exact ⟨_, reduceSorted_of_admissible P ok⟩

/-! ## Which copy of a body is checked -/

/-- Once an id occurs in the later part of the input, its kept copy is from there. -/
theorem mem_right_of_deduped {l m : List GroupEvent} {e e' : GroupEvent}
    (kept : (deduped P (l ++ m)).get? (e'.eventId P) = some e) (late : e' ∈ m) : e ∈ m := by
  induction m using List.reverseRec with
  | nil => simp at late
  | append_singleton m last ih =>
    rw [← List.append_assoc, deduped_snoc, OrderedDict.get?_set] at kept
    split at kept
    · cases kept
      simp
    · rename_i other
      rcases List.mem_append.mp late with early | isLast
      · exact List.mem_append_left _ (ih kept early)
      · rw [List.mem_singleton] at isLast
        exact absurd (by rw [isLast]) other

theorem last_mem_sortedEvents (l : List GroupEvent) (e : GroupEvent) :
    e ∈ sortedEvents P (l ++ [e]) := by
  rw [mem_sortedEvents, deduped_snoc, OrderedDict.get?_set_self]

/-- With the verifying copies of every body repeated at the end, each kept copy
verifies. -/
theorem verifies_of_mem_sortedEvents {events : List GroupEvent}
    (someCopy : ∀ e ∈ events, ∃ e' ∈ events, e'.unsigned = e.unsigned ∧ e'.Verifies P)
    {e : GroupEvent} (member : e ∈ sortedEvents P (events ++ events.filter (·.Verifies P))) :
    e.Verifies P := by
  have input : e ∈ events := by
    have := mem_of_mem_sortedEvents P member
    simp only [List.mem_append, List.mem_filter] at this
    exact this.elim id And.left
  obtain ⟨e', he', body, verified⟩ := someCopy e input
  rw [mem_sortedEvents, ← GroupEvent.eventId_eq_of_unsigned P body] at member
  have late := mem_right_of_deduped P member (List.mem_filter.mpr ⟨he', by simpa using verified⟩)
  simpa using (List.mem_filter.mp late).2

/-! ## Exactly when order does not matter -/

/-- No arrival order decides which signature is checked: signatures are not
checked at all, or the log is refused whatever copy is kept, or every copy
verifies. -/
def OrderSafe (skipSignatureVerify : Bool) (events : List GroupEvent) : Prop :=
  skipSignatureVerify = true ∨ ¬ OneGroup events ∨
    (∃ e ∈ events, ∀ e' ∈ events, e'.unsigned = e.unsigned → ¬ e'.Verifies P) ∨
    ∀ e ∈ events, e.Verifies P

theorem OrderSafe.congr {skip : Bool} {l l' : List GroupEvent} (same : SameEvents l l') :
    OrderSafe P skip l ↔ OrderSafe P skip l' := by
  unfold OrderSafe OneGroup
  simp only [same _]

/-- On a safe input the checks judge the events, not the kept copies. -/
theorem admissible_of_orderSafe {skip : Bool} {events : List GroupEvent}
    (free : CollisionFree P events) (safe : OrderSafe P skip events) :
    Admissible P skip (sortedEvents P events) ↔
      OneGroup events ∧ (skip = true ∨ ∀ e ∈ events, e.Verifies P) := by
  rw [Admissible, oneGroup_sortedEvents P free]
  refine and_congr_right fun one => ?_
  rcases safe with skipped | mixed | ⟨e, he, noCopy⟩ | all
  · simp [skipped]
  · exact absurd one mixed
  · refine or_congr_right ⟨fun verified => ?_, fun verified => ?_⟩
    · obtain ⟨e', he', sameId⟩ := exists_mem_sortedEvents P he
      have input := mem_of_mem_sortedEvents P he'
      exact absurd (verified e' he') (noCopy e' input (unsigned_eq_of_eventId free input he sameId))
    · exact absurd (verified e he) (noCopy e he rfl)
  · have kept : ∀ e ∈ sortedEvents P events, e.Verifies P :=
      fun e he => all e (mem_of_mem_sortedEvents P he)
    exact or_congr_right ⟨fun _ => all, fun _ => kept⟩

theorem sameOutcome_of_orderSafe {skip : Bool} {events other : List GroupEvent}
    (free : CollisionFree P events) (safe : OrderSafe P skip events)
    (same : SameEvents other events) :
    SameOutcome (reduceEvents P skip events) (reduceEvents P skip other) := by
  have freeOther : CollisionFree P other := free.subset fun e he => (same e).mp he
  have safeOther : OrderSafe P skip other := (OrderSafe.congr P same).mpr safe
  apply reduceSorted_sameOutcome
  · apply sortedEvents_unsigned_eq P (free.subset ?_)
    · intro b
      simp only [List.mem_map, same _]
    · intro e he
      exact (List.mem_append.mp he).elim id (same e).mp
  · rw [admissible_of_orderSafe P free safe, admissible_of_orderSafe P freeOther safeOther]
    simp only [OneGroup, same _]

/-- Some body has a good and a bad copy, and every body a good one: the good
copies last is accepted, a bad copy last is refused. -/
theorem orders_diverge {events : List GroupEvent} (free : CollisionFree P events)
    (one : OneGroup events)
    (someCopy : ∀ e ∈ events, ∃ e' ∈ events, e'.unsigned = e.unsigned ∧ e'.Verifies P)
    {bad : GroupEvent} (refused : ¬ bad.Verifies P) :
    ¬ SameOutcome (reduceEvents P false (events ++ events.filter (·.Verifies P)))
      (reduceEvents P false (events ++ [bad])) := by
  have goodLast : Admissible P false
      (sortedEvents P (events ++ events.filter (·.Verifies P))) := by
    refine ⟨(oneGroup_sortedEvents P (free.subset ?_)).mpr ?_, .inr fun e he =>
      verifies_of_mem_sortedEvents P someCopy he⟩
    · simp only [List.mem_append, List.mem_filter]
      exact fun e he => he.elim id And.left
    · intro e he e' he'
      simp only [List.mem_append, List.mem_filter] at he he'
      exact one e (he.elim id And.left) e' (he'.elim id And.left)
  have badLast : ¬ Admissible P false (sortedEvents P (events ++ [bad])) := by
    rintro ⟨-, skipped | verified⟩
    · simp at skipped
    · exact refused (verified bad (last_mem_sortedEvents P events bad))
  obtain ⟨state, returned⟩ := reduceSorted_returns P goodLast
  obtain ⟨err, raised⟩ := reduceSorted_of_not_admissible P badLast
  exact not_sameOutcome_of_ok_error returned raised

/-- **Replay is order independent exactly on the safe inputs.** -/
theorem reduceEvents_orderIndependent_iff (skip : Bool) (events : List GroupEvent)
    (free : CollisionFree P events) :
    (∀ other, SameEvents other events →
      SameOutcome (reduceEvents P skip events) (reduceEvents P skip other)) ↔
      OrderSafe P skip events := by
  constructor
  · intro independent
    by_contra notSafe
    simp only [OrderSafe, not_or, not_not, not_exists, not_and, not_forall] at notSafe
    obtain ⟨checked, one, someCopy, bad, member, refused⟩ := notSafe
    obtain rfl : skip = false := by simpa using checked
    refine orders_diverge P free one ?_ refused
      ((independent _ ?_).symm.trans (independent _ ?_))
    · intro e he
      obtain ⟨e', he', body, verified⟩ := someCopy e he
      exact ⟨e', he', body, verified⟩
    · intro e
      simp only [List.mem_append, List.mem_filter]
      exact ⟨fun he => he.elim id And.left, .inl⟩
    · intro e
      simp only [List.mem_append, List.mem_singleton]
      exact ⟨fun he => he.elim id (· ▸ member), .inl⟩
  · intro safe other same
    exact sameOutcome_of_orderSafe P free safe same

/-! ## Poles -/

def goodCopy : GroupEvent := createEvent 1 5 toySignature

def badCopy : GroupEvent := createEvent 1 5 (List.replicate 64 0)

theorem goodCopy_verifies : goodCopy.Verifies toyPrimitives :=
  createEvent_verifies 1 (by decide)

/-- The good copy last is accepted, the bad copy last is refused. -/
theorem copies_diverge :
    SameEvents [badCopy, goodCopy] [goodCopy, badCopy] ∧
      ¬ SameOutcome (reduceEvents toyPrimitives false [badCopy, goodCopy])
        (reduceEvents toyPrimitives false [goodCopy, badCopy]) := by
  refine ⟨fun e => by simp [or_comm], ?_⟩
  have outcomes : (reduceEvents toyPrimitives false [badCopy, goodCopy]).isOk = true ∧
      (reduceEvents toyPrimitives false [goodCopy, badCopy]).isOk = false := by
    decide +kernel
  rintro (⟨state, -, returned⟩ | ⟨err, _, raised, -⟩)
  · rw [returned] at outcomes
    cases outcomes.2
  · rw [raised] at outcomes
    cases outcomes.1

/-- Two good copies of one event are safe in either order. -/
theorem reduceEvents_orderIndependent_goodCopy :
    CollisionFree toyPrimitives [goodCopy] ∧
      ∀ other, SameEvents other [goodCopy] →
        SameOutcome (reduceEvents toyPrimitives false [goodCopy])
          (reduceEvents toyPrimitives false other) := by
  refine ⟨toyPrimitives_collisionFree _, ?_⟩
  refine (reduceEvents_orderIndependent_iff toyPrimitives false [goodCopy]
    (toyPrimitives_collisionFree _)).mpr (.inr (.inr (.inr ?_)))
  intro e he
  rw [List.mem_singleton.mp he]
  exact goodCopy_verifies

end OneLink.Groups
