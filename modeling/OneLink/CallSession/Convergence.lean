/-
# CallSession.Convergence -- replicas that saw the same updates are equal

Replicas of one call update their own session, each under writers of its own,
and merge with one another.  At every slot, no register carries a stamp that its
writer's replica has not reached (`SlotInv`), so equal stamps mean one write.
Each session joins the results of the updates its replica has seen; two joins of
the same results absorb each other, and registers that agree commute.
-/
import OneLink.CallSession.Updates
import OneLink.Library.Run

namespace OneLink.CallSessions

set_option autoImplicit false

open Library

variable {R : Type} [DecidableEq R]

/-! ## Replicas -/

/-- An update that was made, with the session it led to. -/
structure Entry where
  update : Update
  result : CallSession

/-- The replicas, the updates made so far, and the updates that each replica has seen. -/
structure World (R : Type) where
  sessions : R → CallSession
  log : List Entry
  seen : R → Finset Nat

/-- A new call on every replica. -/
def World.initial (identity : Identity) : World R :=
  ⟨fun _ => { toIdentity := identity }, [], fun _ => ∅⟩

/-- A replica that never updates can stand for a message in flight. -/
inductive Action (R : Type) where
  | update (replica : R) (u : Update)
  | merge (replica source : R)
deriving DecidableEq

def step (w : World R) : Action R → World R
  | .update replica u =>
    let result := u.apply (w.sessions replica)
    ⟨Function.update w.sessions replica result, w.log ++ [⟨u, result⟩],
      Function.update w.seen replica (insert w.log.length (w.seen replica))⟩
  | .merge replica source =>
    match (w.sessions replica).merge (w.sessions source) with
    | .error _ => w
    | .ok merged =>
      ⟨Function.update w.sessions replica merged, w.log,
        Function.update w.seen replica (w.seen replica ∪ w.seen source)⟩

/-- Each writer is used by one replica. -/
def OwnWriter (owner : String → R) (_ : World R) : Action R → Prop
  | .update replica u => ∀ writerId, u.writer = some writerId → owner writerId = replica
  | .merge _ _ => True

/-! ## One register on all replicas -/

structure SlotInv {T : Type} (owner : String → R) (registers : R → LWWRegister T) : Prop where
  floored : ∀ r, Floored (registers r)
  agree : ∀ r r', Agree (registers r) (registers r')
  owned : ∀ r, (registers r).stamp ≤ (registers (owner (registers r).writerId)).stamp

namespace SlotInv

variable {T : Type} {owner : String → R} {registers : R → LWWRegister T}

omit [DecidableEq R] in
theorem unset (owner : String → R) :
    SlotInv owner (fun _ => (LWWRegister.unset : LWWRegister T)) where
  floored _ := .inl rfl
  agree _ _ _ := rfl
  owned _ := le_rfl

/-- What has been reached stays reached when one register grows. -/
theorem le_update {replica : R} {after : LWWRegister T} (grows : (registers replica).stamp ≤ after.stamp)
    (r : R) : (registers r).stamp ≤ (Function.update registers replica after r).stamp := by
  by_cases here : r = replica
  · subst here
    rwa [Function.update_self]
  · rw [Function.update_of_ne here]

/-- A replica takes over a register of another one. -/
theorem adopt (inv : SlotInv owner registers) {replica source : R}
    (grows : (registers replica).stamp ≤ (registers source).stamp) :
    SlotInv owner (Function.update registers replica (registers source)) := by
  have held : ∀ r, ∃ r', Function.update registers replica (registers source) r = registers r' := by
    intro r
    by_cases here : r = replica
    · exact ⟨source, by rw [here, Function.update_self]⟩
    · exact ⟨r, Function.update_of_ne here _ _⟩
  refine ⟨fun r => ?_, fun r r' => ?_, fun r => ?_⟩
  · obtain ⟨q, same⟩ := held r
    rw [same]
    exact inv.floored q
  · obtain ⟨q, same⟩ := held r
    obtain ⟨q', same'⟩ := held r'
    rw [same, same']
    exact inv.agree q q'
  · obtain ⟨q, same⟩ := held r
    rw [same]
    exact (inv.owned q).trans (le_update grows _)

theorem merge (inv : SlotInv owner registers) (replica source : R) :
    SlotInv owner (Function.update registers replica
      ((registers replica).merge (registers source))) := by
  obtain ⟨same, -⟩ | ⟨same, below⟩ := LWWRegister.merge_cases (registers replica) (registers source)
  · rwa [same, Function.update_eq_self]
  · rw [same]
    exact inv.adopt below.le

/-- The writer's replica writes at a stamp that nobody carries yet. -/
theorem wrote (inv : SlotInv owner registers) {replica : R} {writer : Option String}
    {after : LWWRegister T} (wrote : Update.Wrote writer (registers replica) after)
    (own : ∀ writerId, writer = some writerId → owner writerId = replica) :
    SlotInv owner (Function.update registers replica after) := by
  obtain rfl | ⟨value, timestampMs, writerId, isWriter, rfl⟩ := wrote
  · rwa [Function.update_eq_self]
  rw [LWWRegister.withValue_eq]
  obtain ⟨same, -⟩ | ⟨same, below⟩ :=
    LWWRegister.merge_cases (registers replica) ⟨some value, timestampMs, writerId⟩
  · rwa [same, Function.update_eq_self]
  rw [same]
  have ownedBy := own writerId isWriter
  have fresh : ∀ r, (registers r).stamp ≠ (⟨some value, timestampMs, writerId⟩ : LWWRegister T).stamp := by
    intro r carried
    have sameWriter : (registers r).writerId = writerId := congrArg (fun s => (ofLex s).2) carried
    have reached := inv.owned r
    rw [sameWriter, ownedBy, carried] at reached
    exact absurd below (not_lt.2 reached)
  refine ⟨fun r => ?_, fun r r' => ?_, fun r => ?_⟩
  · by_cases here : r = replica
    · subst here
      rw [Function.update_self]
      obtain start | above := inv.floored r
      · exact .inr (start ▸ below)
      · exact .inr (above.trans below)
    · rw [Function.update_of_ne here]
      exact inv.floored r
  · intro carried
    by_cases here : r = replica
    · by_cases there : r' = replica
      · rw [here, there]
      · rw [here, Function.update_self, Function.update_of_ne there] at carried
        exact absurd carried.symm (fresh r')
    · by_cases there : r' = replica
      · rw [there, Function.update_self, Function.update_of_ne here] at carried
        exact absurd carried (fresh r)
      · rw [Function.update_of_ne here, Function.update_of_ne there] at carried ⊢
        exact inv.agree r r' carried
  · by_cases here : r = replica
    · subst here
      rw [Function.update_self, ownedBy, Function.update_self]
    · rw [Function.update_of_ne here]
      exact (inv.owned r).trans (le_update below.le _)

end SlotInv

/-! ## The invariant -/

/-- What a replica has seen: the new call, and the results of its updates. -/
def contributions (identity : Identity) (log : List Entry) (seen : Finset Nat) : Set CallSession :=
  insert { toIdentity := identity }
    {s | ∃ i ∈ seen, ∃ entry, log[i]? = some entry ∧ entry.result = s}

/-- Both registers of an end are unset, or hold what one call of `with_ended` wrote. -/
def EndedByOne (log : List Entry) (seen : Finset Nat) (s : CallSession) : Prop :=
  (s.endedAtMs = .unset ∧ s.endReason = .unset) ∨
  ∃ i ∈ seen, ∃ reason endedAtMs writerId result,
    log[i]? = some ⟨.withEnded reason endedAtMs writerId, result⟩ ∧
    s.endedAtMs = ⟨some endedAtMs, endedAtMs, writerId⟩ ∧
    s.endReason = ⟨some reason.toInt, endedAtMs, writerId⟩

structure Inv (identity : Identity) (owner : String → R) (w : World R) : Prop where
  sameIdentity : ∀ r, (w.sessions r).toIdentity = identity
  keyed : ∀ r, (w.sessions r).Keyed
  ints : ∀ x, SlotInv owner fun r => (w.sessions r).int x
  texts : ∀ x, SlotInv owner fun r => (w.sessions r).text x
  known : ∀ r, ∀ i ∈ w.seen r, i < w.log.length
  joined : ∀ r, Joined CallSession.join (contributions identity w.log (w.seen r)) (w.sessions r)
  ended : ∀ r, EndedByOne w.log (w.seen r) (w.sessions r)
  stamped : ∀ (i : Nat) (reason : EndReason) (endedAtMs : Int) (writerId : String)
    (result : CallSession), w.log[i]? = some ⟨.withEnded reason endedAtMs writerId, result⟩ →
    endedAtMs ≤ result.endedAtMs.timestampMs

omit [DecidableEq R] in
theorem inv_initial (identity : Identity) (owner : String → R) :
    Inv identity owner (World.initial identity) where
  sameIdentity _ := rfl
  keyed r k p present := by cases present
  ints x := by
    have registers : (fun r : R => ((World.initial identity).sessions r).int x) = fun _ => .unset := by
      funext r
      cases x <;> rfl
    rw [registers]
    exact SlotInv.unset owner
  texts x := by
    have registers : (fun r : R => ((World.initial identity).sessions r).text x) = fun _ => .unset := by
      funext r
      cases x <;> rfl
    rw [registers]
    exact SlotInv.unset owner
  known r i mem := absurd mem (Finset.notMem_empty i)
  joined r := by
    have start : contributions identity [] ∅ = {{ toIdentity := identity }} := by
      simp [contributions]
    show Joined CallSession.join (contributions identity [] ∅) { toIdentity := identity }
    rw [start]
    exact CallSession.band.joined_singleton _
  ended _ := .inl ⟨rfl, rfl⟩
  stamped i reason endedAtMs writerId result found := by cases found

/-- The registers at a slot when one session changes. -/
theorem slot_update {T : Type} (f : CallSession → LWWRegister T) (sessions : R → CallSession)
    (replica : R) (s : CallSession) : (fun r => f (Function.update sessions replica s r)) =
      Function.update (fun r => f (sessions r)) replica (f s) :=
  Function.comp_update f sessions replica s

/-- A property of all replicas when one changes. -/
theorem forall_update {p : R → CallSession → Finset Nat → Prop} {sessions : R → CallSession}
    {seen : R → Finset Nat} {replica : R} {s : CallSession} {news : Finset Nat}
    (changed : p replica s news) (others : ∀ r, p r (sessions r) (seen r)) (r : R) :
    p r (Function.update sessions replica s r) (Function.update seen replica news r) := by
  by_cases here : r = replica
  · subst here
    rwa [Function.update_self, Function.update_self]
  · rw [Function.update_of_ne here, Function.update_of_ne here]
    exact others r

theorem contributions_append {identity : Identity} {log : List Entry} {seen : Finset Nat}
    (known : ∀ i ∈ seen, i < log.length) (entry : Entry) :
    contributions identity (log ++ [entry]) seen = contributions identity log seen := by
  have same : ∀ i ∈ seen, (log ++ [entry])[i]? = log[i]? := fun i mem =>
    List.getElem?_append_left (known i mem)
  rw [contributions, contributions]
  congr 1
  ext s
  constructor
  · rintro ⟨i, mem, found⟩
    exact ⟨i, mem, by rwa [same i mem] at found⟩
  · rintro ⟨i, mem, found⟩
    exact ⟨i, mem, by rwa [same i mem]⟩

theorem contributions_insert {identity : Identity} {log : List Entry} {seen : Finset Nat}
    (known : ∀ i ∈ seen, i < log.length) (entry : Entry) :
    contributions identity (log ++ [entry]) (insert log.length seen) =
      insert entry.result (contributions identity log seen) := by
  rw [← contributions_append known entry, contributions, contributions, Set.insert_comm]
  congr 1
  ext s
  simp only [Finset.mem_insert, Set.mem_ofPred_eq, Set.mem_insert_iff]
  constructor
  · rintro ⟨i, rfl | mem, other, found, rfl⟩
    · rw [List.getElem?_concat_length, Option.some.injEq] at found
      exact .inl (by rw [found])
    · exact .inr ⟨i, mem, other, found, rfl⟩
  · rintro (rfl | ⟨i, mem, other, found, rfl⟩)
    · exact ⟨log.length, .inl rfl, entry, List.getElem?_concat_length, rfl⟩
    · exact ⟨i, .inr mem, other, found, rfl⟩

theorem contributions_union (identity : Identity) (log : List Entry) (seen seen' : Finset Nat) :
    contributions identity log (seen ∪ seen') =
      contributions identity log seen ∪ contributions identity log seen' := by
  ext s
  simp only [contributions, Set.mem_insert_iff, Set.mem_ofPred_eq, Set.mem_union, Finset.mem_union]
  constructor
  · rintro (rfl | ⟨i, mem | mem, found⟩)
    · exact .inl (.inl rfl)
    · exact .inl (.inr ⟨i, mem, found⟩)
    · exact .inr (.inr ⟨i, mem, found⟩)
  · rintro ((rfl | ⟨i, mem, found⟩) | (rfl | ⟨i, mem, found⟩))
    · exact .inl rfl
    · exact .inr ⟨i, .inl mem, found⟩
    · exact .inl rfl
    · exact .inr ⟨i, .inr mem, found⟩

/-! ## Ends -/

/-- Only `with_ended` touches the two registers of an end. -/
theorem ended_apply (s : CallSession) (u : Update) :
    ((u.apply s).endedAtMs = s.endedAtMs ∧ (u.apply s).endReason = s.endReason) ∨
    ∃ reason endedAtMs writerId, u = .withEnded reason endedAtMs writerId := by
  cases u with
  | withEnded reason endedAtMs writerId => exact .inr ⟨reason, endedAtMs, writerId, rfl⟩
  | withField field => cases field <;> exact .inl ⟨rfl, rfl⟩
  | _ => exact .inl ⟨rfl, rfl⟩

theorem EndedByOne.stamps {log : List Entry} {seen : Finset Nat} {s : CallSession}
    (ended : EndedByOne log seen s) : s.endedAtMs.stamp = s.endReason.stamp := by
  obtain ⟨unset, unset'⟩ | ⟨_, _, _, _, _, _, _, wrote, wrote'⟩ := ended
  · rw [unset, unset']
  · rw [wrote, wrote', LWWRegister.stamp, LWWRegister.stamp]

theorem EndedByOne.mono {log log' : List Entry} {seen seen' : Finset Nat} {s s' : CallSession}
    (ended : EndedByOne log seen s) (longer : ∀ i ∈ seen, i ∈ seen' ∧
      ∀ entry, log[i]? = some entry → log'[i]? = some entry)
    (sameEnd : s'.endedAtMs = s.endedAtMs) (sameReason : s'.endReason = s.endReason) :
    EndedByOne log' seen' s' := by
  rw [EndedByOne, sameEnd, sameReason]
  obtain unset | ⟨i, mem, reason, endedAtMs, writerId, result, found, wrote⟩ := ended
  · exact .inl unset
  · obtain ⟨mem', same⟩ := longer i mem
    exact .inr ⟨i, mem', reason, endedAtMs, writerId, result, same _ found, wrote⟩

/-- One comparison decides both registers. -/
theorem EndedByOne.join {log : List Entry} {seen seen' : Finset Nat} {a b : CallSession}
    (left : EndedByOne log seen a) (right : EndedByOne log seen' b) :
    EndedByOne log (seen ∪ seen') (a.join b) := by
  obtain ⟨ended, above⟩ | ⟨ended, below⟩ := LWWRegister.merge_cases a.endedAtMs b.endedAtMs
  · rw [left.stamps, right.stamps] at above
    refine left.mono (fun i mem => ⟨Finset.mem_union_left _ mem, fun _ found => found⟩) ended ?_
    exact LWWRegister.merge_of_le above
  · rw [left.stamps, right.stamps] at below
    refine right.mono (fun i mem => ⟨Finset.mem_union_right _ mem, fun _ found => found⟩) ended ?_
    exact LWWRegister.merge_of_lt below

theorem EndedByOne.update {log : List Entry} {seen : Finset Nat} {s : CallSession}
    (known : ∀ i ∈ seen, i < log.length) (ended : EndedByOne log seen s) (u : Update) :
    EndedByOne (log ++ [⟨u, u.apply s⟩]) (insert log.length seen) (u.apply s) := by
  have longer : ∀ i ∈ seen, i ∈ insert log.length seen ∧
      ∀ entry, log[i]? = some entry → (log ++ [⟨u, u.apply s⟩])[i]? = some entry := fun i mem =>
    ⟨Finset.mem_insert_of_mem mem, fun entry found => by
      rwa [List.getElem?_append_left (known i mem)]⟩
  obtain ⟨sameEnd, sameReason⟩ | ⟨reason, endedAtMs, writerId, rfl⟩ := ended_apply s u
  · exact ended.mono longer sameEnd sameReason
  have wroteEnd := LWWRegister.withValue_eq s.endedAtMs endedAtMs endedAtMs writerId
  have wroteReason := LWWRegister.withValue_eq s.endReason reason.toInt endedAtMs writerId
  obtain ⟨same, above⟩ | ⟨same, below⟩ :=
    LWWRegister.merge_cases s.endedAtMs ⟨some endedAtMs, endedAtMs, writerId⟩
  · refine ended.mono longer (wroteEnd.trans same) (wroteReason.trans ?_)
    rw [ended.stamps] at above
    exact LWWRegister.merge_of_le above
  · refine .inr ⟨log.length, Finset.mem_insert_self _ _, reason, endedAtMs, writerId, _,
      List.getElem?_concat_length, wroteEnd.trans same, wroteReason.trans ?_⟩
    rw [ended.stamps] at below
    exact LWWRegister.merge_of_lt below

theorem timestamp_le_of_stamp_le {T : Type} {r s : LWWRegister T} (below : r.stamp ≤ s.stamp) :
    r.timestampMs ≤ s.timestampMs := by
  by_contra later
  exact absurd below (not_le.2 (LWWRegister.stamp_lt_iff.2 (.inl (not_le.1 later))))

theorem le_timestamp_withEnded (s : CallSession) (reason : EndReason) (endedAtMs : Int)
    (writerId : String) : endedAtMs ≤ (s.withEnded reason endedAtMs writerId).endedAtMs.timestampMs := by
  have reached : (⟨some endedAtMs, endedAtMs, writerId⟩ : LWWRegister Int).stamp ≤
      (s.endedAtMs.withValue endedAtMs endedAtMs writerId).stamp := by
    rw [LWWRegister.withValue_eq, LWWRegister.stamp_merge]
    exact le_max_right _ _
  exact timestamp_le_of_stamp_le reached

/-! ## Steps -/

variable {identity : Identity} {owner : String → R} {w : World R}

omit [DecidableEq R] in
theorem Inv.merge_ok (inv : Inv identity owner w) (r r' : R) :
    (w.sessions r).merge (w.sessions r') = .ok ((w.sessions r).join (w.sessions r')) :=
  CallSession.merge_eq_join ((inv.sameIdentity r).trans (inv.sameIdentity r').symm)
    (CallSession.sameKeys (inv.keyed r) (inv.keyed r'))

theorem inv_update (inv : Inv identity owner w) {replica : R} {u : Update}
    (own : ∀ writerId, u.writer = some writerId → owner writerId = replica) :
    Inv identity owner (step w (.update replica u)) := by
  have longer : ∀ r, ∀ i ∈ w.seen r,
      (w.log ++ [⟨u, u.apply (w.sessions replica)⟩])[i]? = w.log[i]? := fun r i mem =>
    List.getElem?_append_left (inv.known r i mem)
  let result := u.apply (w.sessions replica)
  constructor
  · show ∀ r, (Function.update w.sessions replica result r).toIdentity = identity
    exact (Function.forall_update_iff _ fun _ (s : CallSession) => s.toIdentity = identity).2
      ⟨(Update.identity_apply _ u).trans (inv.sameIdentity replica), fun r _ => inv.sameIdentity r⟩
  · show ∀ r, (Function.update w.sessions replica result r).Keyed
    exact (Function.forall_update_iff _ fun _ (s : CallSession) => s.Keyed).2
      ⟨Update.keyed_apply (inv.keyed replica) u, fun r _ => inv.keyed r⟩
  · intro x
    show SlotInv owner fun r => (Function.update w.sessions replica result r).int x
    rw [slot_update fun s => s.int x]
    exact (inv.ints x).wrote (Update.int_apply _ u x) own
  · intro x
    show SlotInv owner fun r => (Function.update w.sessions replica result r).text x
    rw [slot_update fun s => s.text x]
    exact (inv.texts x).wrote (Update.text_apply _ u x) own
  · show ∀ r, ∀ i ∈ Function.update w.seen replica (insert w.log.length (w.seen replica)) r,
      i < (w.log ++ [(⟨u, result⟩ : Entry)]).length
    rw [List.length_append, List.length_singleton]
    refine (Function.forall_update_iff _ fun _ (seen : Finset Nat) => ∀ i ∈ seen, i < w.log.length + 1).2
      ⟨fun i mem => ?_, fun r _ i mem => ?_⟩
    · obtain rfl | mem := Finset.mem_insert.1 mem
      · exact Nat.lt_succ_self _
      · exact Nat.lt_succ_of_lt (inv.known replica i mem)
    · exact Nat.lt_succ_of_lt (inv.known r i mem)
  · refine forall_update
      (p := fun (_ : R) s seen =>
        Joined CallSession.join (contributions identity (w.log ++ [⟨u, result⟩]) seen) s)
      ?_ fun r => ?_
    · rw [contributions_insert (inv.known replica)]
      exact CallSession.band.joined_insert (inv.joined replica) (Update.below_apply _ u)
    · rw [contributions_append (inv.known r)]
      exact inv.joined r
  · refine forall_update (p := fun (_ : R) s seen => EndedByOne (w.log ++ [⟨u, result⟩]) seen s) ?_ fun r => ?_
    · exact (inv.ended replica).update (inv.known replica) u
    · exact (inv.ended r).mono (fun i mem => ⟨mem, fun entry found => (longer r i mem).trans found⟩)
        rfl rfl
  · intro i reason endedAtMs writerId after found
    change (w.log ++ [⟨u, result⟩])[i]? = some _ at found
    by_cases earlier : i < w.log.length
    · rw [List.getElem?_append_left earlier] at found
      exact inv.stamped i reason endedAtMs writerId after found
    · rw [List.getElem?_append_right (Nat.le_of_not_lt earlier), List.getElem?_singleton] at found
      split at found
      · simp only [Option.some.injEq, Entry.mk.injEq] at found
        obtain ⟨rfl, rfl⟩ := found
        exact le_timestamp_withEnded _ reason endedAtMs writerId
      · cases found

theorem inv_merge (inv : Inv identity owner w) (replica source : R) :
    Inv identity owner (step w (.merge replica source)) := by
  have stepped : step w (.merge replica source) =
      ⟨Function.update w.sessions replica ((w.sessions replica).join (w.sessions source)), w.log,
        Function.update w.seen replica (w.seen replica ∪ w.seen source)⟩ := by
    simp only [step, inv.merge_ok]
  rw [stepped]
  constructor
  · exact (Function.forall_update_iff _ fun _ (s : CallSession) => s.toIdentity = identity).2
      ⟨inv.sameIdentity replica, fun r _ => inv.sameIdentity r⟩
  · exact (Function.forall_update_iff _ fun _ (s : CallSession) => s.Keyed).2
      ⟨CallSession.keyed_join (inv.keyed replica) (inv.keyed source), fun r _ => inv.keyed r⟩
  · intro x
    have merged := (inv.ints x).merge replica source
    rw [← CallSession.int_join, ← slot_update fun s => s.int x] at merged
    exact merged
  · intro x
    have merged := (inv.texts x).merge replica source
    rw [← CallSession.text_join ((inv.texts x).floored replica) ((inv.texts x).floored source),
      ← slot_update fun s => s.text x] at merged
    exact merged
  · refine (Function.forall_update_iff _ fun _ (seen : Finset Nat) => ∀ i ∈ seen, i < w.log.length).2
      ⟨fun i mem => ?_, fun r _ => inv.known r⟩
    obtain mem | mem := Finset.mem_union.1 mem
    · exact inv.known replica i mem
    · exact inv.known source i mem
  · refine forall_update
      (p := fun (_ : R) s seen => Joined CallSession.join (contributions identity w.log seen) s) ?_ inv.joined
    rw [contributions_union]
    exact CallSession.band.joined_merge (inv.joined replica) (inv.joined source)
  · exact forall_update (p := fun (_ : R) s seen => EndedByOne w.log seen s)
      ((inv.ended replica).join (inv.ended source)) inv.ended
  · exact inv.stamped

theorem inv_step {action : Action R} (inv : Inv identity owner w)
    (own : OwnWriter owner w action) : Inv identity owner (step w action) := by
  cases action with
  | update replica u => exact inv_update inv own
  | merge replica source => exact inv_merge inv replica source

/-! ## Convergence -/

omit [DecidableEq R] in
theorem Inv.comm (inv : Inv identity owner w) (r r' : R) :
    (w.sessions r).join (w.sessions r') = (w.sessions r').join (w.sessions r) :=
  CallSession.join_comm_of_agree ((inv.sameIdentity r).trans (inv.sameIdentity r').symm)
    (inv.keyed r) (inv.keyed r') (fun x => (inv.ints x).agree r r') fun x => (inv.texts x).agree r r'

omit [DecidableEq R] in
theorem Inv.assoc (inv : Inv identity owner w) (r r' r'' : R) :
    ((w.sessions r).merge (w.sessions r') >>= fun merged => merged.merge (w.sessions r'')) =
      ((w.sessions r').merge (w.sessions r'') >>= fun merged => (w.sessions r).merge merged) := by
  have left : ((w.sessions r).join (w.sessions r')).merge (w.sessions r'') =
      .ok (((w.sessions r).join (w.sessions r')).join (w.sessions r'')) :=
    CallSession.merge_eq_join ((inv.sameIdentity r).trans (inv.sameIdentity r'').symm)
      (CallSession.sameKeys (CallSession.keyed_join (inv.keyed r) (inv.keyed r')) (inv.keyed r''))
  have right : (w.sessions r).merge ((w.sessions r').join (w.sessions r'')) =
      .ok ((w.sessions r).join ((w.sessions r').join (w.sessions r''))) :=
    CallSession.merge_eq_join ((inv.sameIdentity r).trans (inv.sameIdentity r').symm)
      (CallSession.sameKeys (inv.keyed r) (CallSession.keyed_join (inv.keyed r') (inv.keyed r'')))
  rw [inv.merge_ok, inv.merge_ok, ok_bind, ok_bind, left, right, CallSession.band.assoc]

omit [DecidableEq R] in
/-- A replica that has seen an end after time zero is no longer active. -/
theorem Inv.inactive (inv : Inv identity owner w) {r : R} {i : Nat} {reason : EndReason}
    {endedAtMs : Int} {writerId : String} {result : CallSession} (mem : i ∈ w.seen r)
    (found : w.log[i]? = some ⟨.withEnded reason endedAtMs writerId, result⟩) (positive : 0 < endedAtMs) :
    (w.sessions r).isActive = false := by
  have reached : endedAtMs ≤ result.endedAtMs.timestampMs := inv.stamped _ _ _ _ _ found
  have absorbed := (inv.joined r).absorbs result (.inr ⟨i, mem, _, found, rfl⟩)
  have kept : (w.sessions r).endedAtMs.merge result.endedAtMs = (w.sessions r).endedAtMs :=
    congrArg CallSession.endedAtMs absorbed
  have below : result.endedAtMs.stamp ≤ (w.sessions r).endedAtMs.stamp := by
    rw [← kept, LWWRegister.stamp_merge]
    exact le_max_right _ _
  have later := timestamp_le_of_stamp_le below
  obtain ⟨unset, -⟩ | ⟨_, _, _, written, _, _, _, wrote, -⟩ := inv.ended r
  · rw [unset] at later
    have none : (LWWRegister.unset : LWWRegister Int).timestampMs = 0 := rfl
    omega
  · rw [wrote] at later
    have nonzero : written ≠ 0 := by
      intro zero
      simp only [zero] at later
      omega
    simp [CallSession.isActive, wrote, nonzero]

/-- **Call sessions converge.**  After every run in which each writer is used by one replica, the merge
of any sessions succeeds, is commutative, associative and idempotent; replicas that have seen the same
updates are equal; a replica that has seen an end after time zero is not active, so it never is again;
and the two registers of an end are unset or from one call of `with_ended`. -/
theorem call_sessions_converge {actions : List (Action R)}
    (own : EachStep step (OwnWriter owner) (World.initial identity) actions) :
    let w := run step (World.initial identity) actions
    (∀ r r', ∃ merged, (w.sessions r).merge (w.sessions r') = .ok merged ∧
      (w.sessions r').merge (w.sessions r) = .ok merged) ∧
    (∀ r r' r'',
      ((w.sessions r).merge (w.sessions r') >>= fun merged => merged.merge (w.sessions r'')) =
        ((w.sessions r').merge (w.sessions r'') >>= fun merged => (w.sessions r).merge merged)) ∧
    (∀ r, (w.sessions r).merge (w.sessions r) = .ok (w.sessions r)) ∧
    (∀ r r', w.seen r = w.seen r' → w.sessions r = w.sessions r') ∧
    (∀ (r : R) (i : Nat) (reason : EndReason) (endedAtMs : Int) (writerId : String)
      (result : CallSession), i ∈ w.seen r →
      w.log[i]? = some ⟨.withEnded reason endedAtMs writerId, result⟩ → 0 < endedAtMs →
      (w.sessions r).isActive = false) ∧
    ∀ r, EndedByOne w.log (w.seen r) (w.sessions r) := by
  intro w
  have inv : Inv identity owner w :=
    run_invariant (fun _ _ inv own => inv_step inv own) (inv_initial identity owner) own
  refine ⟨fun r r' => ⟨_, inv.merge_ok r r', ?_⟩, inv.assoc, fun r => ?_, fun r r' same => ?_,
    fun _ _ _ _ _ _ mem found positive => inv.inactive mem found positive, inv.ended⟩
  · rw [inv.merge_ok, inv.comm]
  · rw [inv.merge_ok, CallSession.band.idem]
  · have joined := inv.joined r'
    rw [← same] at joined
    exact (inv.joined r).eq_of_comm joined (inv.comm r r')

/-- Two replicas: one dials the intensity, the other ends the call, and both merge. -/
theorem call_sessions_converge_pair :
    let owner : String → Bool := fun writerId => writerId = "bob"
    let actions : List (Action Bool) := [.update false (.withIntensity .high 5 "alice"),
      .update true (.withEnded .userHangupLocal 7 "bob"), .merge false true, .merge true false]
    let w := run step (World.initial { callId := "call", startedAtMs := 1 }) actions
    EachStep step (OwnWriter owner) (World.initial { callId := "call", startedAtMs := 1 }) actions ∧
      (w.seen false = w.seen true → w.sessions false = w.sessions true) := by
  intro owner actions w
  have own : EachStep step (OwnWriter owner) (World.initial { callId := "call", startedAtMs := 1 })
      actions := by
    refine ⟨?_, ?_, trivial, trivial, trivial⟩
    · intro writerId same
      cases same
      rfl
    · intro writerId same
      cases same
      rfl
  obtain ⟨-, -, -, converges, -, -⟩ := call_sessions_converge own
  exact ⟨own, converges false true⟩

end OneLink.CallSessions
