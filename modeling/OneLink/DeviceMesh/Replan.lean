/-
# DeviceMesh.Replan — planning again after a source failed

The chunks that are still needed are packed into a manifest of their own, padded with copies
of the last one to a whole number of stripes, and planned with the surviving sources.  The
planner stops at the data shards of that manifest, and it does not skip the copies.  So the
new plan is right when the target is the number of needed chunks that are available, or
beyond it where no copy is available (`covers_iff`).
-/
import OneLink.DeviceMesh.FanOut

namespace OneLink.DeviceMesh

open Library

set_option autoImplicit false

/-- `Vec::dedup`: keep the first of each run of equal elements. -/
def dedup {α : Type} [DecidableEq α] : List α → List α
  | [] => []
  | a :: rest =>
    match dedup rest with
    | [] => [a]
    | b :: kept => if a = b then b :: kept else a :: b :: kept

/-- Push copies of `last` until the length is a multiple of `stripe`, at most `fuel` of them. -/
def padLoop {α : Type} (stripe : Nat) (last : α) : Nat → List α → List α
  | 0, chunks => chunks
  | fuel + 1, chunks =>
    if chunks.length % stripe = 0 then chunks else padLoop stripe last fuel (chunks ++ [last])

namespace FanOut

/-- The needed chunks in order, each once. -/
def distinctNeeded (needed : List ChunkHash) : List ChunkHash := dedup (needed.mergeSort (· ≤ ·))

def subManifest (manifest : FileManifest) (chunks : List ChunkHash) (last : ChunkHash) :
    FileManifest :=
  { manifest with
    chunks := padLoop manifest.policy.totalShards last manifest.policy.totalShards chunks }

def surviving (sources : List SourceCapacity) (failedSource : DeviceId) : List SourceCapacity :=
  sources.filter (·.deviceId ≠ failedSource)

end FanOut

open FanOut in
def replanAfterSourceFailure (hash : Bytes → Bytes) (manifest : FileManifest)
    (placements : List ChunkPlacement) (sources : List SourceCapacity) (failedSource : DeviceId)
    (stillNeededChunks : List ChunkHash) (factorBits : UInt64) : Except FileError FanOutPlan := do
  manifest.shapeCheck
  require (stillNeededChunks ≠ []) .fanOutNothingToReplan
  let survivingSources := surviving sources failedSource
  require (survivingSources ≠ []) .fanOutNoSources
  let chunks := distinctNeeded stillNeededChunks
  match chunks.getLast? with
  | none => throw .fanOutNothingToReplan
  | some lastChunk =>
    fanOutPlan hash (subManifest manifest chunks lastChunk) placements survivingSources factorBits

/-! ## The needed chunks, each once -/

section Dedup

variable {α : Type} [DecidableEq α]

theorem mem_dedup {l : List α} {x : α} : x ∈ dedup l ↔ x ∈ l := by
  induction l with
  | nil => rfl
  | cons a rest ih =>
    rw [dedup]
    split
    · next empty =>
      rw [empty] at ih
      rw [List.mem_singleton, List.mem_cons]
      exact ⟨.inl, fun here => here.resolve_right fun later => by simpa using ih.mpr later⟩
    · next b kept unfolded =>
      rw [unfolded] at ih
      split
      · next same =>
        rw [ih, List.mem_cons]
        constructor
        · exact .inr
        · rintro (rfl | later)
          · exact ih.mp (same ▸ List.mem_cons_self)
          · exact later
      · rw [List.mem_cons, ih, List.mem_cons]

/-- Equal elements are neighbours in a sorted list. -/
theorem pairwise_lt_dedup [LinearOrder α] {l : List α} (sorted : l.Pairwise (· ≤ ·)) :
    (dedup l).Pairwise (· < ·) := by
  induction l with
  | nil => exact List.Pairwise.nil
  | cons a rest ih =>
    obtain ⟨least, tail⟩ := List.pairwise_cons.mp sorted
    have kept := ih tail
    rw [dedup]
    split
    · exact List.pairwise_singleton _ _
    · next b others unfolded =>
      rw [unfolded] at kept
      split
      · exact kept
      · next apart =>
        refine List.pairwise_cons.mpr ⟨?_, kept⟩
        have member : b ∈ rest := mem_dedup.mp (unfolded ▸ List.mem_cons_self)
        have first : a < b := lt_of_le_of_ne (least b member) apart
        intro x here
        rcases List.mem_cons.mp here with rfl | later
        · exact first
        · exact first.trans ((List.pairwise_cons.mp kept).1 x later)

end Dedup

/-! ## Padding -/

theorem padLoop_eq {α : Type} (stripe : Nat) (last : α) (fuel : Nat) (chunks : List α) :
    ∃ copies, padLoop stripe last fuel chunks = chunks ++ List.replicate copies last := by
  induction fuel generalizing chunks with
  | zero => exact ⟨0, (List.append_nil _).symm⟩
  | succ fuel ih =>
    rw [padLoop]
    split
    · exact ⟨0, (List.append_nil _).symm⟩
    · obtain ⟨copies, padded⟩ := ih (chunks ++ [last])
      exact ⟨copies + 1, by rw [padded, List.append_assoc]; rfl⟩

/-- As much fuel as a stripe has chunks is enough for the loop to end. -/
theorem length_padLoop {α : Type} {stripe : Nat} (positive : 0 < stripe) (last : α)
    (chunks : List α) : (padLoop stripe last stripe chunks).length % stripe = 0 := by
  have through (fuel : Nat) (chunks : List α) (copies : Nat) (room : copies ≤ fuel)
      (whole : (chunks.length + copies) % stripe = 0) :
      (padLoop stripe last fuel chunks).length % stripe = 0 := by
    induction fuel generalizing chunks copies with
    | zero => rwa [Nat.le_zero.mp room] at whole
    | succ fuel ih =>
      rw [padLoop]
      split
      · next done => exact done
      · next ragged =>
        cases copies with
        | zero => exact absurd whole ragged
        | succ copies =>
          refine ih _ copies (Nat.le_of_succ_le_succ room) ?_
          rwa [List.length_append, List.length_singleton, Nat.add_right_comm]
  refine through stripe chunks (stripe - chunks.length % stripe) (Nat.sub_le _ _) ?_
  have below := Nat.mod_lt chunks.length positive
  rw [← Nat.mod_add_mod, Nat.add_sub_of_le below.le, Nat.mod_self]

namespace FanOut

theorem nodup_distinctNeeded (needed : List ChunkHash) : (distinctNeeded needed).Nodup := by
  have sorted : (needed.mergeSort (· ≤ ·)).Pairwise (· ≤ ·) := by
    have trans : ∀ a b c : ChunkHash, decide (a ≤ b) = true → decide (b ≤ c) = true →
        decide (a ≤ c) = true := by
      intro a b c first second
      exact decide_eq_true ((of_decide_eq_true first).trans (of_decide_eq_true second))
    have total : ∀ a b : ChunkHash, (decide (a ≤ b) || decide (b ≤ a)) = true := by
      intro a b
      rw [Bool.or_eq_true, decide_eq_true_iff, decide_eq_true_iff]
      exact le_total a b
    exact (List.pairwise_mergeSort trans total needed).imp of_decide_eq_true
  exact (pairwise_lt_dedup sorted).imp ne_of_lt

theorem mem_distinctNeeded {needed : List ChunkHash} {chunk : ChunkHash} :
    chunk ∈ distinctNeeded needed ↔ chunk ∈ needed := by
  rw [distinctNeeded, mem_dedup]
  exact (List.mergeSort_perm ..).mem_iff

theorem replan_eq_ok {hash : Bytes → Bytes} {manifest : FileManifest}
    {placements : List ChunkPlacement} {sources : List SourceCapacity} {failedSource : DeviceId}
    {needed : List ChunkHash} {factorBits : UInt64} {plan : FanOutPlan}
    (planned : replanAfterSourceFailure hash manifest placements sources failedSource needed
      factorBits = .ok plan) :
    ∃ last, (distinctNeeded needed).getLast? = some last ∧
      fanOutPlan hash (subManifest manifest (distinctNeeded needed) last) placements
        (surviving sources failedSource) factorBits = .ok plan := by
  simp only [replanAfterSourceFailure, bind_eq_ok, require_eq_ok, exists_const] at planned
  obtain ⟨_, _, _, _, made⟩ := planned
  split at made
  · cases made
  · next last found => exact ⟨last, found, made⟩

/-! ## What the new plan covers -/

/-- Every needed chunk that a surviving source holds is served, by one of them; the failed
source serves nothing; no chunk is served twice. -/
def Covers (placements : List ChunkPlacement) (sources : List SourceCapacity)
    (failedSource : DeviceId) (needed : List ChunkHash) (plan : FanOutPlan) : Prop :=
  (∀ chunk ∈ needed, Held placements (surviving sources failedSource) chunk → ∃ source,
    plan.served.filter (·.2 = chunk) = [(source, chunk)] ∧
      (∃ s ∈ surviving sources failedSource, s.deviceId = source) ∧
        Holds placements source chunk) ∧
  (∀ pair ∈ plan.served, pair.1 ≠ failedSource) ∧
  (plan.served.map (·.2)).Nodup

/-- How many chunks of a list a surviving source may serve. -/
def availableCount (placements : List ChunkPlacement) (sources : List SourceCapacity)
    (chunks : List ChunkHash) : Nat :=
  (chunks.filter (Available placements sources)).length

/-- The first `n` elements of a list without repetitions and some more copies of its last one. -/
theorem take_copies {α : Type} {l copies : List α} (distinct : l.Nodup)
    (repeated : ∀ x ∈ copies, x ∈ l) (n : Nat) :
    ((∀ x ∈ l, x ∈ (l ++ copies).take n) ∧ ((l ++ copies).take n).Nodup) ↔
      l.length ≤ n ∧ ((l ++ copies).length ≤ l.length ∨ n ≤ l.length) := by
  rw [List.take_append]
  constructor
  · rintro ⟨covered, once⟩
    have long : l.length ≤ n := by
      by_contra short
      have none : (copies.take (n - l.length)) = [] := by
        rw [Nat.sub_eq_zero_of_le (by omega), List.take_zero]
      rw [none, List.append_nil] at covered
      have whole : l.length ≤ (l.take n).length := (List.Nodup.subperm distinct covered).length_le
      rw [List.length_take] at whole
      omega
    refine ⟨long, ?_⟩
    rw [List.take_of_length_le long] at once
    by_contra more
    have some : copies.take (n - l.length) ≠ [] := by
      intro empty
      have size := congrArg List.length empty
      rw [List.length_take, List.length_nil] at size
      rw [List.length_append] at more
      omega
    obtain ⟨x, member⟩ := List.exists_mem_of_ne_nil _ some
    exact List.disjoint_of_nodup_append once (repeated x (List.mem_of_mem_take member)) member
  · rintro ⟨long, exactly⟩
    have none : (copies.take (n - l.length)) = [] := by
      apply List.eq_nil_of_length_eq_zero
      rw [List.length_take]
      rw [List.length_append] at exactly
      omega
    rw [none, List.append_nil, List.take_of_length_le long]
    exact ⟨fun x member => member, distinct⟩

/-- Covering, in terms of the chunks that are assigned. -/
theorem covers_iff_assigned {hash : Bytes → Bytes} {manifest : FileManifest}
    {placements : List ChunkPlacement} {sources : List SourceCapacity} {failedSource : DeviceId}
    {needed : List ChunkHash} {factorBits : UInt64} {plan : FanOutPlan}
    (planned : fanOutPlan hash manifest placements (surviving sources failedSource) factorBits =
      .ok plan) :
    Covers placements sources failedSource needed plan ↔
      (∀ chunk ∈ needed, Held placements (surviving sources failedSource) chunk →
        chunk ∈ plan.served.map (·.2)) ∧ (plan.served.map (·.2)).Nodup := by
  constructor
  · rintro ⟨covered, _, once⟩
    refine ⟨fun chunk member held => ?_, once⟩
    obtain ⟨source, only, _⟩ := covered chunk member held
    have pair : (source, chunk) ∈ plan.served := by
      have inFilter : (source, chunk) ∈ plan.served.filter (·.2 = chunk) := by
        rw [only]
        exact List.mem_singleton_self _
      exact List.mem_of_mem_filter inFilter
    exact List.mem_map.mpr ⟨_, pair, rfl⟩
  · rintro ⟨covered, once⟩
    refine ⟨fun chunk member held => ?_, ?_, once⟩
    · exact servedOnce_of_nodup planned once chunk (covered chunk member held)
    · intro pair member
      obtain ⟨s, listed, same⟩ := ((fanOutPlan_serves planned).2 pair member).1
      rw [← same]
      exact of_decide_eq_true (List.mem_filter.mp listed).2

/-- **When a new plan covers what is still needed.**  It does if and only if the last placement
of each needed chunk tells of its surviving holders, the target reaches all needed chunks
that are available, and it stops there or no copy of the last one is available. -/
theorem covers_iff {hash : Bytes → Bytes} {manifest : FileManifest}
    {placements : List ChunkPlacement} {sources : List SourceCapacity} {failedSource : DeviceId}
    {needed : List ChunkHash} {last : ChunkHash} {factorBits : UInt64} {plan : FanOutPlan}
    (found : (distinctNeeded needed).getLast? = some last)
    (planned : replanAfterSourceFailure hash manifest placements sources failedSource needed
      factorBits = .ok plan) :
    Covers placements sources failedSource needed plan ↔
      (∀ chunk ∈ needed, Held placements (surviving sources failedSource) chunk →
        Available placements (surviving sources failedSource) chunk) ∧
      availableCount placements (surviving sources failedSource) (distinctNeeded needed) ≤
        target (subManifest manifest (distinctNeeded needed) last) factorBits ∧
      (availableCount placements (surviving sources failedSource)
          (subManifest manifest (distinctNeeded needed) last).chunks ≤
        availableCount placements (surviving sources failedSource) (distinctNeeded needed) ∨
      target (subManifest manifest (distinctNeeded needed) last) factorBits ≤
        availableCount placements (surviving sources failedSource) (distinctNeeded needed)) := by
  obtain ⟨last', found', planned⟩ := replan_eq_ok planned
  obtain rfl : last' = last := Option.some.inj (found'.symm.trans found)
  obtain ⟨copies, padded⟩ := padLoop_eq manifest.policy.totalShards last'
    manifest.policy.totalShards (distinctNeeded needed)
  have chunks : (subManifest manifest (distinctNeeded needed) last').chunks =
      distinctNeeded needed ++ List.replicate copies last' := padded
  have serves := (fanOutPlan_serves planned).1
  have kept : ∀ chunk, chunk ∈ (distinctNeeded needed).filter
      (Available placements (surviving sources failedSource)) ↔
        chunk ∈ needed ∧ Available placements (surviving sources failedSource) chunk := by
    intro chunk
    rw [List.mem_filter, mem_distinctNeeded, decide_eq_true_iff]
  have repeated : ∀ chunk ∈ (List.replicate copies last').filter
      (Available placements (surviving sources failedSource)),
      chunk ∈ (distinctNeeded needed).filter
        (Available placements (surviving sources failedSource)) := by
    intro chunk member
    obtain ⟨copy, here⟩ := List.mem_filter.mp member
    rw [List.eq_of_mem_replicate copy] at here ⊢
    exact List.mem_filter.mpr ⟨List.mem_of_getLast? found', here⟩
  have cut := take_copies ((nodup_distinctNeeded needed).filter _) repeated
    (target (subManifest manifest (distinctNeeded needed) last') factorBits)
  rw [← List.filter_append, ← chunks, ← serves.nodup_iff] at cut
  rw [covers_iff_assigned planned, availableCount, availableCount, ← cut]
  constructor
  · rintro ⟨covered, once⟩
    refine ⟨?_, ?_, once⟩
    · intro chunk member held
      have among := List.mem_of_mem_take (serves.mem_iff.mp (covered chunk member held))
      exact of_decide_eq_true (List.mem_filter.mp among).2
    · intro chunk among
      obtain ⟨member, here⟩ := (kept chunk).mp among
      exact serves.mem_iff.mp (covered chunk member (held_of_available here))
  · rintro ⟨lastTells, reached, once⟩
    refine ⟨?_, once⟩
    intro chunk member held
    exact serves.mem_iff.mpr (reached chunk ((kept chunk).mpr ⟨member, lastTells chunk member held⟩))

/-! ## One needed chunk, and two -/

namespace Sample

def failed : DeviceId := filled 16 2

/-- The device that has everything, and one that fails. -/
def bothSources : List SourceCapacity := [⟨device, 1000, 0⟩, ⟨failed, 1000, 0⟩]

theorem surviving_eq : surviving bothSources failed = sources := by decide

theorem distinctNeeded_of_ascending {needed : List ChunkHash} (ascending : needed.Pairwise (· < ·)) :
    distinctNeeded needed = dedup needed := by
  rw [distinctNeeded, List.mergeSort_of_pairwise]
  exact ascending.imp fun less => decide_eq_true less.le

theorem distinctNeeded_one : distinctNeeded [chunk 0] = [chunk 0] :=
  distinctNeeded_of_ascending (by decide)

theorem distinctNeeded_two : distinctNeeded [chunk 0, chunk 1] = [chunk 0, chunk 1] :=
  (distinctNeeded_of_ascending (by decide)).trans (by decide)

theorem replan_facts :
    (subManifest manifest [chunk 0] (chunk 0)).chunks = [chunk 0, chunk 0, chunk 0] ∧
    target (subManifest manifest [chunk 0] (chunk 0)) one = 2 ∧
    target (subManifest manifest [chunk 0, chunk 1] (chunk 1)) one = 2 ∧
    (∀ c ∈ [chunk 0, chunk 1], Available placements sources c) := by
  decide +kernel

theorem replan_eq {needed : List ChunkHash} {last : ChunkHash} (nonempty : needed ≠ [])
    (distinct : distinctNeeded needed = needed) (found : needed.getLast? = some last) :
    replanAfterSourceFailure id manifest placements bothSources failed needed one =
      fanOutPlan id (subManifest manifest needed last) placements sources one := by
  have listed : sources ≠ [] := List.cons_ne_nil _ _
  rw [replanAfterSourceFailure, checked, ok_bind, require_of nonempty, ok_bind, surviving_eq]
  show (require (sources ≠ []) .fanOutNoSources >>= fun _ => _) = _
  rw [require_of listed, ok_bind, distinct]
  simp only [found]

theorem planned {needed : List ChunkHash} {last : ChunkHash}
    (shape : (subManifest manifest needed last).shapeCheck = .ok ()) :
    ∃ plan, fanOutPlan id (subManifest manifest needed last) placements sources one = .ok plan := by
  obtain ⟨_, _, _, accepted, _⟩ := facts
  have passes : Accepted one := by simpa [Accepted] using accepted
  exact ⟨_, fanOutPlan_eq_ok.mpr ⟨shape, List.cons_ne_nil _ _, passes, rfl⟩⟩

end Sample

/-- Two needed chunks fill the data shards of a stripe: each is served once. -/
theorem covers_iff_two :
    ∃ plan, replanAfterSourceFailure id Sample.manifest Sample.placements Sample.bothSources
        Sample.failed [Sample.chunk 0, Sample.chunk 1] Sample.one = .ok plan ∧
      Covers Sample.placements Sample.bothSources Sample.failed [Sample.chunk 0, Sample.chunk 1]
        plan := by
  obtain ⟨_, _, reach, available⟩ := Sample.replan_facts
  have distinct := Sample.distinctNeeded_two
  obtain ⟨plan, made⟩ := @Sample.planned [Sample.chunk 0, Sample.chunk 1] (Sample.chunk 1) rfl
  have replanned := (Sample.replan_eq (List.cons_ne_nil _ _) distinct rfl).trans made
  have found : (distinctNeeded [Sample.chunk 0, Sample.chunk 1]).getLast? =
      some (Sample.chunk 1) := by
    rw [distinct]
    rfl
  refine ⟨plan, replanned, (covers_iff found replanned).mpr ?_⟩
  have count : availableCount Sample.placements Sample.sources [Sample.chunk 0, Sample.chunk 1] =
      2 := by
    have whole : [Sample.chunk 0, Sample.chunk 1].filter
        (Available Sample.placements Sample.sources) = [Sample.chunk 0, Sample.chunk 1] := by
      apply List.filter_eq_self.mpr
      intro c member
      exact decide_eq_true (available c member)
    rw [availableCount, whole]
    rfl
  rw [distinct, Sample.surviving_eq, count, reach]
  exact ⟨fun c member _ => available c member, Nat.le_refl _, .inr (Nat.le_refl _)⟩

/-- One needed chunk is padded to three, and two of the copies are served. -/
theorem needed_chunk_served_twice :
    ¬ ∀ (hash : Bytes → Bytes) (manifest : FileManifest) (placements : List ChunkPlacement)
      (sources : List SourceCapacity) (failedSource : DeviceId) (needed : List ChunkHash)
      (factorBits : UInt64) (plan : FanOutPlan), needed ≠ [] →
      replanAfterSourceFailure hash manifest placements sources failedSource needed factorBits =
        .ok plan →
      Covers placements sources failedSource needed plan := by
  intro covers
  obtain ⟨copies, reach, _, available⟩ := Sample.replan_facts
  obtain ⟨plan, made⟩ := @Sample.planned [Sample.chunk 0] (Sample.chunk 0) rfl
  have replanned := (Sample.replan_eq (List.cons_ne_nil _ _) Sample.distinctNeeded_one rfl).trans
    made
  have once := (covers id Sample.manifest Sample.placements Sample.bothSources Sample.failed
    [Sample.chunk 0] Sample.one plan (List.cons_ne_nil _ _) replanned).2.2
  have serves := (fanOutPlan_serves made).1
  have here := available (Sample.chunk 0) List.mem_cons_self
  have whole : [Sample.chunk 0, Sample.chunk 0, Sample.chunk 0].filter
      (Available Sample.placements Sample.sources) =
        [Sample.chunk 0, Sample.chunk 0, Sample.chunk 0] := by
    simp [here]
  rw [copies, reach, whole] at serves
  have twice := serves.nodup_iff.mp once
  exact (List.nodup_cons.mp twice).1 List.mem_cons_self

end FanOut

end OneLink.DeviceMesh
