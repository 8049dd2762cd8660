/-
# DeviceMesh.TransferProgress — when a fetch is complete

The tracker counts distinct completed chunks against the data shards of the whole file.  A
file is decodable stripe by stripe, so the count is right exactly in the runs whose first
`n_stripes * k` distinct arrivals are `k` of every stripe (`completion_iff`).

The states of a run are named by the distinct arrivals so far (`arrivals`); a longer run has
more of them, in the same order.
-/
import OneLink.DeviceMesh.FanOut

namespace OneLink.DeviceMesh

open Library

set_option autoImplicit false

structure TransferProgress where
  fileId : Bytes
  plan : FanOutPlan
  completedChunks : Finset ChunkHash
  inFlightChunks : SortedMap ChunkHash DeviceId
  failedSources : Finset DeviceId
  completionThreshold : Nat

namespace TransferProgress

def new (plan : FanOutPlan) (manifest : FileManifest) : TransferProgress where
  fileId := plan.fileId
  plan := plan
  completedChunks := ∅
  inFlightChunks := .empty
  failedSources := ∅
  completionThreshold :=
    manifest.chunks.length / max manifest.policy.totalShards 1 * manifest.policy.k.toNat

def markInFlight (t : TransferProgress) (chunk : ChunkHash) (source : DeviceId) :
    TransferProgress :=
  if chunk ∈ t.completedChunks then t
  else { t with inFlightChunks := t.inFlightChunks.alter chunk fun _ => source }

def isComplete (t : TransferProgress) : Bool := t.completedChunks.card ≥ t.completionThreshold

/-- Also whether this completion reached the threshold. -/
def completeChunk (t : TransferProgress) (chunk : ChunkHash) : TransferProgress × Bool :=
  let after := { t with
    inFlightChunks := t.inFlightChunks.erase chunk
    completedChunks := insert chunk t.completedChunks }
  (after, after.isComplete && !t.isComplete)

/-- Also the chunks that were in flight from the source. -/
def markSourceFailed (t : TransferProgress) (source : DeviceId) :
    TransferProgress × List ChunkHash :=
  ({ t with
      failedSources := insert source t.failedSources
      inFlightChunks := ⟨t.inFlightChunks.items.filter (·.2 ≠ source),
        t.inFlightChunks.sorted.filter _⟩ },
    (t.inFlightChunks.items.filter (·.2 = source)).map (·.1))

/-! ## Runs -/

inductive Event where
  | inFlight (chunk : ChunkHash) (source : DeviceId)
  | complete (chunk : ChunkHash)
  | failed (source : DeviceId)
  deriving DecidableEq

def step (t : TransferProgress) : Event → TransferProgress
  | .inFlight chunk source => t.markInFlight chunk source
  | .complete chunk => (t.completeChunk chunk).1
  | .failed source => (t.markSourceFailed source).1

def run (plan : FanOutPlan) (manifest : FileManifest) (events : List Event) : TransferProgress :=
  events.foldl step (new plan manifest)

/-- At least `k` distinct chunks of every stripe are among the completed ones. -/
def Decodable (manifest : FileManifest) (completed : Finset ChunkHash) : Prop :=
  ∀ i < manifest.nStripes,
    manifest.policy.k.toNat ≤ ((manifest.stripe i).toFinset ∩ completed).card

/-- Completion means decodable in every state of the run, and is signalled by the completion
that makes the file decodable. -/
def Truthful (plan : FanOutPlan) (manifest : FileManifest) (events : List Event) : Prop :=
  (∀ before after, events = before ++ after → (run plan manifest before).isComplete = true →
    Decodable manifest (run plan manifest before).completedChunks) ∧
  (∀ before chunk after, events = before ++ .complete chunk :: after →
    (((run plan manifest before).completeChunk chunk).2 = true ↔
      ¬ Decodable manifest (run plan manifest before).completedChunks ∧
        Decodable manifest (run plan manifest (before ++ [.complete chunk])).completedChunks))

/-! ## Arrivals -/

def arrive (seen : List ChunkHash) : Event → List ChunkHash
  | .complete chunk => if chunk ∈ seen then seen else seen ++ [chunk]
  | _ => seen

/-- The completed chunks of a run, each once, in the order of their arrival. -/
def arrivals (events : List Event) : List ChunkHash := events.foldl arrive []

theorem arrivals_concat (events : List Event) (event : Event) :
    arrivals (events ++ [event]) = arrive (arrivals events) event := by
  rw [arrivals, List.foldl_append]
  rfl

theorem arrive_cases (seen : List ChunkHash) (event : Event) :
    arrive seen event = seen ∨
      ∃ chunk, event = .complete chunk ∧ chunk ∉ seen ∧ arrive seen event = seen ++ [chunk] := by
  cases event with
  | complete chunk =>
    rw [arrive]
    split
    · exact .inl rfl
    · next fresh => exact .inr ⟨chunk, rfl, fresh, rfl⟩
  | inFlight chunk source => exact .inl rfl
  | failed source => exact .inl rfl

theorem nodup_arrivals (events : List Event) : (arrivals events).Nodup := by
  induction events using List.reverseRecOn with
  | nil => exact List.nodup_nil
  | append_singleton earlier event ih =>
    rw [arrivals_concat]
    rcases arrive_cases (arrivals earlier) event with same | ⟨chunk, _, fresh, grown⟩
    · rw [same]
      exact ih
    · rw [grown, List.nodup_append]
      refine ⟨ih, List.nodup_singleton _, ?_⟩
      rintro a member b here rfl
      exact fresh (List.mem_singleton.mp here ▸ member)

theorem arrivals_extend (before after : List Event) :
    arrivals before <+: arrivals (before ++ after) := by
  induction after using List.reverseRecOn with
  | nil => rw [List.append_nil]
  | append_singleton earlier event ih =>
    rw [← List.append_assoc, arrivals_concat]
    rcases arrive_cases (arrivals (before ++ earlier)) event with same | ⟨chunk, _, _, grown⟩
    · rw [same]
      exact ih
    · rw [grown]
      exact ih.trans (List.prefix_append _ _)

theorem arrivals_take {events before after : List Event} (split : events = before ++ after) :
    arrivals before = (arrivals events).take (arrivals before).length := by
  rw [split]
  exact List.prefix_iff_eq_take.mp (arrivals_extend before after)

/-- Every arrival is brought by a completion of the run. -/
theorem exists_arrival {events : List Event} {n : Nat} (inside : n < (arrivals events).length) :
    ∃ before chunk after, events = before ++ .complete chunk :: after ∧
      arrivals before = (arrivals events).take n ∧
      arrivals (before ++ [.complete chunk]) = (arrivals events).take (n + 1) := by
  induction events using List.reverseRecOn with
  | nil => exact absurd inside (Nat.not_lt_zero n)
  | append_singleton earlier event ih =>
    rw [arrivals_concat] at inside ⊢
    rcases arrive_cases (arrivals earlier) event with same | ⟨chunk, rfl, _, grown⟩
    · rw [same] at inside ⊢
      obtain ⟨before, chunk, after, split, left, right⟩ := ih inside
      exact ⟨before, chunk, after ++ [event], by rw [split]; simp, left, right⟩
    · rw [grown, List.length_append, List.length_singleton] at inside
      rw [grown]
      by_cases earlierOne : n < (arrivals earlier).length
      · obtain ⟨before, other, after, split, left, right⟩ := ih earlierOne
        refine ⟨before, other, after ++ [.complete chunk], by rw [split]; simp, ?_, ?_⟩
        · rw [left, List.take_append_of_le_length earlierOne.le]
        · rw [right, List.take_append_of_le_length (by omega)]
      · have last : n = (arrivals earlier).length := by omega
        refine ⟨earlier, chunk, [], rfl, ?_, ?_⟩
        · rw [last, List.take_left]
        · rw [arrivals_concat, grown, List.take_of_length_le]
          rw [List.length_append, List.length_singleton]
          omega

/-! ## The states of a run -/

theorem threshold_new (plan : FanOutPlan) (manifest : FileManifest) :
    (new plan manifest).completionThreshold = manifest.nStripes * manifest.policy.k.toNat := by
  show _ / max manifest.policy.totalShards 1 * _ = _ / manifest.policy.totalShards * _
  by_cases some : manifest.policy.totalShards = 0
  · have none : manifest.policy.k.toNat = 0 := by
      unfold ErasurePolicy.totalShards at some
      omega
    rw [none, Nat.mul_zero, Nat.mul_zero]
  · rw [max_eq_left (Nat.pos_of_ne_zero some)]

theorem run_concat (plan : FanOutPlan) (manifest : FileManifest) (events : List Event)
    (event : Event) : run plan manifest (events ++ [event]) = (run plan manifest events).step event := by
  rw [run, List.foldl_append]
  rfl

/-- A step completes what arrives, and leaves the threshold. -/
theorem step_spec (t : TransferProgress) (event : Event) (seen : List ChunkHash)
    (same : t.completedChunks = seen.toFinset) :
    (t.step event).completedChunks = (arrive seen event).toFinset ∧
      (t.step event).completionThreshold = t.completionThreshold := by
  cases event with
  | complete chunk =>
    refine ⟨?_, rfl⟩
    show insert chunk t.completedChunks = (arrive seen (.complete chunk)).toFinset
    rw [same, arrive]
    split
    · next known => exact Finset.insert_eq_of_mem (List.mem_toFinset.mpr known)
    · rw [List.toFinset_append, List.toFinset_cons, List.toFinset_nil, Finset.union_comm]
      rfl
  | inFlight chunk source =>
    show (t.markInFlight chunk source).completedChunks = seen.toFinset ∧ _
    rw [← same, step, markInFlight]
    split
    · exact ⟨rfl, rfl⟩
    · exact ⟨rfl, rfl⟩
  | failed source => exact ⟨same, rfl⟩

theorem run_spec (plan : FanOutPlan) (manifest : FileManifest) (events : List Event) :
    (run plan manifest events).completedChunks = (arrivals events).toFinset ∧
      (run plan manifest events).completionThreshold =
        manifest.nStripes * manifest.policy.k.toNat := by
  induction events using List.reverseRecOn with
  | nil => exact ⟨rfl, threshold_new plan manifest⟩
  | append_singleton earlier event ih =>
    obtain ⟨same, threshold⟩ := ih
    obtain ⟨grown, kept⟩ := step_spec (run plan manifest earlier) event (arrivals earlier) same
    rw [run_concat, arrivals_concat]
    exact ⟨grown, kept.trans threshold⟩

theorem isComplete_run (plan : FanOutPlan) (manifest : FileManifest) (events : List Event) :
    (run plan manifest events).isComplete = true ↔
      manifest.nStripes * manifest.policy.k.toNat ≤ (arrivals events).length := by
  obtain ⟨same, threshold⟩ := run_spec plan manifest events
  rw [isComplete, same, threshold, List.toFinset_card_of_nodup (nodup_arrivals events),
    decide_eq_true_iff]

theorem completeChunk_run (plan : FanOutPlan) (manifest : FileManifest) (before : List Event)
    (chunk : ChunkHash) :
    ((run plan manifest before).completeChunk chunk).2 = true ↔
      manifest.nStripes * manifest.policy.k.toNat ≤
          (arrivals (before ++ [.complete chunk])).length ∧
        ¬ manifest.nStripes * manifest.policy.k.toNat ≤ (arrivals before).length := by
  have after := isComplete_run plan manifest (before ++ [.complete chunk])
  rw [run_concat] at after
  rw [← after, ← isComplete_run plan manifest before]
  show ((step (run plan manifest before) (.complete chunk)).isComplete &&
    !(run plan manifest before).isComplete) = true ↔ _
  rw [Bool.and_eq_true, Bool.not_eq_true', Bool.not_eq_true]

theorem Decodable.mono {manifest : FileManifest} {some more : Finset ChunkHash}
    (decodable : Decodable manifest some) (sub : some ⊆ more) : Decodable manifest more := by
  intro i inside
  exact (decodable i inside).trans (Finset.card_le_card (Finset.inter_subset_inter_left sub))

/-! ## Which arrivals complete a decodable file -/

/-- As soon as there are as many distinct arrivals as data shards, they are `k` of every
stripe; and fewer are not. -/
def FairArrivals (manifest : FileManifest) (arrived : List ChunkHash) : Prop :=
  (manifest.nStripes * manifest.policy.k.toNat ≤ arrived.length →
    Decodable manifest
      (arrived.take (manifest.nStripes * manifest.policy.k.toNat)).toFinset) ∧
  ∀ n < manifest.nStripes * manifest.policy.k.toNat,
    ¬ Decodable manifest (arrived.take n).toFinset

theorem FairArrivals.decodable_take {manifest : FileManifest} {arrived : List ChunkHash}
    (fair : FairArrivals manifest arrived) {n : Nat} (inside : n ≤ arrived.length) :
    Decodable manifest (arrived.take n).toFinset ↔
      manifest.nStripes * manifest.policy.k.toNat ≤ n := by
  constructor
  · intro decodable
    by_contra few
    exact fair.2 n (Nat.not_le.mp few) decodable
  · intro enough
    apply (fair.1 (enough.trans inside)).mono
    intro chunk member
    rw [List.mem_toFinset] at member ⊢
    exact (List.take_sublist_take_left enough).subset member

/-- An empty set is decodable only where nothing is needed. -/
theorem threshold_of_decodable_empty {manifest : FileManifest}
    (decodable : Decodable manifest ∅) : manifest.nStripes * manifest.policy.k.toNat = 0 := by
  rcases Nat.eq_zero_or_pos manifest.nStripes with none | some
  · rw [none, Nat.zero_mul]
  · have first := decodable 0 some
    rw [Finset.inter_empty, Finset.card_empty] at first
    rw [Nat.le_zero.mp first, Nat.mul_zero]

theorem truthful_iff_fair (plan : FanOutPlan) (manifest : FileManifest) (events : List Event) :
    Truthful plan manifest events ↔ FairArrivals manifest (arrivals events) := by
  constructor
  · rintro ⟨complete, signalled⟩
    refine ⟨?_, ?_⟩
    · intro enough
      generalize threshold : manifest.nStripes * manifest.policy.k.toNat = T at enough ⊢
      cases T with
      | zero =>
        have start := complete [] events rfl ((isComplete_run plan manifest []).mpr (by
          rw [threshold]
          exact Nat.zero_le _))
        rw [(run_spec plan manifest []).1] at start
        exact start
      | succ n =>
        obtain ⟨before, chunk, after, split, _, last⟩ := exists_arrival (n := n) enough
        have whole : events = (before ++ [.complete chunk]) ++ after := by
          rw [split, List.append_assoc]
          rfl
        have here := complete (before ++ [.complete chunk]) after whole
          ((isComplete_run plan manifest _).mpr (by
            rw [threshold, last, List.length_take]
            omega))
        rw [(run_spec plan manifest _).1, last] at here
        exact here
    · intro n few decodable
      -- the least number of arrivals that are decodable
      classical
      have some : ∃ m, Decodable manifest ((arrivals events).take m).toFinset := ⟨n, decodable⟩
      obtain ⟨least, first, minimal⟩ : ∃ least, Decodable manifest
          ((arrivals events).take least).toFinset ∧ ∀ m < least, ¬ Decodable manifest
            ((arrivals events).take m).toFinset :=
        ⟨Nat.find some, Nat.find_spec some, fun m less => Nat.find_min some less⟩
      have within : least ≤ n := by
        by_contra beyond
        exact minimal n (Nat.not_le.mp beyond) decodable
      cases least with
      | zero =>
        rw [List.take_zero] at first
        have nothing := threshold_of_decodable_empty first
        omega
      | succ m =>
        have inside : m < (arrivals events).length := by
          by_contra outside
          apply minimal m (Nat.lt_succ_self m)
          rw [List.take_of_length_le (by omega)] at first ⊢
          exact first
        obtain ⟨before, chunk, after, split, left, right⟩ := exists_arrival inside
        have signal := (signalled before chunk after split).mpr (by
          rw [(run_spec plan manifest _).1, (run_spec plan manifest _).1, left, right]
          exact ⟨minimal m (Nat.lt_succ_self m), first⟩)
        have reached := ((completeChunk_run plan manifest before chunk).mp signal).1
        rw [right, List.length_take] at reached
        omega
  · intro fair
    refine ⟨?_, ?_⟩
    · intro before after split complete
      have place := arrivals_take split
      have inside : (arrivals before).length ≤ (arrivals events).length := by
        rw [split]
        exact (arrivals_extend before after).length_le
      rw [(run_spec plan manifest before).1, place]
      exact (fair.decodable_take inside).mpr ((isComplete_run plan manifest before).mp complete)
    · intro before chunk after split
      have whole : events = (before ++ [.complete chunk]) ++ after := by
        rw [split, List.append_assoc]
        rfl
      have place := arrivals_take split
      have place' := arrivals_take whole
      have inside : (arrivals before).length ≤ (arrivals events).length := by
        rw [split]
        exact (arrivals_extend before _).length_le
      have inside' : (arrivals (before ++ [.complete chunk])).length ≤
          (arrivals events).length := by
        rw [whole]
        exact (arrivals_extend _ after).length_le
      rw [completeChunk_run, (run_spec plan manifest before).1, (run_spec plan manifest _).1,
        place, place', fair.decodable_take inside, fair.decodable_take inside', ← place, ← place',
        and_comm]

/-! ## Which manifests never mislead -/

theorem take_stripe (manifest : FileManifest) (i : Nat) :
    manifest.chunks.take ((i + 1) * manifest.policy.totalShards) =
      manifest.chunks.take (i * manifest.policy.totalShards) ++ manifest.stripe i := by
  rw [Nat.succ_mul, FileManifest.stripe, List.take_add]

/-- Distinct chunks that are decodable are at least as many as the data shards. -/
theorem Decodable.le_card {manifest : FileManifest} (distinct : manifest.chunks.Nodup)
    {completed : Finset ChunkHash} (decodable : Decodable manifest completed) :
    manifest.nStripes * manifest.policy.k.toNat ≤ completed.card := by
  have through : ∀ i ≤ manifest.nStripes, i * manifest.policy.k.toNat ≤
      ((manifest.chunks.take (i * manifest.policy.totalShards)).toFinset ∩ completed).card := by
    intro i
    induction i with
    | zero =>
      intro _
      rw [Nat.zero_mul]
      exact Nat.zero_le _
    | succ i ih =>
      intro inside
      have earlier := ih (by omega)
      have here := decodable i inside
      have pieces := distinct.sublist (List.take_sublist ((i + 1) * manifest.policy.totalShards) _)
      rw [take_stripe] at pieces ⊢
      have apart : Disjoint
          ((manifest.chunks.take (i * manifest.policy.totalShards)).toFinset ∩ completed)
          ((manifest.stripe i).toFinset ∩ completed) := by
        apply Finset.disjoint_of_subset_left Finset.inter_subset_left
        apply Finset.disjoint_of_subset_right Finset.inter_subset_left
        exact List.disjoint_toFinset_iff_disjoint.mpr (List.disjoint_of_nodup_append pieces)
      rw [List.toFinset_append, Finset.union_inter_distrib_right, Finset.card_union_of_disjoint
        apart, Nat.succ_mul]
      exact Nat.add_le_add earlier here
  exact (through _ (Nat.le_refl _)).trans (Finset.card_le_card Finset.inter_subset_right)

theorem arrivals_completions {chunks : List ChunkHash} (distinct : chunks.Nodup) :
    arrivals (chunks.map Event.complete) = chunks := by
  induction chunks using List.reverseRecOn with
  | nil => rfl
  | append_singleton earlier chunk ih =>
    obtain ⟨before, _, apart⟩ := List.nodup_append.mp distinct
    have fresh : chunk ∉ earlier := fun member => apart chunk member chunk
      (List.mem_singleton_self _) rfl
    rw [List.map_append, List.map_singleton, arrivals_concat, ih before, arrive, if_neg fresh]

theorem arrivals_known {events : List Event} {chunk : ChunkHash} (arrived : chunk ∈ arrivals events) :
    .complete chunk ∈ events := by
  induction events using List.reverseRecOn with
  | nil => exact absurd arrived List.not_mem_nil
  | append_singleton earlier event ih =>
    rw [arrivals_concat] at arrived
    rcases arrive_cases (arrivals earlier) event with same | ⟨other, rfl, _, grown⟩
    · rw [same] at arrived
      exact List.mem_append_left _ (ih arrived)
    · rw [grown] at arrived
      rcases List.mem_append.mp arrived with before | last
      · exact List.mem_append_left _ (ih before)
      · rw [List.mem_singleton.mp last]
        exact List.mem_append_right _ (List.mem_singleton_self _)

/-- One stripe, or no parity: every distinct arrivals are fair. -/
theorem fair_of_simple {manifest : FileManifest} (checked : manifest.shapeCheck = .ok ())
    (distinct : manifest.chunks.Nodup)
    (simple : manifest.nStripes = 1 ∨ manifest.policy.m.toNat = 0) {arrived : List ChunkHash}
    (once : arrived.Nodup) (known : ∀ chunk ∈ arrived, chunk ∈ manifest.chunks) :
    FairArrivals manifest arrived := by
  obtain ⟨_, _, _, _, whole⟩ := FileManifest.shapeCheck_eq_ok checked
  have width : manifest.policy.totalShards = manifest.policy.k.toNat + manifest.policy.m.toNat :=
    rfl
  refine ⟨?_, ?_⟩
  · intro enough i inside
    have sub : ((arrived.take (manifest.nStripes * manifest.policy.k.toNat)).toFinset) ⊆
        manifest.chunks.toFinset := by
      intro chunk member
      rw [List.mem_toFinset] at member ⊢
      exact known chunk (List.mem_of_mem_take member)
    have size : ((arrived.take (manifest.nStripes * manifest.policy.k.toNat)).toFinset).card =
        manifest.nStripes * manifest.policy.k.toNat := by
      rw [List.toFinset_card_of_nodup (once.sublist (List.take_sublist _ _)), List.length_take]
      omega
    rcases simple with single | bare
    · -- the only stripe is the whole file
      have only : manifest.stripe i = manifest.chunks := by
        obtain rfl : i = 0 := by omega
        rw [FileManifest.stripe, Nat.zero_mul, List.drop_zero, List.take_of_length_le]
        rw [whole, single, Nat.one_mul]
      rw [only, Finset.inter_eq_right.mpr sub, size, single, Nat.one_mul]
    · -- everything is needed, and everything has arrived
      have all : (arrived.take (manifest.nStripes * manifest.policy.k.toNat)).toFinset =
          manifest.chunks.toFinset := by
        apply Finset.eq_of_subset_of_card_le sub
        rw [size, List.toFinset_card_of_nodup distinct, whole, width, bare, Nat.add_zero]
      have part : (manifest.stripe i).Sublist manifest.chunks :=
        (List.take_sublist _ _).trans (List.drop_sublist _ _)
      have within : (manifest.stripe i).toFinset ⊆ manifest.chunks.toFinset := by
        intro chunk member
        rw [List.mem_toFinset] at member ⊢
        exact part.subset member
      rw [all, Finset.inter_eq_left.mpr within,
        List.toFinset_card_of_nodup (distinct.sublist part), FileManifest.length_stripe checked
          inside, width, bare, Nat.add_zero]
  · intro n few decodable
    have size := decodable.le_card distinct
    rw [List.toFinset_card_of_nodup (once.sublist (List.take_sublist _ _)),
      List.length_take] at size
    omega

/-- Two stripes and a parity shard: the first chunks of the file, as many as its data shards,
leave the last stripe short. -/
theorem not_fair_of_parity {manifest : FileManifest} (checked : manifest.shapeCheck = .ok ())
    (distinct : manifest.chunks.Nodup) (several : 2 ≤ manifest.nStripes)
    (parity : 0 < manifest.policy.m.toNat) :
    ¬ FairArrivals manifest
      (manifest.chunks.take (manifest.nStripes * manifest.policy.k.toNat)) := by
  obtain ⟨data, _, _, _, whole⟩ := FileManifest.shapeCheck_eq_ok checked
  have width : manifest.policy.totalShards = manifest.policy.k.toNat + manifest.policy.m.toNat :=
    rfl
  obtain ⟨others, count⟩ : ∃ others, manifest.nStripes = others + 1 := ⟨_, (Nat.succ_pred_eq_of_pos
    (by omega)).symm⟩
  intro fair
  have needed : manifest.nStripes * manifest.policy.k.toNat ≤ manifest.chunks.length := by
    rw [whole, width]
    exact Nat.mul_le_mul_left _ (Nat.le_add_right _ _)
  have last := fair.1 (by rw [List.length_take]; omega) others (by omega)
  rw [List.take_take, min_self] at last
  -- the last stripe starts after `others` whole ones
  have start : manifest.nStripes * manifest.policy.k.toNat <
      others * manifest.policy.totalShards + manifest.policy.k.toNat := by
    have surplus : 1 * 1 ≤ others * manifest.policy.m.toNat :=
      Nat.mul_le_mul (by omega) parity
    rw [count, width, Nat.succ_mul, Nat.mul_add]
    omega
  have short : ((manifest.stripe others).toFinset ∩
      (manifest.chunks.take (manifest.nStripes * manifest.policy.k.toNat)).toFinset) ⊆
      ((manifest.stripe others).take (manifest.nStripes * manifest.policy.k.toNat -
        others * manifest.policy.totalShards)).toFinset := by
    intro chunk member
    obtain ⟨here, early⟩ := Finset.mem_inter.mp member
    rw [List.mem_toFinset] at here early ⊢
    have pieces := manifest.chunks_eq others
    have apart := distinct
    rw [pieces] at early apart
    have starts : (manifest.chunks.take (others * manifest.policy.totalShards)).length =
        others * manifest.policy.totalShards := by
      rw [List.length_take, whole, count, Nat.succ_mul]
      omega
    rw [List.take_append, List.take_append, starts, List.mem_append, List.mem_append] at early
    rcases early with before | inside | after
    · exact absurd (List.mem_append_left _ here)
        (fun among => List.disjoint_of_nodup_append apart (List.mem_of_mem_take before) among)
    · exact inside
    · exact absurd (List.mem_of_mem_take after) (fun among =>
        List.disjoint_of_nodup_append (List.nodup_append.mp apart).2.1 here among)
  have size := last.trans (Finset.card_le_card short)
  have most := List.toFinset_card_le ((manifest.stripe others).take
    (manifest.nStripes * manifest.policy.k.toNat - others * manifest.policy.totalShards))
  rw [List.length_take] at most
  omega

/-- The tracker is truthful in every run of a checked manifest with distinct chunks if and only
if there is one stripe or no parity. -/
theorem always_truthful_iff {manifest : FileManifest} (checked : manifest.shapeCheck = .ok ())
    (distinct : manifest.chunks.Nodup) (plan : FanOutPlan) :
    (∀ events, (∀ chunk, .complete chunk ∈ events → chunk ∈ manifest.chunks) →
      Truthful plan manifest events) ↔
    manifest.nStripes = 1 ∨ manifest.policy.m.toNat = 0 := by
  constructor
  · intro always
    by_contra complex
    rw [not_or] at complex
    have some := FileManifest.nStripes_pos checked
    have once := distinct.sublist
      (List.take_sublist (manifest.nStripes * manifest.policy.k.toNat) manifest.chunks)
    have truthful := always ((manifest.chunks.take
      (manifest.nStripes * manifest.policy.k.toNat)).map Event.complete) (by
        intro chunk member
        obtain ⟨known, here, same⟩ := List.mem_map.mp member
        cases same
        exact List.mem_of_mem_take here)
    rw [truthful_iff_fair, arrivals_completions once] at truthful
    exact not_fair_of_parity checked distinct (by omega) (by omega) truthful
  · intro simple events known
    rw [truthful_iff_fair]
    exact fair_of_simple checked distinct simple (nodup_arrivals events)
      fun chunk arrived => known chunk (arrivals_known arrived)

/-- **When completion means decodable.**  In a run of the tracker `is_complete` means that
every stripe has `k` distinct completed chunks, and the completion that first makes it so is
the one that is signalled, if and only if the first `n_stripes * k` distinct arrivals are `k`
of every stripe and fewer never are.  All runs of a checked manifest with distinct chunks are
so if and only if it has one stripe or no parity. -/
theorem completion_iff (plan : FanOutPlan) (manifest : FileManifest) :
    (∀ events, Truthful plan manifest events ↔ FairArrivals manifest (arrivals events)) ∧
    (manifest.shapeCheck = .ok () → manifest.chunks.Nodup →
      ((∀ events, (∀ chunk, .complete chunk ∈ events → chunk ∈ manifest.chunks) →
        Truthful plan manifest events) ↔
      manifest.nStripes = 1 ∨ manifest.policy.m.toNat = 0)) :=
  ⟨fun events => truthful_iff_fair plan manifest events,
    fun checked distinct => always_truthful_iff checked distinct plan⟩

/-- The first stripe with its parity shard and one chunk of the second stripe are taken for the
whole file. -/
theorem parity_completes_early :
    ¬ Truthful ⟨[], [], 0⟩ FanOut.Sample.manifest
      ([0, 1, 2, 3].map fun i => .complete (FanOut.Sample.chunk i)) := by
  obtain ⟨distinct, _⟩ := FanOut.Sample.facts
  have unfair := not_fair_of_parity FanOut.Sample.checked distinct (by decide) (by decide)
  have first : FanOut.Sample.manifest.chunks.take
      (FanOut.Sample.manifest.nStripes * FanOut.Sample.manifest.policy.k.toNat) =
        [0, 1, 2, 3].map FanOut.Sample.chunk := rfl
  rw [first] at unfair
  intro truthful
  have fair := (truthful_iff_fair _ _ _).mp truthful
  have once : ([0, 1, 2, 3].map FanOut.Sample.chunk).Nodup :=
    first ▸ distinct.sublist (List.take_sublist _ _)
  have arrived := arrivals_completions once
  rw [List.map_map] at arrived
  rw [← arrived] at unfair
  exact unfair fair

end TransferProgress

end OneLink.DeviceMesh
