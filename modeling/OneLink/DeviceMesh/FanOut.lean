/-
# DeviceMesh.FanOut — which source serves which chunk

`fan_out_plan` walks the chunks of a manifest in order and gives each one that a listed source
holds to the holder with the least projected load, until it has given `target` of them: the
number of data shards of the whole file, times the over-request factor.  So the chunks that
are assigned are the first `target` available ones (`assignLoop_spec`), each of them once.

A file is decodable stripe by stripe.  The plan is too when the last stripe gets its `k`
chunks, after everything that is available in the stripes before it (`decodable_iff`).

The over-request factor is the `f64` with the given bits; `ceilScaled` is the exact value of
the rounded product.
-/
import OneLink.DeviceMesh.FileManifest

namespace OneLink.DeviceMesh

open Library

set_option autoImplicit false

structure ChunkPlacement where
  chunkHash : ChunkHash
  deviceIds : SortedMap DeviceId Unit
  lastAttestUnix : UInt64

structure SourceCapacity where
  deviceId : DeviceId
  estimatedBps : UInt64
  currentLoadBytes : UInt64
  deriving DecidableEq

structure FanOutAssignment where
  sourceDeviceId : DeviceId
  chunkHashes : List ChunkHash
  estimatedBytes : Nat
  deriving DecidableEq

structure FanOutPlan where
  fileId : Bytes
  assignments : List FanOutAssignment
  totalChunks : Nat
  deriving DecidableEq

/-! ## The over-request factor -/

namespace Factor

/-- The biased exponent of an `f64`. -/
def exponent (bits : UInt64) : Nat := bits.toNat / 2 ^ 52 % 2 ^ 11

def fraction (bits : UInt64) : Nat := bits.toNat % 2 ^ 52

def negative (bits : UInt64) : Bool := bits.toNat / 2 ^ 63 = 1

def isFinite (bits : UInt64) : Bool := exponent bits ≠ 2047

/-- `factor < 1.0`, false of a NaN. -/
def belowOne (bits : UInt64) : Bool :=
  if exponent bits = 2047 ∧ fraction bits ≠ 0 then false
  else negative bits ∨ exponent bits < 1023

/-- `n` rounded to 53 significant bits, ties to even. -/
def rounded (n : Nat) : Nat :=
  let shift := n.log2 - 52
  let quotient := n / 2 ^ shift
  let rest := n % 2 ^ shift
  let up := 2 * rest > 2 ^ shift ∨ (2 * rest = 2 ^ shift ∧ quotient % 2 = 1)
  (if up then quotient + 1 else quotient) * 2 ^ shift

/-- `(count as f64 * factor).ceil()` for a finite factor from one on, before the cast. -/
def ceilScaled (count : Nat) (bits : UInt64) : Nat :=
  let product := rounded (count * (2 ^ 52 + fraction bits))
  if 1075 ≤ exponent bits then product * 2 ^ (exponent bits - 1075)
  else (product + 2 ^ (1075 - exponent bits) - 1) / 2 ^ (1075 - exponent bits)

end Factor

/-! ## `fan_out_plan` -/

/-- `Iterator::min_by`: the first of the least elements. -/
def minBy {α : Type} (after : α → α → Bool) : List α → Option α
  | [] => none
  | first :: rest => some (rest.foldl (fun least next => if after least next then next else least) first)

def saturatingMul (a b : Nat) : Nat := min (a * b) (2 ^ 128 - 1)

namespace FanOut

/-- The holders of each chunk; a later placement of a chunk replaces an earlier one. -/
def holders (placements : List ChunkPlacement) : SortedMap ChunkHash (List DeviceId) :=
  placements.foldl (fun map p => map.alter p.chunkHash fun _ => p.deviceIds.keys) .empty

def initialLoad (sources : List SourceCapacity) : SortedMap DeviceId Nat :=
  sources.foldl (fun map s => map.alter s.deviceId fun _ => s.currentLoadBytes.toNat) .empty

def capacities (sources : List SourceCapacity) : SortedMap DeviceId Nat :=
  sources.foldl (fun map s => map.alter s.deviceId fun _ => max s.estimatedBps.toNat 1) .empty

def emptyBuckets (sources : List SourceCapacity) : SortedMap DeviceId (List ChunkHash) :=
  sources.foldl (fun map s => map.alter s.deviceId fun _ => []) .empty

/-- The number of chunks to fetch. -/
def target (manifest : FileManifest) (factorBits : UInt64) : Nat :=
  min (Factor.ceilScaled (manifest.nStripes * manifest.policy.k.toNat) factorBits)
    manifest.chunks.length

structure State where
  load : SortedMap DeviceId Nat
  bucket : SortedMap DeviceId (List ChunkHash)
  assigned : Nat

/-- `a` is projected to take longer than `b`, or as long with a greater id. -/
def laterThan (cap load : SortedMap DeviceId Nat) (chunkBytes : Nat) (a b : DeviceId) : Bool :=
  let lhs := saturatingMul ((load.get? a).getD 0 + chunkBytes) ((cap.get? b).getD 1)
  let rhs := saturatingMul ((load.get? b).getD 0 + chunkBytes) ((cap.get? a).getD 1)
  if lhs = rhs then a > b else lhs > rhs

def pick (cap load : SortedMap DeviceId Nat) (chunkBytes : Nat) (holderList : List DeviceId) :
    Option DeviceId :=
  minBy (laterThan cap load chunkBytes) (holderList.filter fun h => (cap.get? h).isSome)

def assignLoop (holders : SortedMap ChunkHash (List DeviceId)) (cap : SortedMap DeviceId Nat)
    (chunkBytes target : Nat) : State → List ChunkHash → State
  | state, [] => state
  | state, chunk :: rest =>
    if state.assigned ≥ target then state
    else
      match holders.get? chunk with
      | none => assignLoop holders cap chunkBytes target state rest
      | some holderList =>
        match pick cap state.load chunkBytes holderList with
        | none => assignLoop holders cap chunkBytes target state rest
        | some source =>
          assignLoop holders cap chunkBytes target
            { load := state.load.alter source fun old => old.getD 0 + chunkBytes
              bucket := state.bucket.alter source fun old => old.getD [] ++ [chunk]
              assigned := state.assigned + 1 } rest

def assigned (manifest : FileManifest) (placements : List ChunkPlacement)
    (sources : List SourceCapacity) (factorBits : UInt64) : State :=
  assignLoop (holders placements) (capacities sources) manifest.chunkSize.toNat
    (target manifest factorBits) ⟨initialLoad sources, emptyBuckets sources, 0⟩ manifest.chunks

def assignments (chunkSize : Nat) (bucket : SortedMap DeviceId (List ChunkHash)) :
    List FanOutAssignment :=
  ((bucket.items.filter fun entry => !entry.2.isEmpty).map fun (deviceId, chunks) =>
    { sourceDeviceId := deviceId
      chunkHashes := chunks.mergeSort (· ≤ ·)
      estimatedBytes := min (chunks.length * chunkSize) (2 ^ 64 - 1) }).mergeSort
    (·.sourceDeviceId ≤ ·.sourceDeviceId)

end FanOut

open FanOut in
def fanOutPlan (hash : Bytes → Bytes) (manifest : FileManifest) (placements : List ChunkPlacement)
    (sources : List SourceCapacity) (factorBits : UInt64) : Except FileError FanOutPlan := do
  manifest.shapeCheck
  require (sources ≠ []) .fanOutNoSources
  require (¬ (Factor.belowOne factorBits ∨ ¬ Factor.isFinite factorBits))
    (.fanOutBadOverrequestFactor factorBits)
  let final := assigned manifest placements sources factorBits
  return {
    fileId := manifest.fileId hash
    assignments := assignments manifest.chunkSize.toNat final.bucket
    totalChunks := final.assigned }

/-- Who serves what, one pair for each chunk in each assignment. -/
def FanOutPlan.served (plan : FanOutPlan) : List (DeviceId × ChunkHash) :=
  plan.assignments.flatMap fun a => a.chunkHashes.map fun chunk => (a.sourceDeviceId, chunk)

namespace FanOut

/-! ## What the loop assigns -/

/-- The pairs of a map of chunk lists. -/
def pairs (bucket : SortedMap DeviceId (List ChunkHash)) : List (DeviceId × ChunkHash) :=
  bucket.items.flatMap fun entry => entry.2.map fun chunk => (entry.1, chunk)

theorem pairs_push (bucket : SortedMap DeviceId (List ChunkHash)) (source : DeviceId)
    (chunk : ChunkHash) :
    (pairs (bucket.alter source fun old => old.getD [] ++ [chunk])).Perm
      ((source, chunk) :: pairs bucket) := by
  have through : ∀ l : List (DeviceId × List ChunkHash),
      ((SortedMap.alterItems source (fun old => old.getD [] ++ [chunk]) l).flatMap
        fun entry => entry.2.map fun c => (entry.1, c)).Perm
      ((source, chunk) :: l.flatMap fun entry => entry.2.map fun c => (entry.1, c)) := by
    intro l
    induction l with
    | nil => exact List.Perm.refl _
    | cons entry rest ih =>
      obtain ⟨key, chunks⟩ := entry
      simp only [SortedMap.alterItems]
      split
      · exact List.Perm.refl _
      · split
        · next same =>
          subst same
          simp only [List.flatMap_cons, Option.getD_some, List.map_append, List.map_cons,
            List.map_nil, List.append_assoc, List.singleton_append]
          exact List.perm_middle
        · rw [List.flatMap_cons, List.flatMap_cons]
          exact ((List.Perm.refl _).append ih).trans List.perm_middle
  exact through bucket.items

/-- `chunk` has a holder among the listed sources. -/
def available (holders : SortedMap ChunkHash (List DeviceId)) (cap : SortedMap DeviceId Nat)
    (chunk : ChunkHash) : Bool :=
  match holders.get? chunk with
  | none => false
  | some holderList => holderList.any fun h => (cap.get? h).isSome

theorem minBy_eq_none {α : Type} {after : α → α → Bool} {l : List α} :
    minBy after l = none ↔ l = [] := by
  cases l <;> simp [minBy]

theorem minBy_mem {α : Type} {after : α → α → Bool} {l : List α} {least : α}
    (found : minBy after l = some least) : least ∈ l := by
  cases l with
  | nil => cases found
  | cons first rest =>
    cases found
    have through : ∀ (rest : List α) (first : α),
        rest.foldl (fun least next => if after least next then next else least) first ∈
          first :: rest := by
      intro rest
      induction rest with
      | nil =>
        intro first
        exact List.mem_singleton_self _
      | cons next rest ih =>
        intro first
        rw [List.foldl_cons]
        rcases List.mem_cons.mp (ih (if after first next then next else first)) with same | later
        · rw [same]
          split <;> simp
        · exact List.mem_cons_of_mem _ (List.mem_cons_of_mem _ later)
    exact through rest first

theorem pick_eq_none {cap load : SortedMap DeviceId Nat} {chunkBytes : Nat}
    {holderList : List DeviceId} :
    pick cap load chunkBytes holderList = none ↔
      (holderList.any fun h => (cap.get? h).isSome) = false := by
  rw [pick, minBy_eq_none, List.filter_eq_nil_iff, List.any_eq_false]

theorem pick_eq_some {cap load : SortedMap DeviceId Nat} {chunkBytes : Nat}
    {holderList : List DeviceId} {source : DeviceId}
    (picked : pick cap load chunkBytes holderList = some source) :
    source ∈ holderList ∧ (cap.get? source).isSome :=
  List.mem_filter.mp (minBy_mem picked)

/-- `source` may serve `chunk`. -/
def Eligible (holders : SortedMap ChunkHash (List DeviceId)) (cap : SortedMap DeviceId Nat)
    (given : DeviceId × ChunkHash) : Prop :=
  (∃ holderList, holders.get? given.2 = some holderList ∧ given.1 ∈ holderList) ∧
    (cap.get? given.1).isSome

/-- The loop gives the first available chunks, as many as the target still allows, each to a
holder. -/
theorem assignLoop_spec (holders : SortedMap ChunkHash (List DeviceId))
    (cap : SortedMap DeviceId Nat) (chunkBytes target : Nat) (chunks : List ChunkHash)
    (state : State) :
    ∃ given : List (DeviceId × ChunkHash),
      (pairs (assignLoop holders cap chunkBytes target state chunks).bucket).Perm
        (given ++ pairs state.bucket) ∧
      given.map (·.2) = (chunks.filter (available holders cap)).take (target - state.assigned) ∧
      ∀ pair ∈ given, Eligible holders cap pair := by
  induction chunks generalizing state with
  | nil =>
    refine ⟨[], List.Perm.refl _, ?_, fun pair member => absurd member List.not_mem_nil⟩
    rw [List.filter_nil, List.take_nil, List.map_nil]
  | cons chunk rest ih =>
    rw [assignLoop]
    split
    · next full =>
      refine ⟨[], List.Perm.refl _, ?_, fun pair member => absurd member List.not_mem_nil⟩
      rw [Nat.sub_eq_zero_of_le full, List.take_zero, List.map_nil]
    · next more =>
      cases held : holders.get? chunk with
      | none =>
        have skipped : available holders cap chunk = false := by
          rw [available, held]
        rw [List.filter_cons_of_neg (by rw [skipped]; decide)]
        exact ih state
      | some holderList =>
        simp only
        cases picked : pick cap state.load chunkBytes holderList with
        | none =>
          have skipped : available holders cap chunk = false := by
            rw [available, held]
            exact pick_eq_none.mp picked
          rw [List.filter_cons_of_neg (by rw [skipped]; decide)]
          exact ih state
        | some source =>
          have here : available holders cap chunk = true := by
            rw [available, held]
            obtain ⟨member, listed⟩ := pick_eq_some picked
            exact List.any_eq_true.mpr ⟨source, member, listed⟩
          simp only
          obtain ⟨given, gives, order, eligible⟩ := ih
            { load := state.load.alter source fun old => old.getD 0 + chunkBytes
              bucket := state.bucket.alter source fun old => old.getD [] ++ [chunk]
              assigned := state.assigned + 1 }
          refine ⟨(source, chunk) :: given, ?_, ?_, ?_⟩
          · have pushed := (List.Perm.refl given).append (pairs_push state.bucket source chunk)
            exact gives.trans (pushed.trans List.perm_middle)
          · have room : target - state.assigned = target - (state.assigned + 1) + 1 := by omega
            rw [List.filter_cons_of_pos here, room, List.take_succ_cons, List.map_cons, order]
          · intro pair member
            rcases List.mem_cons.mp member with rfl | later
            · obtain ⟨listed, known⟩ := pick_eq_some picked
              exact ⟨⟨holderList, held, listed⟩, known⟩
            · exact eligible pair later

theorem served_assignments (chunkSize : Nat) (bucket : SortedMap DeviceId (List ChunkHash)) :
    ((assignments chunkSize bucket).flatMap fun a =>
      a.chunkHashes.map fun chunk => (a.sourceDeviceId, chunk)).Perm (pairs bucket) := by
  unfold assignments pairs
  refine ((List.mergeSort_perm ..).flatMap_right _).trans ?_
  rw [List.flatMap_map]
  have through : ∀ l : List (DeviceId × List ChunkHash),
      ((l.filter fun entry => !entry.2.isEmpty).flatMap fun entry =>
        (entry.2.mergeSort (· ≤ ·)).map fun chunk => (entry.1, chunk)).Perm
      (l.flatMap fun entry => entry.2.map fun chunk => (entry.1, chunk)) := by
    intro l
    induction l with
    | nil => exact List.Perm.refl _
    | cons entry rest ih =>
      obtain ⟨key, chunks⟩ := entry
      cases chunks with
      | nil => exact ih
      | cons chunk chunks =>
        rw [List.filter_cons_of_pos (by rfl), List.flatMap_cons, List.flatMap_cons]
        exact ((List.mergeSort_perm ..).map _).append ih
  exact through bucket.items

theorem pairs_emptyBuckets (sources : List SourceCapacity) : pairs (emptyBuckets sources) = [] := by
  have through : ∀ (sources : List SourceCapacity) (map : SortedMap DeviceId (List ChunkHash)),
      (∀ entry ∈ map.items, entry.2 = []) →
      ∀ entry ∈ (sources.foldl (fun map s => map.alter s.deviceId fun _ => []) map).items,
        entry.2 = [] := by
    intro sources
    induction sources with
    | nil =>
      intro map blank
      exact blank
    | cons s rest ih =>
      intro map blank
      apply ih
      intro entry member
      have found := SortedMap.get?_of_mem (k := entry.1) (v := entry.2) member
      rw [SortedMap.get?_alter] at found
      split at found
      · exact (Option.some.inj found).symm
      · exact blank entry (SortedMap.mem_of_get? found)
  rw [pairs, List.flatMap_eq_nil_iff]
  intro entry member
  rw [through sources .empty (fun entry member => absurd member List.not_mem_nil) entry member]
  rfl

theorem get?_capacities (sources : List SourceCapacity) (device : DeviceId) :
    ((capacities sources).get? device).isSome = true ↔ ∃ s ∈ sources, s.deviceId = device := by
  have through : ∀ (sources : List SourceCapacity) (map : SortedMap DeviceId Nat),
      ((sources.foldl (fun map s => map.alter s.deviceId fun _ => max s.estimatedBps.toNat 1)
        map).get? device).isSome = true ↔
        (∃ s ∈ sources, s.deviceId = device) ∨ (map.get? device).isSome = true := by
    intro sources
    induction sources with
    | nil =>
      intro map
      simp
    | cons s rest ih =>
      intro map
      rw [List.foldl_cons, ih, SortedMap.get?_alter]
      by_cases here : s.deviceId = device
      · simp [here]
      · simp [here]
  rw [capacities, through]
  simp

/-- `source` is among the devices of some placement of `chunk`. -/
def Holds (placements : List ChunkPlacement) (source : DeviceId) (chunk : ChunkHash) : Prop :=
  ∃ p ∈ placements, p.chunkHash = chunk ∧ source ∈ p.deviceIds.keys

theorem holds_of_holders {placements : List ChunkPlacement} {chunk : ChunkHash}
    {holderList : List DeviceId} {source : DeviceId}
    (found : (holders placements).get? chunk = some holderList) (listed : source ∈ holderList) :
    Holds placements source chunk := by
  have through : ∀ (rest : List ChunkPlacement) (map : SortedMap ChunkHash (List DeviceId)),
      (rest.foldl (fun map p => map.alter p.chunkHash fun _ => p.deviceIds.keys) map).get? chunk =
        some holderList →
      (∃ p ∈ rest, p.chunkHash = chunk ∧ p.deviceIds.keys = holderList) ∨
        map.get? chunk = some holderList := by
    intro rest
    induction rest with
    | nil =>
      intro map here
      exact .inr here
    | cons p rest ih =>
      intro map here
      rcases ih _ here with ⟨q, member, of, keys⟩ | earlier
      · exact .inl ⟨q, List.mem_cons_of_mem _ member, of, keys⟩
      · rw [SortedMap.get?_alter] at earlier
        split at earlier
        · next same => exact .inl ⟨p, List.mem_cons_self, same, Option.some.inj earlier⟩
        · exact .inr earlier
  rcases through placements .empty found with ⟨p, member, of, keys⟩ | nothing
  · exact ⟨p, member, of, keys ▸ listed⟩
  · cases nothing

instance (placements : List ChunkPlacement) (source : DeviceId) (chunk : ChunkHash) :
    Decidable (Holds placements source chunk) :=
  inferInstanceAs (Decidable (∃ p ∈ placements, p.chunkHash = chunk ∧ source ∈ p.deviceIds.keys))

/-- A listed source holds the chunk, by any placement. -/
def Held (placements : List ChunkPlacement) (sources : List SourceCapacity) (chunk : ChunkHash) :
    Prop :=
  ∃ s ∈ sources, Holds placements s.deviceId chunk

instance (placements : List ChunkPlacement) (sources : List SourceCapacity) :
    DecidablePred (Held placements sources) := fun chunk =>
  inferInstanceAs (Decidable (∃ s ∈ sources, Holds placements s.deviceId chunk))

/-- A listed source may serve the chunk, by its last placement. -/
def Available (placements : List ChunkPlacement) (sources : List SourceCapacity)
    (chunk : ChunkHash) : Prop :=
  available (holders placements) (capacities sources) chunk = true

instance (placements : List ChunkPlacement) (sources : List SourceCapacity) :
    DecidablePred (Available placements sources) := fun _ => inferInstanceAs (Decidable (_ = true))

theorem held_of_available {placements : List ChunkPlacement} {sources : List SourceCapacity}
    {chunk : ChunkHash} (here : Available placements sources chunk) :
    Held placements sources chunk := by
  unfold Available available at here
  split at here
  · cases here
  · next holderList found =>
    obtain ⟨source, member, known⟩ := List.any_eq_true.mp here
    obtain ⟨s, listed, same⟩ := (get?_capacities sources source).mp known
    exact ⟨s, listed, same ▸ holds_of_holders found member⟩

def Accepted (factorBits : UInt64) : Prop :=
  ¬ Factor.belowOne factorBits = true ∧ Factor.isFinite factorBits = true

theorem fanOutPlan_eq_ok {hash : Bytes → Bytes} {manifest : FileManifest}
    {placements : List ChunkPlacement} {sources : List SourceCapacity} {factorBits : UInt64}
    {plan : FanOutPlan} :
    fanOutPlan hash manifest placements sources factorBits = .ok plan ↔
      manifest.shapeCheck = .ok () ∧ sources ≠ [] ∧ Accepted factorBits ∧
        { fileId := manifest.fileId hash
          assignments := assignments manifest.chunkSize.toNat
            (assigned manifest placements sources factorBits).bucket
          totalChunks := (assigned manifest placements sources factorBits).assigned } = plan := by
  simp only [fanOutPlan, bind_eq_ok, require_eq_ok, exists_const, pure_eq_ok_iff, Accepted,
    not_or, not_not]
  exact ⟨fun ⟨_, checks⟩ => checks, fun checks => ⟨(), checks⟩⟩

/-- What a plan serves: the first available chunks, each from a listed source that holds it. -/
theorem fanOutPlan_serves {hash : Bytes → Bytes} {manifest : FileManifest}
    {placements : List ChunkPlacement} {sources : List SourceCapacity} {factorBits : UInt64}
    {plan : FanOutPlan}
    (planned : fanOutPlan hash manifest placements sources factorBits = .ok plan) :
    (plan.served.map (·.2)).Perm
        ((manifest.chunks.filter (Available placements sources)).take
          (target manifest factorBits)) ∧
      ∀ pair ∈ plan.served,
        (∃ s ∈ sources, s.deviceId = pair.1) ∧ Holds placements pair.1 pair.2 := by
  obtain ⟨_, _, _, rfl⟩ := fanOutPlan_eq_ok.mp planned
  obtain ⟨given, gives, order, eligible⟩ := assignLoop_spec (holders placements)
    (capacities sources) manifest.chunkSize.toNat (target manifest factorBits) manifest.chunks
    ⟨initialLoad sources, emptyBuckets sources, 0⟩
  rw [pairs_emptyBuckets, List.append_nil] at gives
  have serves := (served_assignments manifest.chunkSize.toNat _).trans gives
  refine ⟨?_, ?_⟩
  · have listed := serves.map Prod.snd
    rw [order] at listed
    have same : (fun chunk => decide (Available placements sources chunk)) =
        available (holders placements) (capacities sources) := by
      funext chunk
      exact Bool.decide_eq_true
    rw [same]
    exact listed
  · intro pair member
    obtain ⟨⟨holderList, found, listed⟩, known⟩ := eligible pair (serves.mem_iff.mp member)
    exact ⟨(get?_capacities sources pair.1).mp known, holds_of_holders found listed⟩

theorem not_available_nil (placements : List ChunkPlacement) (chunk : ChunkHash) :
    ¬ Available placements [] chunk := by
  unfold Available available
  split
  · simp
  · simp [capacities]

end FanOut

/-! ## Stripe by stripe -/

/-- The elements of a part that are among the first `n` of a whole after a filter. -/
theorem length_filter_mem_take {α : Type} [DecidableEq α] {front part back : List α}
    (distinct : (front ++ (part ++ back)).Nodup) (p : α → Bool) (n : Nat) :
    (part.filter (· ∈ ((front ++ (part ++ back)).filter p).take n)).length =
      min (part.filter p).length (n - (front.filter p).length) := by
  have inside : ∀ x ∈ part, x ∈ ((front ++ (part ++ back)).filter p).take n ↔
      x ∈ (part.filter p).take (n - (front.filter p).length) := by
    intro x member
    have notBefore : x ∉ front := fun there =>
      List.disjoint_of_nodup_append distinct there (List.mem_append_left _ member)
    have notAfter : x ∉ back := fun there =>
      List.disjoint_of_nodup_append (List.nodup_append.mp distinct).2.1 member there
    rw [List.filter_append, List.filter_append, List.take_append, List.take_append,
      List.mem_append, List.mem_append]
    constructor
    · rintro (before | here | after)
      · exact absurd (List.mem_of_mem_filter (List.mem_of_mem_take before)) notBefore
      · exact here
      · exact absurd (List.mem_of_mem_filter (List.mem_of_mem_take after)) notAfter
    · intro here
      exact .inr (.inl here)
  have sub : ((part.filter p).take (n - (front.filter p).length)).Sublist part :=
    (List.take_sublist _ _).trans List.filter_sublist
  have partDistinct : part.Nodup := (List.nodup_append.mp (List.nodup_append.mp distinct).2.1).1
  have same : (part.filter (· ∈ ((front ++ (part ++ back)).filter p).take n)).Perm
      ((part.filter p).take (n - (front.filter p).length)) := by
    apply (List.perm_ext_iff_of_nodup (partDistinct.filter _) (partDistinct.sublist sub)).mpr
    intro x
    rw [List.mem_filter, decide_eq_true_iff]
    constructor
    · rintro ⟨member, among⟩
      exact (inside x member).mp among
    · intro among
      exact ⟨sub.subset among, (inside x (sub.subset among)).mpr among⟩
  rw [same.length_eq, List.length_take, Nat.min_comm]

namespace FanOutPlan

/-- The plan has at least `k` chunks of every stripe. -/
def Decodable (manifest : FileManifest) (plan : FanOutPlan) : Prop :=
  ∀ i < manifest.nStripes,
    manifest.policy.k.toNat ≤ ((manifest.stripe i).filter (· ∈ plan.served.map (·.2))).length

/-- Each chunk is assigned to one source, listed and holding it. -/
def ServedOnce (placements : List ChunkPlacement) (sources : List SourceCapacity)
    (plan : FanOutPlan) : Prop :=
  ∀ chunk ∈ plan.served.map (·.2), ∃ source,
    plan.served.filter (·.2 = chunk) = [(source, chunk)] ∧
      (∃ s ∈ sources, s.deviceId = source) ∧ FanOut.Holds placements source chunk

end FanOutPlan

namespace FanOut

/-- The chunks before the last stripe that a listed source may serve. -/
def availableBeforeLast (manifest : FileManifest) (placements : List ChunkPlacement)
    (sources : List SourceCapacity) : Nat :=
  ((manifest.chunks.take ((manifest.nStripes - 1) * manifest.policy.totalShards)).filter
    (Available placements sources)).length

/-- In a plan without repeated chunks each chunk is served once. -/
theorem servedOnce_of_nodup {hash : Bytes → Bytes} {manifest : FileManifest}
    {placements : List ChunkPlacement} {sources : List SourceCapacity} {factorBits : UInt64}
    {plan : FanOutPlan}
    (planned : fanOutPlan hash manifest placements sources factorBits = .ok plan)
    (distinct : (plan.served.map (·.2)).Nodup) : plan.ServedOnce placements sources := by
  intro chunk listed
  obtain ⟨pair, member, rfl⟩ := List.mem_map.mp listed
  obtain ⟨known, holds⟩ := (fanOutPlan_serves planned).2 pair member
  refine ⟨pair.1, ?_, known, holds⟩
  have through : ∀ l : List (DeviceId × ChunkHash), (l.map (·.2)).Nodup → pair ∈ l →
      l.filter (·.2 = pair.2) = [pair] := by
    intro l
    induction l with
    | nil =>
      intro _ here
      cases here
    | cons first rest ih =>
      intro distinct here
      rw [List.map_cons, List.nodup_cons] at distinct
      obtain ⟨fresh, distinct⟩ := distinct
      rcases List.mem_cons.mp here with rfl | later
      · rw [List.filter_cons_of_pos (by simp)]
        congr 1
        apply List.filter_eq_nil_iff.mpr
        intro other member same
        exact fresh (List.mem_map.mpr ⟨other, member, of_decide_eq_true same⟩)
      · have other : ¬ first.2 = pair.2 := by
          intro same
          exact fresh (List.mem_map.mpr ⟨pair, later, same.symm⟩)
        rw [List.filter_cons_of_neg (by simpa using other)]
        exact ih distinct later
  exact through plan.served distinct member

/-- What the plan has of a stripe: what is available there, as far as the target goes after
everything available before it. -/
theorem length_served_stripe {hash : Bytes → Bytes} {manifest : FileManifest}
    {placements : List ChunkPlacement} {sources : List SourceCapacity} {factorBits : UInt64}
    {plan : FanOutPlan}
    (planned : fanOutPlan hash manifest placements sources factorBits = .ok plan)
    (distinct : manifest.chunks.Nodup) (i : Nat) :
    ((manifest.stripe i).filter (· ∈ plan.served.map (·.2))).length =
      min ((manifest.stripe i).filter (Available placements sources)).length
        (target manifest factorBits -
          ((manifest.chunks.take (i * manifest.policy.totalShards)).filter
            (Available placements sources)).length) := by
  have serves := (fanOutPlan_serves planned).1
  have split := manifest.chunks_eq i
  rw [split] at distinct
  rw [← length_filter_mem_take distinct, ← split]
  congr 1
  apply List.filter_congr
  intro chunk _
  rw [decide_eq_decide]
  exact serves.mem_iff

theorem nodup_served {hash : Bytes → Bytes} {manifest : FileManifest}
    {placements : List ChunkPlacement} {sources : List SourceCapacity} {factorBits : UInt64}
    {plan : FanOutPlan}
    (planned : fanOutPlan hash manifest placements sources factorBits = .ok plan)
    (distinct : manifest.chunks.Nodup) : (plan.served.map (·.2)).Nodup :=
  (fanOutPlan_serves planned).1.nodup_iff.mpr
    ((distinct.filter _).sublist (List.take_sublist _ _))

theorem plan_decodable_iff {hash : Bytes → Bytes} {manifest : FileManifest}
    {placements : List ChunkPlacement} {sources : List SourceCapacity} {factorBits : UInt64}
    {plan : FanOutPlan} (checked : manifest.shapeCheck = .ok ())
    (planned : fanOutPlan hash manifest placements sources factorBits = .ok plan)
    (distinct : manifest.chunks.Nodup) :
    plan.Decodable manifest ↔
      (∀ i < manifest.nStripes, manifest.policy.k.toNat ≤
        ((manifest.stripe i).filter (Available placements sources)).length) ∧
      availableBeforeLast manifest placements sources + manifest.policy.k.toNat ≤
        target manifest factorBits := by
  have data := (FileManifest.shapeCheck_eq_ok checked).1
  have some := FileManifest.nStripes_pos checked
  constructor
  · intro decodable
    refine ⟨fun i inside => ?_, ?_⟩
    · have here := decodable i inside
      rw [length_served_stripe planned distinct] at here
      exact here.trans (Nat.min_le_left _ _)
    · have last := decodable (manifest.nStripes - 1) (by omega)
      rw [length_served_stripe planned distinct] at last
      unfold availableBeforeLast
      omega
  · rintro ⟨enough, room⟩ i inside
    rw [length_served_stripe planned distinct]
    have here := enough i inside
    -- what is available before a stripe is available before the last one
    have before : ((manifest.chunks.take (i * manifest.policy.totalShards)).filter
        (Available placements sources)).length ≤
          availableBeforeLast manifest placements sources := by
      have shorter : i * manifest.policy.totalShards ≤
          (manifest.nStripes - 1) * manifest.policy.totalShards :=
        Nat.mul_le_mul_right _ (by omega)
      exact ((List.take_sublist_take_left shorter).filter _).length_le
    omega

/-- **A plan is decodable when the last stripe is reached.**  For a checked manifest with
distinct chunks the planner returns a plan with `k` chunks of every stripe, each with one
source that holds it, if and only if the factor is accepted, every stripe has `k` available
chunks, and the target leaves `k` after all that is available before the last stripe. -/
theorem decodable_iff (hash : Bytes → Bytes) {manifest : FileManifest}
    (checked : manifest.shapeCheck = .ok ()) (distinct : manifest.chunks.Nodup)
    (placements : List ChunkPlacement) (sources : List SourceCapacity) (factorBits : UInt64) :
    (∃ plan, fanOutPlan hash manifest placements sources factorBits = .ok plan ∧
      plan.Decodable manifest ∧ plan.ServedOnce placements sources) ↔
    Accepted factorBits ∧
      (∀ i < manifest.nStripes, manifest.policy.k.toNat ≤
        ((manifest.stripe i).filter (Available placements sources)).length) ∧
      availableBeforeLast manifest placements sources + manifest.policy.k.toNat ≤
        target manifest factorBits := by
  constructor
  · rintro ⟨plan, planned, decodable, _⟩
    obtain ⟨_, _, accepted, _⟩ := fanOutPlan_eq_ok.mp planned
    exact ⟨accepted, (plan_decodable_iff checked planned distinct).mp decodable⟩
  · rintro ⟨accepted, enough, room⟩
    have listed : sources ≠ [] := by
      rintro rfl
      have data := (FileManifest.shapeCheck_eq_ok checked).1
      have first := enough 0 (FileManifest.nStripes_pos checked)
      have nothing : (manifest.stripe 0).filter (Available placements []) = [] := by
        apply List.filter_eq_nil_iff.mpr
        intro chunk _ served
        exact not_available_nil placements chunk (of_decide_eq_true served)
      rw [nothing, List.length_nil] at first
      omega
    obtain ⟨plan, planned⟩ : ∃ plan,
        fanOutPlan hash manifest placements sources factorBits = .ok plan :=
      ⟨_, fanOutPlan_eq_ok.mpr ⟨checked, listed, accepted, rfl⟩⟩
    exact ⟨plan, planned, (plan_decodable_iff checked planned distinct).mpr ⟨enough, room⟩,
      servedOnce_of_nodup planned (nodup_served planned distinct)⟩

/-! ## One stripe -/

/-! ## Two stripes -/

namespace Sample

def device : DeviceId := filled 16 1

def chunk (i : Nat) : ChunkHash := filled 32 (UInt8.ofNat i)

/-- Two stripes of two data shards and a parity shard. -/
def manifest : FileManifest where
  fileSize := 1024
  chunkSize := 256
  chunks := (List.range 6).map chunk
  mime := ascii "x"
  createdUnix := 0
  policy := ⟨2, 1, 1⟩

/-- One device holds everything. -/
def placements : List ChunkPlacement :=
  (List.range 6).map fun i => ⟨chunk i, SortedMap.empty.alter device fun _ => (), 0⟩

def sources : List SourceCapacity := [⟨device, 1000, 0⟩]

/-- `1.0` -/
def one : UInt64 := 0x3FF0000000000000

/-- `2.0` -/
def two : UInt64 := 0x4000000000000000

theorem checked : manifest.shapeCheck = .ok () := rfl

theorem facts :
    manifest.chunks.Nodup ∧
    (∀ i < manifest.nStripes, manifest.policy.k.toNat ≤
      ((manifest.stripe i).filter (Available placements sources)).length) ∧
    (∀ i < manifest.nStripes, manifest.policy.k.toNat ≤
      ((manifest.stripe i).filter (Held placements sources)).length) ∧
    (Factor.belowOne one = false ∧ Factor.isFinite one = true) ∧
    (Factor.belowOne two = false ∧ Factor.isFinite two = true) ∧
    availableBeforeLast manifest placements sources = 3 ∧
    target manifest one = 4 ∧ target manifest two = 6 := by
  decide +kernel

end Sample

/-- With a factor of two every chunk is fetched. -/
theorem decodable_iff_two :
    ∃ plan, fanOutPlan id Sample.manifest Sample.placements Sample.sources Sample.two = .ok plan ∧
      plan.Decodable Sample.manifest ∧ plan.ServedOnce Sample.placements Sample.sources := by
  obtain ⟨distinct, enough, _, _, accepted, before, _, reach⟩ := Sample.facts
  refine (decodable_iff id Sample.checked distinct Sample.placements Sample.sources
    Sample.two).mpr ⟨by simpa [Accepted] using accepted, enough, ?_⟩
  rw [before, reach]
  decide

/-- Everything is held by the one source, but the first stripe's parity shard is fetched in
place of the second stripe's second shard. -/
theorem last_stripe_starved :
    ¬ ∀ (hash : Bytes → Bytes) (manifest : FileManifest) (placements : List ChunkPlacement)
      (sources : List SourceCapacity) (factorBits : UInt64), manifest.shapeCheck = .ok () →
      manifest.chunks.Nodup →
      (∀ i < manifest.nStripes, manifest.policy.k.toNat ≤
        ((manifest.stripe i).filter (Held placements sources)).length) →
      Accepted factorBits →
      ∃ plan, fanOutPlan hash manifest placements sources factorBits = .ok plan ∧
        plan.Decodable manifest ∧ plan.ServedOnce placements sources := by
  intro fetches
  obtain ⟨distinct, _, held, accepted, _, before, reach, _⟩ := Sample.facts
  obtain ⟨plan, planned, decodable, _⟩ := fetches id Sample.manifest Sample.placements
    Sample.sources Sample.one Sample.checked distinct held (by simpa [Accepted] using accepted)
  have room := ((plan_decodable_iff Sample.checked planned distinct).mp decodable).2
  rw [before, reach] at room
  exact absurd room (by decide)

end FanOut

end OneLink.DeviceMesh
