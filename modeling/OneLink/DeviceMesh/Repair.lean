/-
# DeviceMesh.Repair — new holders for the chunks that have too few

`repair_plan` goes through the placements in the order of the chunk hashes and gives each chunk
that is short of holders one device of the mesh after another: the least loaded one that neither
holds the chunk nor was given it.  It stops at the policy's number of devices, or when no device
is left (`fillLoop_spec`).  What one chunk gets is not changed by the chunks after it
(`planLoop_spec`).
-/
import OneLink.DeviceMesh.FanOut

namespace OneLink.DeviceMesh

open Library

set_option autoImplicit false

/-- Number of additional shard-copies needed to satisfy the rule. -/
def ErasurePolicy.neededForDurability (policy : ErasurePolicy) (currentHolders : Nat) : Nat :=
  policy.minDevicesPerShard.toNat - currentHolders

namespace ChunkPlacement

def addHolder (placement : ChunkPlacement) (deviceId : DeviceId) (attestUnix : UInt64) :
    ChunkPlacement :=
  { placement with
    deviceIds := placement.deviceIds.alter deviceId fun _ => ()
    lastAttestUnix :=
      if attestUnix > placement.lastAttestUnix then attestUnix else placement.lastAttestUnix }

def holderCount (placement : ChunkPlacement) : Nat := placement.deviceIds.keys.length

end ChunkPlacement

structure RepairAssignment where
  chunkHash : ChunkHash
  assignedTo : DeviceId
  deriving DecidableEq

/-- How many chunks each device holds. -/
def deviceLoadMap (placements : List ChunkPlacement) : SortedMap DeviceId Nat :=
  placements.foldl
    (fun load p => p.deviceIds.keys.foldl (fun load d => load.alter d fun old => old.getD 0 + 1) load)
    .empty

namespace Repair

structure State where
  load : SortedMap DeviceId Nat
  out : List RepairAssignment

def alreadyAssigned (out : List RepairAssignment) (chunk : ChunkHash) : List DeviceId :=
  (out.filter (·.chunkHash = chunk)).map (·.assignedTo)

/-- The key of `a`, its load and its id, is greater than the key of `b`. -/
def heavier (load : SortedMap DeviceId Nat) (a b : DeviceId) : Bool :=
  let loadA := (load.get? a).getD 0
  let loadB := (load.get? b).getD 0
  if loadA = loadB then a > b else loadA > loadB

/-- The devices of the mesh that do not hold the chunk. -/
def eligible (meshDevices : SortedMap DeviceId Unit) (placement : ChunkPlacement) : List DeviceId :=
  meshDevices.keys.filter (· ∉ placement.deviceIds.keys)

def candidate (meshDevices : SortedMap DeviceId Unit) (placement : ChunkPlacement) (state : State) :
    Option DeviceId :=
  minBy (heavier state.load)
    ((eligible meshDevices placement).filter
      (· ∉ alreadyAssigned state.out placement.chunkHash))

def assign (placement : ChunkPlacement) (state : State) (pick : DeviceId) : State :=
  { load := state.load.alter pick fun old => old.getD 0 + 1
    out := state.out ++ [⟨placement.chunkHash, pick⟩] }

/-- `for _ in 0..need` -/
def fillLoop (meshDevices : SortedMap DeviceId Unit) (placement : ChunkPlacement) :
    Nat → State → State
  | 0, state => state
  | need + 1, state =>
    match candidate meshDevices placement state with
    | none => state
    | some pick => fillLoop meshDevices placement need (assign placement state pick)

def planLoop (meshDevices : SortedMap DeviceId Unit) (policy : ErasurePolicy) :
    List ChunkPlacement → State → State
  | [], state => state
  | p :: rest, state =>
    planLoop meshDevices policy rest
      (fillLoop meshDevices p (policy.neededForDurability p.holderCount) state)

/-- Every device of the mesh has an entry, if only a zero. -/
def withMesh (meshDevices : SortedMap DeviceId Unit) (load : SortedMap DeviceId Nat) :
    SortedMap DeviceId Nat :=
  meshDevices.keys.foldl (fun load d => load.alter d fun old => old.getD 0) load

end Repair

open Repair in
def repairPlan (placements : List ChunkPlacement) (meshDevices : SortedMap DeviceId Unit)
    (policy : ErasurePolicy) : List RepairAssignment :=
  (planLoop meshDevices policy (placements.mergeSort (·.chunkHash ≤ ·.chunkHash))
    ⟨withMesh meshDevices (deviceLoadMap placements), []⟩).out

/-- A placement after its chunk's assignments have been carried out. -/
def ChunkPlacement.repaired (plan : List RepairAssignment) (attestUnix : UInt64)
    (placement : ChunkPlacement) : ChunkPlacement :=
  (Repair.alreadyAssigned plan placement.chunkHash).foldl
    (fun p deviceId => p.addHolder deviceId attestUnix) placement

namespace Repair

/-! ## One chunk -/

@[simp] theorem alreadyAssigned_append (out more : List RepairAssignment) (chunk : ChunkHash) :
    alreadyAssigned (out ++ more) chunk = alreadyAssigned out chunk ++ alreadyAssigned more chunk := by
  simp [alreadyAssigned]

@[simp] theorem alreadyAssigned_map_self (chunk : ChunkHash) (given : List DeviceId) :
    alreadyAssigned (given.map (RepairAssignment.mk chunk)) chunk = given := by
  rw [alreadyAssigned, List.filter_eq_self.mpr]
  · rw [List.map_map]
    exact List.map_id _
  · intro a member
    obtain ⟨_, _, rfl⟩ := List.mem_map.mp member
    exact decide_eq_true rfl

theorem alreadyAssigned_map_of_ne {chunk other : ChunkHash} (apart : other ≠ chunk)
    (given : List DeviceId) :
    alreadyAssigned (given.map (RepairAssignment.mk other)) chunk = [] := by
  rw [alreadyAssigned, List.filter_eq_nil_iff.mpr, List.map_nil]
  intro a member
  obtain ⟨_, _, rfl⟩ := List.mem_map.mp member
  simpa using apart

theorem nodup_eligible (meshDevices : SortedMap DeviceId Unit) (placement : ChunkPlacement) :
    (eligible meshDevices placement).Nodup :=
  meshDevices.nodup_keys.filter _

theorem candidate_eq_some {meshDevices : SortedMap DeviceId Unit} {placement : ChunkPlacement}
    {state : State} {pick : DeviceId} (found : candidate meshDevices placement state = some pick) :
    pick ∈ eligible meshDevices placement ∧
      pick ∉ alreadyAssigned state.out placement.chunkHash := by
  simpa using List.mem_filter.mp (FanOut.minBy_mem found)

/-- After a pick one device less is left. -/
theorem length_left {devices : List DeviceId} (distinct : devices.Nodup) {given : List DeviceId}
    {pick : DeviceId} (listed : pick ∈ devices) (fresh : pick ∉ given) :
    (devices.filter (· ∉ given)).length = (devices.filter (· ∉ given ++ [pick])).length + 1 := by
  have left : pick ∈ devices.filter (· ∉ given) := List.mem_filter.mpr ⟨listed, by simpa using fresh⟩
  have without : devices.filter (· ∉ given ++ [pick]) = (devices.filter (· ∉ given)).erase pick := by
    rw [(distinct.filter _).erase_eq_filter, List.filter_filter]
    apply List.filter_congr
    intro device _
    rw [Bool.eq_iff_iff, Bool.and_eq_true, bne_iff_ne]
    simp [and_comm]
  rw [without, List.length_erase_of_mem left]
  exact (Nat.sub_add_cancel (List.length_pos_of_mem left)).symm

/-- The loop gives the chunk devices that do not have it yet, each once, until `need` are given
or none is left. -/
theorem fillLoop_spec (meshDevices : SortedMap DeviceId Unit) (placement : ChunkPlacement)
    (need : Nat) (state : State) :
    ∃ given : List DeviceId,
      (fillLoop meshDevices placement need state).out =
        state.out ++ given.map (RepairAssignment.mk placement.chunkHash) ∧
      given.Nodup ∧
      (∀ device ∈ given, device ∈ eligible meshDevices placement ∧
        device ∉ alreadyAssigned state.out placement.chunkHash) ∧
      given.length = min need ((eligible meshDevices placement).filter
        (· ∉ alreadyAssigned state.out placement.chunkHash)).length := by
  induction need generalizing state with
  | zero => exact ⟨[], by simp [fillLoop], List.nodup_nil, by simp, by simp⟩
  | succ need ih =>
    rw [fillLoop]
    cases found : candidate meshDevices placement state with
    | none =>
      have nobody := FanOut.minBy_eq_none.mp found
      refine ⟨[], by simp, List.nodup_nil, by simp, ?_⟩
      rw [nobody, List.length_nil, Nat.min_zero]
    | some pick =>
      obtain ⟨listed, fresh⟩ := candidate_eq_some found
      obtain ⟨given, out, distinct, new, many⟩ := ih (assign placement state pick)
      have assigned : alreadyAssigned (assign placement state pick).out placement.chunkHash =
          alreadyAssigned state.out placement.chunkHash ++ [pick] := by
        rw [assign, alreadyAssigned_append]
        exact congrArg _ (alreadyAssigned_map_self placement.chunkHash [pick])
      rw [assigned] at new many
      refine ⟨pick :: given, ?_, ?_, ?_, ?_⟩
      · show (fillLoop meshDevices placement need (assign placement state pick)).out = _
        rw [out, assign, List.append_assoc]
        rfl
      · refine List.nodup_cons.mpr ⟨?_, distinct⟩
        intro again
        exact (new pick again).2 (by simp)
      · intro device member
        rcases List.mem_cons.mp member with rfl | later
        · exact ⟨listed, fresh⟩
        · exact ⟨(new device later).1, fun before => (new device later).2 (by simp [before])⟩
      · have step := length_left (nodup_eligible meshDevices placement) listed fresh
        rw [List.length_cons, many]
        omega

/-! ## All chunks -/

/-- What the plan gives a chunk: as many devices as it needs, or all that are left. -/
structure Filled (meshDevices : SortedMap DeviceId Unit) (policy : ErasurePolicy)
    (placement : ChunkPlacement) (given : List DeviceId) : Prop where
  distinct : given.Nodup
  allowed : ∀ device ∈ given, device ∈ eligible meshDevices placement
  many : given.length = min (policy.neededForDurability placement.holderCount)
    (eligible meshDevices placement).length

/-- The loop fills every chunk of the list, and leaves the other chunks alone. -/
theorem planLoop_spec (meshDevices : SortedMap DeviceId Unit) (policy : ErasurePolicy)
    (placements : List ChunkPlacement) (distinct : (placements.map (·.chunkHash)).Nodup)
    (state : State) (fresh : ∀ p ∈ placements, alreadyAssigned state.out p.chunkHash = []) :
    (∀ p ∈ placements, Filled meshDevices policy p
      (alreadyAssigned (planLoop meshDevices policy placements state).out p.chunkHash)) ∧
    (∀ chunk ∉ placements.map (·.chunkHash),
      alreadyAssigned (planLoop meshDevices policy placements state).out chunk =
        alreadyAssigned state.out chunk) := by
  induction placements generalizing state with
  | nil => exact ⟨by simp, fun _ _ => rfl⟩
  | cons p rest ih =>
    obtain ⟨other, tail⟩ := List.nodup_cons.mp distinct
    obtain ⟨given, out, once, new, many⟩ :=
      fillLoop_spec meshDevices p (policy.neededForDurability p.holderCount) state
    rw [fresh p List.mem_cons_self] at new many
    have apart : ∀ chunk, p.chunkHash ≠ chunk → alreadyAssigned
        (fillLoop meshDevices p (policy.neededForDurability p.holderCount) state).out chunk =
          alreadyAssigned state.out chunk := by
      intro chunk differs
      rw [out, alreadyAssigned_append, alreadyAssigned_map_of_ne differs, List.append_nil]
    obtain ⟨filled, kept⟩ := ih tail
      (fillLoop meshDevices p (policy.neededForDurability p.holderCount) state) (by
        intro q later
        rw [apart q.chunkHash fun same => other (List.mem_map.mpr ⟨q, later, same.symm⟩)]
        exact fresh q (List.mem_cons_of_mem _ later))
    constructor
    · intro q member
      rcases List.mem_cons.mp member with rfl | later
      · have mine : alreadyAssigned (planLoop meshDevices policy (q :: rest) state).out q.chunkHash =
            given := by
          rw [planLoop, kept q.chunkHash other, out, alreadyAssigned_append,
            fresh q List.mem_cons_self, alreadyAssigned_map_self, List.nil_append]
        rw [mine]
        exact ⟨once, fun device here => (new device here).1, by simpa using many⟩
      · exact filled q later
    · intro chunk unlisted
      rw [List.map_cons, List.mem_cons, not_or] at unlisted
      rw [planLoop, kept chunk unlisted.2, apart chunk (Ne.symm unlisted.1)]

theorem repairPlan_spec (meshDevices : SortedMap DeviceId Unit) (policy : ErasurePolicy)
    {placements : List ChunkPlacement} (distinct : (placements.map (·.chunkHash)).Nodup) :
    (∀ p ∈ placements, Filled meshDevices policy p
      (alreadyAssigned (repairPlan placements meshDevices policy) p.chunkHash)) ∧
    (∀ chunk ∉ placements.map (·.chunkHash),
      alreadyAssigned (repairPlan placements meshDevices policy) chunk = []) := by
  have sorted : (placements.mergeSort (·.chunkHash ≤ ·.chunkHash)).Perm placements :=
    List.mergeSort_perm ..
  obtain ⟨filled, kept⟩ := planLoop_spec meshDevices policy _
    ((sorted.map _).nodup_iff.mpr distinct)
    ⟨withMesh meshDevices (deviceLoadMap placements), []⟩ fun _ _ => rfl
  constructor
  · intro p listed
    exact filled p (sorted.mem_iff.mpr listed)
  · intro chunk unlisted
    exact kept chunk fun member => unlisted ((sorted.map _).mem_iff.mp member)

/-- A plan that gives no chunk twice to a device has no assignment twice. -/
theorem nodup_of_alreadyAssigned {plan : List RepairAssignment}
    (once : ∀ chunk, (alreadyAssigned plan chunk).Nodup) : plan.Nodup := by
  induction plan with
  | nil => exact List.nodup_nil
  | cons a rest ih =>
    have split : ∀ chunk, alreadyAssigned (a :: rest) chunk =
        alreadyAssigned [a] chunk ++ alreadyAssigned rest chunk :=
      fun chunk => alreadyAssigned_append [a] rest chunk
    refine List.nodup_cons.mpr ⟨?_, ih fun chunk => ?_⟩
    · intro again
      have given : a.assignedTo ∈ alreadyAssigned rest a.chunkHash :=
        List.mem_map_of_mem (List.mem_filter.mpr ⟨again, decide_eq_true rfl⟩)
      have mine : a.assignedTo ∈ alreadyAssigned [a] a.chunkHash :=
        List.mem_map_of_mem (List.mem_filter.mpr ⟨List.mem_singleton_self a, decide_eq_true rfl⟩)
      have all := once a.chunkHash
      rw [split] at all
      exact List.disjoint_of_nodup_append all mine given
    · have all := once chunk
      rw [split] at all
      exact (List.nodup_append.mp all).2.1

/-! ## The order of the placements -/

theorem deviceLoadMap_perm {placements placements' : List ChunkPlacement}
    (same : placements.Perm placements') : deviceLoadMap placements = deviceLoadMap placements' := by
  have flat : ∀ (l : List ChunkPlacement) (load : SortedMap DeviceId Nat),
      l.foldl (fun load p => p.deviceIds.keys.foldl
        (fun load d => load.alter d fun old => old.getD 0 + 1) load) load =
      (l.flatMap (·.deviceIds.keys)).foldl (fun load d => load.alter d fun old => old.getD 0 + 1)
        load := by
    intro l
    induction l with
    | nil => exact fun _ => rfl
    | cons p rest ih =>
      intro load
      rw [List.foldl_cons, ih, List.flatMap_cons, List.foldl_append]
  rw [deviceLoadMap, deviceLoadMap, flat, flat]
  apply (same.flatMap_right _).foldl_eq'
  intro d _ d' _ load
  exact SortedMap.alter_right_comm (fun _ _ => rfl) load

theorem sorted_perm {placements placements' : List ChunkPlacement}
    (distinct : (placements.map (·.chunkHash)).Nodup) (same : placements.Perm placements') :
    placements.mergeSort (·.chunkHash ≤ ·.chunkHash) =
      placements'.mergeSort (·.chunkHash ≤ ·.chunkHash) := by
  have trans : ∀ p q r : ChunkPlacement, decide (p.chunkHash ≤ q.chunkHash) = true →
      decide (q.chunkHash ≤ r.chunkHash) = true → decide (p.chunkHash ≤ r.chunkHash) = true := by
    intro p q r first second
    exact decide_eq_true ((of_decide_eq_true first).trans (of_decide_eq_true second))
  have total : ∀ p q : ChunkPlacement,
      (decide (p.chunkHash ≤ q.chunkHash) || decide (q.chunkHash ≤ p.chunkHash)) = true := by
    intro p q
    rw [Bool.or_eq_true, decide_eq_true_iff, decide_eq_true_iff]
    exact le_total p.chunkHash q.chunkHash
  have shuffled : (placements.mergeSort (·.chunkHash ≤ ·.chunkHash)).Perm
      (placements'.mergeSort (·.chunkHash ≤ ·.chunkHash)) :=
    (List.mergeSort_perm ..).trans (same.trans (List.mergeSort_perm ..).symm)
  refine shuffled.eq_of_pairwise ?_ (List.pairwise_mergeSort trans total _)
    (List.pairwise_mergeSort trans total _)
  -- two placements of one chunk are one placement
  intro p q left right below above
  have chunk : p.chunkHash = q.chunkHash :=
    le_antisymm (of_decide_eq_true below) (of_decide_eq_true above)
  have here : p ∈ placements := (List.mergeSort_perm ..).mem_iff.mp left
  have there : q ∈ placements := same.mem_iff.mpr ((List.mergeSort_perm ..).mem_iff.mp right)
  exact List.inj_on_of_nodup_map distinct here there chunk

theorem repairPlan_perm {placements placements' : List ChunkPlacement}
    (distinct : (placements.map (·.chunkHash)).Nodup) (same : placements.Perm placements')
    (meshDevices : SortedMap DeviceId Unit) (policy : ErasurePolicy) :
    repairPlan placements meshDevices policy = repairPlan placements' meshDevices policy := by
  rw [repairPlan, repairPlan, sorted_perm distinct same, deviceLoadMap_perm same]

/-! ## The holders after the repair -/

theorem mem_addHolder {placement : ChunkPlacement} {added deviceId : DeviceId}
    {attestUnix : UInt64} :
    deviceId ∈ (placement.addHolder added attestUnix).deviceIds.keys ↔
      added = deviceId ∨ deviceId ∈ placement.deviceIds.keys := by
  rw [SortedMap.mem_keys, SortedMap.mem_keys]
  show (∃ v, (placement.deviceIds.alter added fun _ => ()).get? deviceId = some v) ↔ _
  rw [SortedMap.get?_alter]
  split
  · next same => exact iff_of_true ⟨(), rfl⟩ (.inl same)
  · next apart => exact ⟨.inr, fun either => either.resolve_left apart⟩

theorem mem_foldl_addHolder (given : List DeviceId) (attestUnix : UInt64)
    (placement : ChunkPlacement) (deviceId : DeviceId) :
    deviceId ∈ (given.foldl (fun p d => p.addHolder d attestUnix) placement).deviceIds.keys ↔
      deviceId ∈ placement.deviceIds.keys ∨ deviceId ∈ given := by
  induction given generalizing placement with
  | nil => simp
  | cons first rest ih =>
    rw [List.foldl_cons, ih, mem_addHolder, List.mem_cons]
    tauto

theorem holderCount_eq_card (placement : ChunkPlacement) :
    placement.holderCount = placement.deviceIds.keys.toFinset.card :=
  (List.toFinset_card_of_nodup placement.deviceIds.nodup_keys).symm

theorem holderCount_foldl (given : List DeviceId) (distinct : given.Nodup) (attestUnix : UInt64)
    (placement : ChunkPlacement) (new : ∀ device ∈ given, device ∉ placement.deviceIds.keys) :
    (given.foldl (fun p d => p.addHolder d attestUnix) placement).holderCount =
      placement.holderCount + given.length := by
  have union : (given.foldl (fun p d => p.addHolder d attestUnix)
      placement).deviceIds.keys.toFinset = placement.deviceIds.keys.toFinset ∪ given.toFinset := by
    ext device
    simp [mem_foldl_addHolder]
  have apart : Disjoint placement.deviceIds.keys.toFinset given.toFinset := by
    rw [Finset.disjoint_left]
    intro device held here
    exact new device (List.mem_toFinset.mp here) (List.mem_toFinset.mp held)
  rw [holderCount_eq_card, union, Finset.card_union_of_disjoint apart, ← holderCount_eq_card,
    List.toFinset_card_of_nodup distinct]

/-- The holders and the rest of the mesh. -/
theorem card_holders_union (meshDevices : SortedMap DeviceId Unit) (placement : ChunkPlacement) :
    (placement.deviceIds.keys.toFinset ∪ meshDevices.keys.toFinset).card =
      placement.holderCount + (eligible meshDevices placement).length := by
  have rest : meshDevices.keys.toFinset \ placement.deviceIds.keys.toFinset =
      (eligible meshDevices placement).toFinset := by
    ext device
    simp [eligible]
  rw [← Finset.union_sdiff_self_eq_union, rest, Finset.card_union_of_disjoint,
    ← holderCount_eq_card, List.toFinset_card_of_nodup (nodup_eligible meshDevices placement)]
  rw [← rest]
  exact Finset.disjoint_sdiff

/-- **A repair reaches the policy's number of devices, or every device of the mesh.**  It takes
no holder away, gives a chunk only to devices that do not hold it, to none of them twice, and
does not depend on the order of the placements. -/
theorem repairPlan_reaches_target (placements : List ChunkPlacement)
    (meshDevices : SortedMap DeviceId Unit) (policy : ErasurePolicy) (attestUnix : UInt64)
    (distinct : (placements.map (·.chunkHash)).Nodup) :
    (∀ p ∈ placements,
      (p.repaired (repairPlan placements meshDevices policy) attestUnix).holderCount =
        max p.holderCount (min policy.minDevicesPerShard.toNat
          (p.deviceIds.keys.toFinset ∪ meshDevices.keys.toFinset).card)) ∧
    (∀ p ∈ placements, ∀ a ∈ repairPlan placements meshDevices policy,
      a.chunkHash = p.chunkHash → a.assignedTo ∉ p.deviceIds.keys) ∧
    (repairPlan placements meshDevices policy).Nodup ∧
    ∀ placements', placements.Perm placements' →
      repairPlan placements' meshDevices policy = repairPlan placements meshDevices policy := by
  refine ⟨?_, ?_, ?_, ?_⟩
  · intro p listed
    obtain ⟨once, allowed, many⟩ := (repairPlan_spec meshDevices policy distinct).1 p listed
    rw [ChunkPlacement.repaired, holderCount_foldl _ once attestUnix p, many, card_holders_union,
      ErasurePolicy.neededForDurability]
    · omega
    · intro device given
      simpa using (List.mem_filter.mp (allowed device given)).2
  · intro p listed a planned chunk
    have given : a.assignedTo ∈
        alreadyAssigned (repairPlan placements meshDevices policy) p.chunkHash :=
      List.mem_map_of_mem (List.mem_filter.mpr ⟨planned, decide_eq_true chunk⟩)
    simpa using (List.mem_filter.mp
      (((repairPlan_spec meshDevices policy distinct).1 p listed).allowed _ given)).2
  · apply nodup_of_alreadyAssigned
    intro chunk
    by_cases listed : chunk ∈ placements.map (·.chunkHash)
    · obtain ⟨p, member, rfl⟩ := List.mem_map.mp listed
      exact ((repairPlan_spec meshDevices policy distinct).1 p member).distinct
    · rw [(repairPlan_spec meshDevices policy distinct).2 chunk listed]
      exact List.nodup_nil
  · intro placements' same
    exact (repairPlan_perm distinct same meshDevices policy).symm

/-- Two chunks, the second with one holder of three devices, and a target of three. -/
theorem repairPlan_reaches_target_two :
    let device (n : Nat) : DeviceId := ⟨List.replicate 16 (UInt8.ofNat n), by simp⟩
    let chunk (n : Nat) : ChunkHash := ⟨List.replicate 32 (UInt8.ofNat n), by simp⟩
    let mesh : SortedMap DeviceId Unit :=
      ((SortedMap.empty.alter (device 1) fun _ => ()).alter (device 2) fun _ => ()).alter
        (device 3) fun _ => ()
    let placements : List ChunkPlacement := [⟨chunk 1, .empty, 0⟩,
      (⟨chunk 2, .empty, 0⟩ : ChunkPlacement).addHolder (device 2) 5]
    ∀ p ∈ placements, (p.repaired (repairPlan placements mesh ⟨2, 1, 3⟩) 9).holderCount = 3 := by
  intro device chunk mesh placements p listed
  rw [(repairPlan_reaches_target placements mesh ⟨2, 1, 3⟩ 9 (by decide)).1 p listed]
  revert p
  decide

end Repair

end OneLink.DeviceMesh
