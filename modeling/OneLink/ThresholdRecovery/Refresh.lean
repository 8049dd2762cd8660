/-
# ThresholdRecovery.Refresh -- proactive refresh keeps the secret

A refresh adds a sharing of zero, column by column, so the streams of every
round are a sharing of the first secret (`SharingOf.refreshed`, then
`refreshRounds_sharing` by induction on the rounds).  Splitting and refresh can
only fail for want of randomness, and return once the generator has handed out
enough nonzero bytes.
-/
import OneLink.ThresholdRecovery.Reconstruction

namespace OneLink.ThresholdRecovery

set_option autoImplicit false

open Library Library.Sharing

/-- The byte-wise sum of streams and deltas. -/
def addStreams (streams deltas : List Bytes) : List Bytes :=
  List.zipWith (List.zipWith fun a b => (a.toUInt32 ^^^ b.toUInt32).toUInt8) streams deltas

/-- `refresh_bytes`. -/
def refreshBytes (inStreams : List Bytes) (k n : Nat) (source : ByteSource) :
    Except ShareError (List Bytes × ByteSource) := do
  require (ParamsValid k n) (.invalidParams k n)
  require (inStreams.length = n) (.shareCountMismatch n inStreams.length)
  let count := (inStreams.headD []).length
  require (count ≤ maxSecretBytes) (.secretTooLarge count maxSecretBytes)
  checkLengths count 0 inStreams
  let (zeroStreams, source) ← shareBytesWithNext (List.replicate count 0) k n source
  .ok (addStreams inStreams zeroStreams, source)

/-- Refresh after refresh, each with randomness of its own. -/
def refreshRounds (k n : Nat) : List ByteSource → List Bytes → Except ShareError (List Bytes)
  | [], streams => .ok streams
  | source :: rounds, streams => do
    let (next, _) ← refreshBytes streams k n source
    refreshRounds k n rounds next

/-! ## One round -/

theorem element_sum (a b : UInt8) :
    element (a.toUInt32 ^^^ b.toUInt32).toUInt8 = element a + element b := by
  rw [← word_element, ← word_element, word_xor, toUInt8_word, element_byteOf]

/-- Sharings of two secrets add up to a sharing of their sum; here the second is zero. -/
theorem SharingOf.add {secret : Bytes} {k n : Nat} {streams deltas : List Bytes}
    (sharing : SharingOf secret k n streams)
    (zero : SharingOf (List.replicate secret.length 0) k n deltas) :
    SharingOf secret k n (addStreams streams deltas) where
  count := by rw [addStreams, List.length_zipWith, sharing.count, zero.count, Nat.min_self]
  lengths stream mem := by
    obtain ⟨index, inside, rfl⟩ := List.mem_iff_getElem.1 mem
    simp only [addStreams, List.getElem_zipWith, List.length_zipWith]
    rw [sharing.lengths _ (List.getElem_mem _), zero.lengths _ (List.getElem_mem _),
      List.length_replicate, Nat.min_self]
  columns b inside := by
    obtain ⟨p, smallP, constantP, valuesP⟩ := sharing.columns b inside
    obtain ⟨q, smallQ, constantQ, valuesQ⟩ := zero.columns b (by simpa using inside)
    refine ⟨p + q, (Polynomial.degree_add_le p q).trans_lt (max_lt smallP smallQ), ?_,
      fun index stream found => ?_⟩
    · rw [Polynomial.eval_add, constantP, constantQ, List.getElem_replicate, element_zero, add_zero]
    · rw [addStreams, List.getElem?_zipWith_eq_some] at found
      obtain ⟨old, delta, foundOld, foundDelta, rfl⟩ := found
      obtain ⟨oldByte, readOld, same⟩ := Option.map_eq_some_iff.1 (valuesP index old foundOld)
      obtain ⟨deltaByte, readDelta, sameDelta⟩ :=
        Option.map_eq_some_iff.1 (valuesQ index delta foundDelta)
      rw [List.getElem?_zipWith, readOld, readDelta]
      simp only [Option.map_some, element_sum, same, sameDelta, Polynomial.eval_add]

theorem SharingOf.head_length {secret : Bytes} {k n : Nat} {streams : List Bytes}
    (sharing : SharingOf secret k n streams) (positive : 1 ≤ n) :
    (streams.headD []).length = secret.length := by
  cases shape : streams with
  | nil =>
    have none := sharing.count
    rw [shape, List.length_nil] at none
    omega
  | cons stream rest => exact sharing.lengths stream (shape ▸ List.mem_cons_self)

/-- On a sharing every check passes: a refresh is a split of zero and a sum. -/
theorem SharingOf.refreshBytes_eq {secret : Bytes} {k n : Nat} {streams : List Bytes}
    (sharing : SharingOf secret k n streams) (valid : ParamsValid k n)
    (fits : secret.length ≤ maxSecretBytes) (source : ByteSource) :
    refreshBytes streams k n source =
      (fun run => (addStreams streams run.1, run.2)) <$>
        shareBytesWithNext (List.replicate secret.length 0) k n source := by
  have head := sharing.head_length (Nat.le_trans valid.1 valid.2.1)
  rw [refreshBytes, require_of valid, ok_bind, require_of sharing.count, ok_bind]
  simp only [head]
  rw [require_of fits, ok_bind, checkLengths_ok sharing.lengths, ok_bind]
  rfl

/-- One round on a sharing: the deltas are a sharing of zero, the sums a sharing of the secret. -/
theorem SharingOf.refreshed {secret : Bytes} {k n : Nat} {streams next : List Bytes}
    (sharing : SharingOf secret k n streams) (valid : ParamsValid k n)
    (fits : secret.length ≤ maxSecretBytes) {source left : ByteSource}
    (ran : refreshBytes streams k n source = .ok (next, left)) :
    ∃ deltas, shareBytesWithNext (List.replicate secret.length 0) k n source = .ok (deltas, left) ∧
      SharingOf (List.replicate secret.length 0) k n deltas ∧
      next = addStreams streams deltas ∧ SharingOf secret k n next := by
  rw [sharing.refreshBytes_eq valid fits, map_eq_ok] at ran
  obtain ⟨⟨deltas, after⟩, shared, same⟩ := ran
  simp only [Prod.mk.injEq] at same
  obtain ⟨rfl, rfl⟩ := same
  obtain ⟨_, _, zero⟩ := shareBytesWithNext_sharing shared
  exact ⟨deltas, shared, zero, rfl, sharing.add zero⟩

/-- Every number of rounds. -/
theorem refreshRounds_sharing {secret : Bytes} {k n : Nat} (valid : ParamsValid k n)
    (fits : secret.length ≤ maxSecretBytes) {rounds : List ByteSource} {streams fresh : List Bytes}
    (sharing : SharingOf secret k n streams)
    (ran : refreshRounds k n rounds streams = .ok fresh) : SharingOf secret k n fresh := by
  induction rounds generalizing streams with
  | nil =>
    simp only [refreshRounds, Except.ok.injEq] at ran
    exact ran ▸ sharing
  | cons source rounds ih =>
    simp only [refreshRounds, bind_eq_ok, Prod.exists] at ran
    obtain ⟨next, left, round, rest⟩ := ran
    obtain ⟨_, _, _, _, kept⟩ := sharing.refreshed valid fits round
    exact ih kept rest

/-! ## Runs that return -/

/-- The bytes a generator hands out from its `start`-th on. -/
def handed (next : Nat → UInt8) (start count : Nat) : Bytes :=
  (List.range count).map fun i => next (start + i)

theorem handed_succ (next : Nat → UInt8) (start count : Nat) :
    handed next start (count + 1) = next start :: handed next (start + 1) count := by
  rw [handed, List.range_succ_eq_map, List.map_cons, List.map_map, handed]
  simp only [Function.comp_def, Nat.succ_eq_add_one, Nat.add_zero]
  exact congrArg _ (List.map_congr_left fun i _ => by rw [Nat.add_assoc, Nat.add_comm i])

theorem drawCoefficients_handed (next : Nat → UInt8) (failure : String) (count start more : Nat) :
    drawCoefficients count ⟨handed next start (count + more), failure⟩ =
      .ok (handed next start count, ⟨handed next (start + count) more, failure⟩) := by
  induction count generalizing start with
  | zero => rw [Nat.zero_add]; rfl
  | succ count ih =>
    rw [Nat.add_right_comm, handed_succ, drawCoefficients, ih, ok_bind, handed_succ next start count]
    simp only [Nat.add_comm, Nat.add_left_comm]

/-- The re-roll stops at the next nonzero byte. -/
theorem rerollTop_handed (next : Nat → UInt8) (failure : String) (wait start : Nat) (top : UInt8)
    (nonzero : next (start + wait) ≠ 0) : ∃ used chosen, ∀ more,
      rerollTop failure top (handed next start (used + more)) =
        .ok (chosen, ⟨handed next (start + used) more, failure⟩) := by
  by_cases ready : top ≠ 0
  · exact ⟨0, top, fun more => by rw [rerollTop_of_ne _ ready, Nat.zero_add]; rfl⟩
  rw [ne_eq, not_not] at ready
  induction wait generalizing start top with
  | zero =>
    rw [Nat.add_zero] at nonzero
    refine ⟨1, next start, fun more => ?_⟩
    rw [Nat.add_comm 1, handed_succ, rerollTop, if_pos ready, rerollTop_of_ne _ nonzero]
  | succ wait ih =>
    by_cases settled : next start ≠ 0
    · refine ⟨1, next start, fun more => ?_⟩
      rw [Nat.add_comm 1, handed_succ, rerollTop, if_pos ready, rerollTop_of_ne _ settled]
    · obtain ⟨used, chosen, rolls⟩ := ih (start + 1) (next start)
        (by rwa [Nat.add_right_comm]) (not_not.1 settled)
      refine ⟨used + 1, chosen, fun more => ?_⟩
      rw [Nat.add_right_comm, handed_succ, rerollTop, if_pos ready, rolls, Nat.add_right_comm,
        Nat.add_assoc]

variable {next : Nat → UInt8}

theorem chooseCoefficients_handed (lively : ∀ m, ∃ i, m ≤ i ∧ next i ≠ 0) (failure : String)
    (k start : Nat) : ∃ used tail, ∀ more,
      chooseCoefficients k ⟨handed next start (used + more), failure⟩ =
        .ok (tail, ⟨handed next (start + used) more, failure⟩) := by
  cases top : (handed next start (k - 1)).getLast? with
  | none =>
    refine ⟨k - 1, handed next start (k - 1), fun more => ?_⟩
    rw [chooseCoefficients, drawCoefficients_handed, ok_bind]
    simp only [top]
  | some last =>
    obtain ⟨i, later, nonzero⟩ := lively (start + (k - 1))
    obtain ⟨wait, rfl⟩ := Nat.exists_eq_add_of_le later
    obtain ⟨used, chosen, rolls⟩ := rerollTop_handed next failure wait _ last nonzero
    refine ⟨k - 1 + used, (handed next start (k - 1)).dropLast ++ [chosen], fun more => ?_⟩
    rw [chooseCoefficients, Nat.add_assoc, drawCoefficients_handed, ok_bind]
    simp only [top]
    rw [rolls, ok_bind, Nat.add_assoc]

theorem shareLoop_handed (lively : ∀ m, ∃ i, m ≤ i ∧ next i ≠ 0) (failure : String) (k start : Nat)
    (secret : Bytes) (streams : List Bytes) : ∃ used shared, ∀ more,
      shareLoop k secret streams ⟨handed next start (used + more), failure⟩ =
        .ok (shared, ⟨handed next (start + used) more, failure⟩) := by
  induction secret generalizing start streams with
  | nil => exact ⟨0, streams, fun more => by rw [shareLoop, Nat.zero_add]; rfl⟩
  | cons byte rest ih =>
    obtain ⟨drawn, tail, chooses⟩ := chooseCoefficients_handed lively failure k start
    obtain ⟨used, shared, loops⟩ := ih (start + drawn) (pushColumn (byte :: tail) streams)
    refine ⟨drawn + used, shared, fun more => ?_⟩
    rw [shareLoop, Nat.add_assoc, chooses, ok_bind]
    simp only [loops]
    rw [Nat.add_assoc]

/-- Splitting returns once the generator has handed out enough. -/
theorem shareBytesWithNext_returns (lively : ∀ m, ∃ i, m ≤ i ∧ next i ≠ 0) (failure : String)
    {k n : Nat} (valid : ParamsValid k n) {secret : Bytes} (fits : secret.length ≤ maxSecretBytes) :
    ∃ used streams, ∀ more, ∃ left,
      shareBytesWithNext secret k n ⟨handed next 0 (used + more), failure⟩ = .ok (streams, left) := by
  obtain ⟨used, shared, loops⟩ := shareLoop_handed lively failure k 0 secret (List.replicate n [])
  refine ⟨used, shared, fun more => ⟨⟨handed next (0 + used) more, failure⟩, ?_⟩⟩
  rw [shareBytesWithNext, require_of valid, ok_bind, require_of fits, ok_bind, loops more]

/-- So does a refresh of a sharing. -/
theorem SharingOf.refresh_returns (lively : ∀ m, ∃ i, m ≤ i ∧ next i ≠ 0) (failure : String)
    {secret : Bytes} {k n : Nat} {streams : List Bytes} (sharing : SharingOf secret k n streams)
    (valid : ParamsValid k n) (fits : secret.length ≤ maxSecretBytes) :
    ∃ used fresh, ∀ more, ∃ left,
      refreshBytes streams k n ⟨handed next 0 (used + more), failure⟩ = .ok (fresh, left) := by
  obtain ⟨used, deltas, shares⟩ := shareBytesWithNext_returns lively failure valid
    (by rwa [List.length_replicate] : (List.replicate secret.length (0 : UInt8)).length ≤ _)
  refine ⟨used, addStreams streams deltas, fun more => ?_⟩
  obtain ⟨left, ran⟩ := shares more
  exact ⟨left, by rw [sharing.refreshBytes_eq valid fits, ran]; rfl⟩

/-! ## Any `k` streams of any round -/

/-- Any `k` or more of the streams, in any order, reconstruct to the secret. -/
def Reconstructs (secret : Bytes) (k n : Nat) (streams : List Bytes) : Prop :=
  ∀ picks : List Nat, picks.Nodup → (∀ index ∈ picks, index < n) → k ≤ picks.length →
    reconstructBytes (picks.map position) (picks.map fun index => streams.getD index []) k =
      .ok secret

/-- **The secret survives every number of refreshes**: any `k` streams of a round, in any order,
reconstruct it; the deltas of the next round are a sharing of zero with the same threshold; and a
generator that never runs dry of nonzero bytes makes the split and every round return. -/
theorem refresh_preserves_secret {secret : Bytes} {k n : Nat} {source left : ByteSource}
    {streams fresh : List Bytes} {rounds : List ByteSource}
    (shared : shareBytesWithNext secret k n source = .ok (streams, left))
    (refreshed : refreshRounds k n rounds streams = .ok fresh) :
    Reconstructs secret k n fresh ∧
    (∀ source next left, refreshBytes fresh k n source = .ok (next, left) → ∃ deltas,
      shareBytesWithNext (List.replicate secret.length 0) k n source = .ok (deltas, left) ∧
      next = addStreams fresh deltas ∧
      Reconstructs (List.replicate secret.length 0) k n deltas) ∧
    ∀ (next : Nat → UInt8) (failure : String), (∀ m, ∃ i, m ≤ i ∧ next i ≠ 0) →
      (∃ used streams, ∀ more, ∃ left,
        shareBytesWithNext secret k n ⟨handed next 0 (used + more), failure⟩ = .ok (streams, left)) ∧
      ∃ used again, ∀ more, ∃ left,
        refreshBytes fresh k n ⟨handed next 0 (used + more), failure⟩ = .ok (again, left) := by
  obtain ⟨valid, fits, sharing⟩ := shareBytesWithNext_sharing shared
  have current := refreshRounds_sharing valid fits sharing refreshed
  refine ⟨fun picks distinct known enough => current.reconstructs valid fits distinct known enough,
    fun source next left ran => ?_, fun next failure lively =>
      ⟨shareBytesWithNext_returns lively failure valid fits,
        current.refresh_returns lively failure valid fits⟩⟩
  obtain ⟨deltas, split, zero, same, _⟩ := current.refreshed valid fits ran
  have zeroFits : (List.replicate secret.length (0 : UInt8)).length ≤ maxSecretBytes := by
    rwa [List.length_replicate]
  exact ⟨deltas, split, same, fun picks distinct known enough =>
    zero.reconstructs valid zeroFits distinct known enough⟩

/-- Two of three holders, and two rounds; the first draw of the second one is re-rolled. -/
theorem refresh_preserves_secret_two_of_three :
    Reconstructs [7, 9] 2 3 [[4, 5], [1, 17], [2, 29]] :=
  (@refresh_preserves_secret [7, 9] 2 3 ⟨[1, 2], ""⟩ ⟨[], ""⟩ [[6, 11], [5, 13], [4, 15]] _
    [⟨[5, 6], ""⟩, ⟨[0, 7, 8], ""⟩] (by decide +kernel) (by decide +kernel)).1

end OneLink.ThresholdRecovery
