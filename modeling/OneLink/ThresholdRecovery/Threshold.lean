/-
# ThresholdRecovery.Threshold -- enough shares recover, one fewer say nothing

What the pure Python module promises, on every input it accepts.  Shares taken
from a split lie on polynomials of degree below the threshold, so any threshold
of them interpolates the secret (`combine_split`), also after their wire form.
One share fewer leaves every candidate secret exactly one string of randomness
(`split_hides`): the source reads each coefficient byte once and evaluates the
group of every secret byte by itself, so the strings are put together group by
group.
-/
import Mathlib.Data.FinEnum
import Mathlib.Data.Fintype.Vector
import OneLink.ThresholdRecovery.Interop
import OneLink.ThresholdRecovery.Secrecy

namespace OneLink.ThresholdRecovery.Threshold

set_option autoImplicit false

open Library Library.Sharing

/-! ## The wire form of a share -/

/-- `Share.to_bytes`. -/
def Share.toBytes (s : Share) : Except ThresholdError Bytes := do
  require (1 ≤ s.x ∧ s.x ≤ 255) (.valueError s!"share index out of range: {s.x}")
  .ok (UInt8.ofNat s.x.toNat :: s.y)

/-- `Share.from_bytes`. -/
def Share.fromBytes : Bytes → Except ThresholdError Share
  | index :: byte :: rest => .ok ⟨index.toNat, byte :: rest⟩
  | _ => .error (.valueError "share blob too short")

/-- `combine_master_key`. -/
def combineMasterKey (shareBlobs : List Bytes) : Except ThresholdError Bytes := do
  let shares ← shareBlobs.mapM Share.fromBytes
  combine shares

theorem fromBytes_toBytes {s : Share} (inRange : 1 ≤ s.x ∧ s.x ≤ 255) (nonempty : s.y ≠ []) :
    s.toBytes = .ok (UInt8.ofNat s.x.toNat :: s.y) ∧
      Share.fromBytes (UInt8.ofNat s.x.toNat :: s.y) = .ok s := by
  refine ⟨by rw [Share.toBytes, require_of inRange, ok_bind], ?_⟩
  obtain ⟨x, _ | ⟨byte, rest⟩⟩ := s
  · exact absurd rfl nonempty
  · have index : ((UInt8.ofNat x.toNat).toNat : Int) = x := by
      have small : x.toNat < 256 := by
        simp only at inRange
        omega
      rw [UInt8.toNat_ofNat', Nat.mod_eq_of_lt small]
      exact Int.toNat_of_nonneg (by simp only at inRange; omega)
    simp only [Share.fromBytes, index]

/-- Fit shares survive their wire form. -/
theorem wire_roundTrip {shares : List Share} (inRange : ∀ s ∈ shares, 1 ≤ s.x ∧ s.x ≤ 255)
    (nonempty : ∀ s ∈ shares, s.y ≠ []) :
    ∃ blobs, shares.mapM Share.toBytes = .ok blobs ∧ blobs.mapM Share.fromBytes = .ok shares := by
  induction shares with
  | nil => exact ⟨[], rfl, rfl⟩
  | cons s rest ih =>
    obtain ⟨blobs, encoded, decoded⟩ := ih (fun s mem => inRange s (List.mem_cons_of_mem _ mem))
      (fun s mem => nonempty s (List.mem_cons_of_mem _ mem))
    obtain ⟨written, read⟩ := fromBytes_toBytes (inRange s List.mem_cons_self)
      (nonempty s List.mem_cons_self)
    refine ⟨(UInt8.ofNat s.x.toNat :: s.y) :: blobs, ?_, ?_⟩
    · rw [List.mapM_cons, written, encoded]
      rfl
    · rw [List.mapM_cons, read, decoded]
      rfl

/-! ## Enough shares -/

/-- Every byte interpolates to the secret's, from as many shares as the degree allows. -/
theorem SharingOf.combined_eq {secret : Bytes} {k n : Nat} {streams : List Bytes}
    (sharing : SharingOf secret k n streams) {held : List Share}
    (formed : WellFormed held secret.length) (fromShares : held ⊆ sharesOf streams)
    (enough : k ≤ held.length) : combined held secret.length = secret := by
  refine List.ext_getElem (by simp [combined]) fun b inside inside' => ?_
  obtain ⟨p, small, constant, values⟩ := sharing.columns b inside'
  have distinct : ((column held b).map ThresholdRecovery.Share.x).Nodup := by
    rw [positions_column]
    exact formed.nodup_index
  have degree : p.degree < (column held b).length := by
    rw [column, List.length_map]
    exact small.trans_le (by exact_mod_cast enough)
  have sampled : ∀ share ∈ column held b, element share.y = p.eval (element share.x) := by
    intro share mem
    obtain ⟨s, taken, rfl⟩ := List.mem_map.1 mem
    obtain ⟨found, isNext, inside⟩ := read_share sharing (fromShares taken)
    have value := values _ _ found
    have index : nativeIndex s = position (s.x.toNat - 1) := by
      rw [nativeIndex, position, Nat.sub_add_cancel (by omega)]
    have within : b < s.y.length := by rw [formed.lengths s taken]; exact inside'
    rw [List.getElem?_eq_getElem within, Option.map_some, Option.some.injEq] at value
    rw [index, ← value, List.getD_eq_getElem _ _ within]
  simp only [combined, List.getElem_map, List.getElem_range]
  exact element_inj.1 ((combine_basis distinct degree sampled).trans constant)

/-- **Any threshold of the shares recovers the secret**, in any order, also through their bytes. -/
theorem combine_split {secret randomness : Bytes} {k n : Nat} (nonempty : secret ≠ [])
    (valid : 2 ≤ k ∧ k ≤ n ∧ n ≤ 255) (length : randomness.length = secret.length * (k - 1)) :
    ∃ shares, split secret k n randomness = .ok shares ∧
      ∀ held : List Share, held ⊆ shares → (held.map Share.x).Nodup → k ≤ held.length →
        combine held = .ok secret ∧
        ∃ blobs, held.mapM Share.toBytes = .ok blobs ∧ blobs.mapM Share.fromBytes = .ok held ∧
          combineMasterKey blobs = .ok secret := by
  have ran := split_eq nonempty valid length
  obtain ⟨_, streams, sharing, same⟩ := split_sharing ran
  refine ⟨_, ran, fun held fromShares distinct enough => ?_⟩
  rw [same] at fromShares
  have formed := wellFormed_held sharing valid.2.2 distinct.of_map fromShares
    (Nat.le_trans valid.1 enough)
  have recovered : combine held = .ok secret := by
    rw [formed.combine_eq, SharingOf.combined_eq sharing formed fromShares enough]
  have filled : ∀ s ∈ held, s.y ≠ [] := by
    intro s mem empty
    have lengths := formed.lengths s mem
    rw [empty] at lengths
    exact nonempty (List.length_eq_zero_iff.1 lengths.symm)
  obtain ⟨blobs, encoded, decoded⟩ := wire_roundTrip formed.inRange filled
  refine ⟨recovered, blobs, encoded, decoded, ?_⟩
  rw [combineMasterKey, decoded]
  exact recovered

theorem combine_split_two_of_three :
    ∃ shares, split [7, 9] 2 3 [1, 2] = .ok shares ∧
      ∀ held : List Share, held ⊆ shares → (held.map Share.x).Nodup → 2 ≤ held.length →
        combine held = .ok [7, 9] ∧
        ∃ blobs, held.mapM Share.toBytes = .ok blobs ∧ blobs.mapM Share.fromBytes = .ok held ∧
          combineMasterKey blobs = .ok [7, 9] :=
  combine_split (by decide) (by decide) (by decide)

/-! ## One stream, group by group -/

/-- The stream at an index: each group of coefficients evaluated with its secret byte. -/
def streamAt (coeffCountPerByte index : Nat) : Bytes → Bytes → Bytes
  | [], _ => []
  | secByte :: rest, randomness =>
    UInt8.ofNat (evalPoly ((secByte :: randomness.take coeffCountPerByte).map UInt8.toNat)
      (index + 1)) :: streamAt coeffCountPerByte index rest (randomness.drop coeffCountPerByte)

theorem length_streamAt (c index : Nat) (secret randomness : Bytes) :
    (streamAt c index secret randomness).length = secret.length := by
  induction secret generalizing randomness with
  | nil => rfl
  | cons secByte rest ih => rw [streamAt, List.length_cons, ih, List.length_cons]

theorem splitLoop_eq_streamAt (c : Nat) (secret randomness : Bytes) (accumulated : List Bytes) :
    splitLoop c secret randomness accumulated =
      accumulated.mapIdx fun index before => before ++ streamAt c index secret randomness := by
  induction secret generalizing randomness accumulated with
  | nil =>
    refine List.ext_getElem (by simp [splitLoop]) fun index _ _ => ?_
    simp [splitLoop, streamAt]
  | cons secByte rest ih =>
    rw [splitLoop, ih]
    refine List.ext_getElem (by simp [appendColumn]) fun index _ _ => ?_
    simp [appendColumn, streamAt]

/-- What `split` hands out, index by index. -/
theorem split_eq_streamAt {secret randomness : Bytes} {k n : Nat} (nonempty : secret ≠ [])
    (valid : 2 ≤ k ∧ k ≤ n ∧ n ≤ 255) (length : randomness.length = secret.length * (k - 1)) :
    split secret k n randomness = .ok ((List.range n).map fun index : Nat =>
      ⟨index + 1, streamAt (k - 1) index secret randomness⟩) := by
  rw [split_eq nonempty valid length, splitLoop_eq_streamAt, sharesOf]
  refine congrArg Except.ok (List.ext_getElem (by simp) fun index _ _ => ?_)
  simp

/-- A share is read off byte by byte: its first group on the polynomial, the others behind it. -/
theorem streamAt_cons_eq {c : Nat} {secByte : UInt8} {rest randomness : Bytes} {s : Share}
    (inRange : 1 ≤ s.x ∧ s.x ≤ 255) (nonempty : s.y ≠ []) :
    streamAt c (s.x.toNat - 1) (secByte :: rest) randomness = s.y ↔
      horner (element secByte :: (randomness.take c).map element) (element (nativeIndex s)) =
        element (s.y.getD 0 0) ∧
      streamAt c (s.x.toNat - 1) rest (randomness.drop c) = s.y.tail := by
  obtain ⟨x, _ | ⟨head, tail⟩⟩ := s
  · exact absurd rfl nonempty
  · have index : intOf (element (nativeIndex ⟨x, head :: tail⟩)) = x.toNat - 1 + 1 := by
      rw [intOf_element, toNat_nativeIndex inRange]
      simp only at inRange ⊢
      omega
    simp only [streamAt, List.cons.injEq, List.getD_cons_zero, List.tail_cons]
    refine and_congr ?_ Iff.rfl
    rw [← index, evalPoly_toNat, ofNat_intOf, ← element_inj, element_byteOf, List.map_cons]

/-! ## One share fewer -/

/-- **One string of randomness for every candidate**: `c` shares leave one group of `c`
coefficients for every secret byte. -/
theorem exists_unique_randomness {c : Nat} (secret : Bytes) {held : List Share}
    (count : held.length = c) (inRange : ∀ s ∈ held, 1 ≤ s.x ∧ s.x ≤ 255)
    (distinct : (held.map Share.x).Nodup) (lengths : ∀ s ∈ held, s.y.length = secret.length) :
    ∃! randomness : Bytes, randomness.length = secret.length * c ∧
      ∀ s ∈ held, streamAt c (s.x.toNat - 1) secret randomness = s.y := by
  induction secret generalizing held with
  | nil =>
    refine ⟨[], ⟨by simp, fun s mem => ?_⟩, fun other right => ?_⟩
    · exact (List.length_eq_zero_iff.1 (lengths s mem)).symm
    · simpa using right.1
  | cons secByte rest ih =>
    have nonempty : ∀ s ∈ held, s.y ≠ [] := fun s mem empty => by
      have length := lengths s mem
      rw [empty] at length
      cases length
    let others : List Share := held.map fun s => ⟨s.x, s.y.tail⟩
    have indexes : others.map Share.x = held.map Share.x := by
      rw [List.map_map]
      rfl
    have mem_others : ∀ P : Share → Prop, (∀ s ∈ others, P s) ↔ ∀ s ∈ held, P ⟨s.x, s.y.tail⟩ := by
      simp [others]
    obtain ⟨randomness, ⟨length, fits⟩, unique⟩ := @ih others
      (by rw [List.length_map, count]) ((mem_others _).2 inRange) (by rw [indexes]; exact distinct)
      ((mem_others _).2 fun s mem => by rw [List.length_tail, lengths s mem]; rfl)
    have points : ((column held 0).map ThresholdRecovery.Share.x).Nodup := by
      rw [positions_column]
      refine List.Nodup.map_on (fun s mem s' mem' same => ?_) distinct.of_map
      have values := congrArg UInt8.toNat same
      have bound := inRange s mem
      have bound' := inRange s' mem'
      rw [toNat_nativeIndex bound, toNat_nativeIndex bound'] at values
      exact List.inj_on_of_nodup_map distinct mem mem' (by omega)
    have reserved : ∀ share ∈ column held 0, share.x ≠ 0 := by
      intro share mem zero
      obtain ⟨s, taken, rfl⟩ := List.mem_map.1 mem
      have value := toNat_nativeIndex (inRange s taken)
      have bound := inRange s taken
      simp only at zero
      rw [zero, UInt8.toNat_zero] at value
      omega
    obtain ⟨group, ⟨groupLength, onGroup⟩, groupUnique⟩ :=
      exists_unique_group points reserved secByte
    rw [column, List.length_map, count] at groupLength groupUnique
    rw [List.length_cons, Nat.add_mul, Nat.one_mul]
    refine ⟨group ++ randomness, ⟨by rw [List.length_append, length, groupLength, Nat.add_comm], ?_⟩,
      ?_⟩
    · intro s mem
      rw [streamAt_cons_eq (inRange s mem) (nonempty s mem), List.take_left' groupLength,
        List.drop_left' groupLength]
      have first := onGroup ⟨nativeIndex s, s.y.getD 0 0⟩ (List.mem_map.2 ⟨s, mem, rfl⟩)
      exact ⟨first, (mem_others _).1 fits s mem⟩
    · rintro other ⟨otherLength, reads⟩
      have split_ := fun s mem => (streamAt_cons_eq (inRange s mem) (nonempty s mem)).1 (reads s mem)
      have first := groupUnique (other.take c) ⟨by rw [List.length_take]; omega, by
        intro share mem
        obtain ⟨s, taken, rfl⟩ := List.mem_map.1 mem
        exact (split_ s taken).1⟩
      have second := unique (other.drop c) ⟨by rw [List.length_drop]; omega,
        (mem_others _).2 fun s mem => (split_ s mem).2⟩
      rw [← List.take_append_drop c other, first, second]

/-- A split hands out given shares exactly if its streams read so at their positions. -/
theorem split_holds_iff {secret randomness : Bytes} {k n : Nat} {held : List Share}
    (nonempty : secret ≠ []) (valid : 2 ≤ k ∧ k ≤ n ∧ n ≤ 255)
    (inRange : ∀ s ∈ held, 1 ≤ s.x ∧ s.x ≤ n) :
    (∃ shares, split secret k n randomness = .ok shares ∧ held ⊆ shares) ↔
      randomness.length = secret.length * (k - 1) ∧
        ∀ s ∈ held, streamAt (k - 1) (s.x.toNat - 1) secret randomness = s.y := by
  have handed : ∀ s : Share, 1 ≤ s.x ∧ s.x ≤ n →
      (s ∈ (List.range n).map (fun index : Nat =>
        (⟨index + 1, streamAt (k - 1) index secret randomness⟩ : Share)) ↔
        streamAt (k - 1) (s.x.toNat - 1) secret randomness = s.y) := by
    rintro ⟨x, y⟩ bounds
    simp only at bounds ⊢
    rw [List.mem_map]
    constructor
    · rintro ⟨index, _, same⟩
      obtain ⟨rfl, rfl⟩ := (Share.mk.injEq ..).mp same
      have position : ((index : Int) + 1).toNat - 1 = index := by omega
      rw [position]
    · intro reads
      refine ⟨x.toNat - 1, List.mem_range.2 (by omega), ?_⟩
      rw [reads, Share.mk.injEq]
      exact ⟨by omega, rfl⟩
  constructor
  · rintro ⟨shares, ran, present⟩
    have length : randomness.length = secret.length * (k - 1) := by
      have accepted := ran
      simp only [split, bind_eq_ok, require_eq_ok, exists_const] at accepted
      exact accepted.2.2.1
    rw [split_eq_streamAt nonempty valid length, Except.ok.injEq] at ran
    subst ran
    exact ⟨length, fun s mem => (handed s (inRange s mem)).1 (present mem)⟩
  · rintro ⟨length, reads⟩
    exact ⟨_, split_eq_streamAt nonempty valid length, fun s mem =>
      (handed s (inRange s mem)).2 (reads s mem)⟩

/-- What the holders of some positions see of a split. -/
def view (positions : List Int) (secret : Bytes) (k n : Nat) (randomness : Bytes) :
    Except ThresholdError (List Share) := do
  let shares ← split secret k n randomness
  .ok (shares.filter fun s => s.x ∈ positions)

/-- Two views agree exactly if the streams at the positions do. -/
theorem view_eq_iff {positions : List Int} {secret other randomness randomness' : Bytes} {k n : Nat}
    (nonempty : secret ≠ []) (sameLength : other.length = secret.length)
    (valid : 2 ≤ k ∧ k ≤ n ∧ n ≤ 255) (inRange : ∀ x ∈ positions, 1 ≤ x ∧ x ≤ n)
    (length : randomness.length = secret.length * (k - 1))
    (length' : randomness'.length = other.length * (k - 1)) :
    view positions other k n randomness' = view positions secret k n randomness ↔
      ∀ x ∈ positions, streamAt (k - 1) (x.toNat - 1) other randomness' =
        streamAt (k - 1) (x.toNat - 1) secret randomness := by
  have nonempty' : other ≠ [] := fun empty => nonempty (by
    rw [empty] at sameLength
    exact List.length_eq_zero_iff.1 sameLength.symm)
  rw [view, view, split_eq_streamAt nonempty valid length, split_eq_streamAt nonempty' valid length',
    ok_bind, ok_bind, Except.ok.injEq, List.filter_map, List.filter_map]
  simp only [Function.comp_def, List.map_inj_left, List.mem_filter, List.mem_range, decide_eq_true_eq,
    Share.mk.injEq, true_and]
  constructor
  · intro agree x mem
    have bounds := inRange x mem
    refine agree (x.toNat - 1) ⟨by omega, ?_⟩
    have index : ((x.toNat - 1 : Nat) : Int) + 1 = x := by omega
    rwa [index]
  · rintro agree index ⟨_, held⟩
    have same := agree _ held
    have position : ((index : Int) + 1).toNat - 1 = index := by omega
    rwa [position] at same

/-- Behind what the holders of `k - 1` positions see there is one string for every other secret. -/
theorem exists_unique_view {positions : List Int} {secret other randomness : Bytes} {k n : Nat}
    (nonempty : secret ≠ []) (sameLength : other.length = secret.length)
    (valid : 2 ≤ k ∧ k ≤ n ∧ n ≤ 255) (count : positions.length = k - 1) (distinct : positions.Nodup)
    (inRange : ∀ x ∈ positions, 1 ≤ x ∧ x ≤ n)
    (length : randomness.length = secret.length * (k - 1)) :
    ∃! randomness' : List.Vector UInt8 (secret.length * (k - 1)),
      view positions other k n randomness'.toList = view positions secret k n randomness := by
  let held : List Share := positions.map fun x =>
    ⟨x, streamAt (k - 1) (x.toNat - 1) secret randomness⟩
  have mem_held : ∀ P : Share → Prop, (∀ s ∈ held, P s) ↔
      ∀ x ∈ positions, P ⟨x, streamAt (k - 1) (x.toNat - 1) secret randomness⟩ := by
    simp [held]
  have indexes : held.map Share.x = positions := by
    rw [List.map_map]
    exact List.map_id' positions
  have lengths : ∀ s ∈ held, s.y.length = other.length := (mem_held _).2 fun x _ => by
    rw [length_streamAt, sameLength]
  have small : ∀ s ∈ held, 1 ≤ s.x ∧ s.x ≤ 255 := (mem_held _).2 fun x mem => by
    have bounds := inRange x mem
    simp only
    omega
  obtain ⟨found, ⟨foundLength, reads⟩, unique⟩ := @exists_unique_randomness (k - 1) other held
    (by rw [List.length_map, count]) small (by rw [indexes]; exact distinct) lengths
  rw [sameLength] at foundLength unique
  refine ⟨⟨found, foundLength⟩, ?_, ?_⟩
  · exact (view_eq_iff nonempty sameLength valid inRange length (by rw [sameLength]; exact foundLength)).2
      ((mem_held _).1 reads)
  · rintro ⟨randomness', length'⟩ same
    have agree := (view_eq_iff nonempty sameLength valid inRange length
      (by rw [sameLength]; exact length')).1 same
    exact Subtype.ext (unique randomness' ⟨length', (mem_held _).2 agree⟩)

/-- **Perfect secrecy.**  Whatever values `k - 1` shares have, every candidate secret of their length
has exactly one string of randomness behind them; so what `k - 1` holders see of a split with uniform
randomness is distributed alike for all secrets of a length. -/
theorem split_hides {k n : Nat} (valid : 2 ≤ k ∧ k ≤ n ∧ n ≤ 255) {secret : Bytes}
    (nonempty : secret ≠ []) :
    (∀ held : List Share, held.length = k - 1 → (held.map Share.x).Nodup →
      (∀ s ∈ held, 1 ≤ s.x ∧ s.x ≤ n) → (∀ s ∈ held, s.y.length = secret.length) →
      ∃! randomness : Bytes, ∃ shares, split secret k n randomness = .ok shares ∧ held ⊆ shares) ∧
    ∀ (positions : List Int) (other : Bytes), positions.length = k - 1 → positions.Nodup →
      (∀ x ∈ positions, 1 ≤ x ∧ x ≤ n) → other.length = secret.length →
      (PMF.uniformOfFintype (List.Vector UInt8 (secret.length * (k - 1)))).map
          (fun randomness => view positions secret k n randomness.toList) =
        (PMF.uniformOfFintype (List.Vector UInt8 (secret.length * (k - 1)))).map
          (fun randomness => view positions other k n randomness.toList) := by
  constructor
  · intro held count distinct inRange lengths
    have unique := exists_unique_randomness secret count
      (fun s mem => ⟨(inRange s mem).1, by have := inRange s mem; omega⟩) distinct lengths
    simpa only [split_holds_iff nonempty valid inRange] using unique
  · intro positions other count distinct inRange sameLength
    have nonempty' : other ≠ [] := fun empty => nonempty (by
      rw [empty] at sameLength
      exact List.length_eq_zero_iff.1 sameLength.symm)
    refine uniform_map_eq (fun randomness => ?_) fun randomness => ?_
    · exact exists_unique_view nonempty sameLength valid count distinct inRange randomness.2
    · have swapped := exists_unique_view nonempty' sameLength.symm valid count distinct inRange
        (randomness.2.trans (by rw [sameLength]))
      rwa [sameLength] at swapped

theorem split_hides_two_of_three :
    (∃! randomness : Bytes, ∃ shares, split [7, 9] 2 3 randomness = .ok shares ∧
      [⟨3, [1, 2]⟩] ⊆ shares) ∧
    (PMF.uniformOfFintype (List.Vector UInt8 2)).map
        (fun randomness => view [3] [7, 9] 2 3 randomness.toList) =
      (PMF.uniformOfFintype (List.Vector UInt8 2)).map
        (fun randomness => view [3] [0, 0] 2 3 randomness.toList) := by
  obtain ⟨unique, alike⟩ := @split_hides 2 3 (by decide) [7, 9] (by decide)
  exact ⟨unique [⟨3, [1, 2]⟩] rfl (by decide) (by decide) (by decide),
    alike [3] [0, 0] rfl (by decide) (by decide) rfl⟩

end OneLink.ThresholdRecovery.Threshold
