/-
# ThresholdRecovery.Interop -- the native and the pure Python module share secrets alike

The pure module evaluates and interpolates on integers through its tables, the
native crate on masked words and lookup tables.  Each loop of the one is the
loop of the other read as integers (`evalPoly_toNat`, `interpLoop_toNat`), so
the same coefficients give the same streams, the same shares the same secret,
and streams of either side reconstruct on the other.
-/
import OneLink.ThresholdRecovery.Reconstruction
import OneLink.ThresholdRecovery.Tables

namespace OneLink.ThresholdRecovery.Threshold

set_option autoImplicit false

open Library Library.Sharing

/-! ## Splitting and combining in the pure module -/

/-- `_eval_poly`. -/
def evalPoly (coeffs : List Nat) (x : Nat) : Nat :=
  coeffs.reverse.foldl (fun acc c => gfMul acc x ^^^ c) 0

/-- The numerator and the denominator of one point of `_lagrange_interp_at_zero`. -/
def quotientLoop (i xi : Nat) (points : List ((Nat × Nat) × Nat)) : Nat × Nat :=
  points.foldl (fun (acc : Nat × Nat) (other : (Nat × Nat) × Nat) =>
    if i = other.2 then acc else (gfMul acc.1 other.1.1, gfMul acc.2 (xi ^^^ other.1.1))) (1, 1)

/-- The points of `_lagrange_interp_at_zero` still to be summed up. -/
def interpLoop (points : List (Nat × Nat)) : List ((Nat × Nat) × Nat) → Nat →
    Except ThresholdError Nat
  | [], secret => .ok secret
  | ((xi, yi), i) :: rest, secret => do
    let quotient := quotientLoop i xi points.zipIdx
    require (quotient.2 ≠ 0)
      (.valueError "duplicate share x-coordinate (shares must be distinct)")
    let ratio ← gfDiv quotient.1 quotient.2
    interpLoop points rest (secret ^^^ gfMul yi ratio)

/-- `_lagrange_interp_at_zero`. -/
def lagrangeInterpAtZero (points : List (Nat × Nat)) : Except ThresholdError Nat :=
  interpLoop points points.zipIdx 0

/-- One participant's share. -/
structure Share where
  x : Int
  y : Bytes
deriving DecidableEq, Repr

/-- One byte more on every accumulated share. -/
def appendColumn (coeffs : List Nat) (accumulated : List Bytes) : List Bytes :=
  accumulated.mapIdx fun shareIdx share => share ++ [UInt8.ofNat (evalPoly coeffs (shareIdx + 1))]

/-- The loop of `split` over the secret; the randomness before the cursor is gone. -/
def splitLoop (coeffCountPerByte : Nat) : Bytes → Bytes → List Bytes → List Bytes
  | [], _, accumulated => accumulated
  | secByte :: rest, randomness, accumulated =>
    splitLoop coeffCountPerByte rest (randomness.drop coeffCountPerByte)
      (appendColumn ((secByte :: randomness.take coeffCountPerByte).map UInt8.toNat) accumulated)

/-- `split`, on the randomness given or drawn. -/
def split (secret : Bytes) (threshold numShares : Nat) (randomness : Bytes) :
    Except ThresholdError (List Share) := do
  require (secret.length ≠ 0) (.valueError "secret must be at least 1 byte")
  require (2 ≤ threshold ∧ threshold ≤ numShares ∧ numShares ≤ 255)
    (.valueError s!"threshold must satisfy 2 ≤ threshold ≤ num_shares ≤ 255, got threshold={threshold}, num_shares={numShares}")
  let needed := secret.length * (threshold - 1)
  require (randomness.length = needed)
    (.valueError s!"randomness must be {needed} bytes for deterministic split with secret_len={secret.length} threshold={threshold}, got {randomness.length} bytes")
  .ok ((splitLoop (threshold - 1) secret randomness (List.replicate numShares [])).mapIdx
    fun i accumulated => ⟨i + 1, accumulated⟩)

/-- The indexes are in range and distinct. -/
def checkIndexes : List Int → List Share → Except ThresholdError Unit
  | _, [] => .ok ()
  | seenX, s :: rest => do
    require (1 ≤ s.x ∧ s.x ≤ 255) (.valueError s!"share index out of range: {s.x}")
    require (s.x ∉ seenX) (.valueError s!"duplicate share index: {s.x}")
    checkIndexes (s.x :: seenX) rest

/-- The points of all shares at one byte, once their indexes are checked. -/
def pointsAt (shares : List Share) (byteIdx : Nat) : List (Nat × Nat) :=
  shares.map fun s => (s.x.toNat, (s.y.getD byteIdx 0).toNat)

/-- The bytes of `combine` still to be filled in. -/
def combineLoop (shares : List Share) : List Nat → Except ThresholdError Bytes
  | [] => .ok []
  | byteIdx :: rest => do
    let byte ← lagrangeInterpAtZero (pointsAt shares byteIdx)
    let out ← combineLoop shares rest
    .ok (UInt8.ofNat byte :: out)

/-- `combine`. -/
def combine (shares : List Share) : Except ThresholdError Bytes := do
  require (2 ≤ shares.length) (.valueError "need at least 2 shares to reconstruct")
  let secretLen := (shares.headD ⟨0, []⟩).y.length
  require (∀ s ∈ shares, s.y.length = secretLen) (.valueError "shares have inconsistent lengths")
  checkIndexes [] shares
  combineLoop shares (List.range secretLen)

/-! ## Evaluation -/

theorem intOf_element (byte : UInt8) : intOf (element byte) = byte.toNat := rfl

theorem intOf_add (a b : ByteField) : intOf a ^^^ intOf b = intOf (a + b) :=
  (BitVec.toNat_xor a.bits b.bits).symm

theorem ofNat_intOf (a : ByteField) : UInt8.ofNat (intOf a) = byteOf a := by
  apply UInt8.toNat_inj.1
  rw [UInt8.toNat_ofNat', Nat.mod_eq_of_lt (intOf_lt a)]
  rfl

theorem evalPoly_toNat (coeffs : Bytes) (x : ByteField) :
    evalPoly (coeffs.map UInt8.toNat) (intOf x) = intOf (horner (coeffs.map element) x) := by
  rw [evalPoly, List.foldl_reverse]
  induction coeffs with
  | nil => rfl
  | cons coeff rest ih =>
    rw [List.map_cons, List.foldr_cons, ih, gfMul_intOf, ← intOf_element, intOf_add]
    rfl

theorem intOf_position {index : Nat} (inside : index < 255) :
    intOf (element (position index)) = index + 1 := by
  rw [intOf_element, position, UInt8.toNat_ofNat']
  omega

/-- A column of the pure module is a column of the native one. -/
theorem appendColumn_eq (coeffs : Bytes) {accumulated : List Bytes} (room : accumulated.length ≤ 255) :
    appendColumn (coeffs.map UInt8.toNat) accumulated = pushColumn coeffs accumulated := by
  refine List.ext_getElem (by simp [appendColumn, pushColumn]) fun index inside _ => ?_
  have bound : index < 255 := by
    have small : index < accumulated.length := by simpa [appendColumn] using inside
    omega
  have value : UInt8.ofNat (evalPoly (coeffs.map UInt8.toNat) (index + 1)) =
      shareValue coeffs (UInt32.ofNat (index + 1)) := by
    have read := evalPoly_toNat coeffs (element (position index))
    rw [intOf_position bound] at read
    rw [read, ofNat_intOf, word_position bound, ← element_shareValue, byteOf_element]
  simp only [appendColumn, pushColumn, List.getElem_mapIdx, value]

/-! ## Interpolation -/

theorem gfMul_toNat (a b : UInt8) : gfMul a.toNat b.toNat = (gfMulFast a b).toNat := by
  rw [← intOf_element, ← intOf_element, gfMul_intOf, ← element_gfMulFast, intOf_element]

/-- The loop over the other points is the native loop, read as integers. -/
theorem quotientLoop_toNat (i : Nat) (x : UInt8) (others : List (ThresholdRecovery.Share × Nat)) :
    quotientLoop i x.toNat (others.map fun other => ((other.1.x.toNat, other.1.y.toNat), other.2)) =
      let quotient := others.foldl (fun (acc : UInt8 × UInt8) (other : ThresholdRecovery.Share × Nat) =>
        if i = other.2 then acc
        else (gfMulFast acc.1 other.1.x, gfMulFast acc.2 (x ^^^ other.1.x))) (1, 1)
      (quotient.1.toNat, quotient.2.toNat) := by
  suffices fromAny : ∀ num den : UInt8,
      (others.map fun other => ((other.1.x.toNat, other.1.y.toNat), other.2)).foldl
        (fun (acc : Nat × Nat) (other : (Nat × Nat) × Nat) => if i = other.2 then acc
          else (gfMul acc.1 other.1.1, gfMul acc.2 (x.toNat ^^^ other.1.1))) (num.toNat, den.toNat) =
      let quotient := others.foldl (fun (acc : UInt8 × UInt8) (other : ThresholdRecovery.Share × Nat) =>
        if i = other.2 then acc
        else (gfMulFast acc.1 other.1.x, gfMulFast acc.2 (x ^^^ other.1.x))) (num, den)
      (quotient.1.toNat, quotient.2.toNat) from fromAny 1 1
  induction others with
  | nil => intro num den; rfl
  | cons other rest ih =>
    intro num den
    simp only [List.map_cons, List.foldl_cons]
    by_cases same : i = other.2
    · simp only [if_pos same]
      exact ih num den
    · simp only [if_neg same, ← UInt8.toNat_xor, gfMul_toNat]
      exact ih _ _

/-- The point of a share of the native crate. -/
def pointOf (share : ThresholdRecovery.Share) : Nat × Nat := (share.x.toNat, share.y.toNat)

/-- One turn of the outer loop adds the share's term; the divisor never vanishes. -/
theorem interpLoop_toNat {shares : List ThresholdRecovery.Share}
    (distinct : (shares.map ThresholdRecovery.Share.x).Nodup)
    (rest : List (ThresholdRecovery.Share × Nat))
    (known : ∀ entry ∈ rest, shares[entry.2]? = some entry.1) (secret : ByteField) :
    interpLoop (shares.map pointOf) (rest.map fun entry => (pointOf entry.1, entry.2)) (intOf secret) =
      .ok (intOf (secret + (rest.map fun entry =>
        element entry.1.y * element ((lagrangeBasisAtZero shares).getD entry.2 0)).sum)) := by
  induction rest generalizing secret with
  | nil => simp [interpLoop]
  | cons entry rest ih =>
    obtain ⟨share, i⟩ := entry
    obtain ⟨bound, here⟩ := List.getElem?_eq_some_iff.1 (known _ List.mem_cons_self)
    have others := index_iff_position distinct bound
    simp only [here] at others
    have zipped : (shares.map pointOf).zipIdx =
        shares.zipIdx.map fun other => ((other.1.x.toNat, other.1.y.toNat), other.2) := by
      rw [List.zipIdx_map]
      rfl
    have basis : (lagrangeBasisAtZero shares).getD i 0 =
        let quotient := shares.zipIdx.foldl
          (fun (acc : UInt8 × UInt8) (other : ThresholdRecovery.Share × Nat) =>
            if i = other.2 then acc
            else (gfMulFast acc.1 other.1.x, gfMulFast acc.2 (share.x ^^^ other.1.x))) (1, 1)
        gfDivFast quotient.1 quotient.2 := by
      simp [lagrangeBasisAtZero, bound, here]
    obtain ⟨-, den⟩ := element_basisLoop i share.x shares.zipIdx others 1 1
    revert basis den
    generalize looped : shares.zipIdx.foldl
      (fun (acc : UInt8 × UInt8) (other : ThresholdRecovery.Share × Nat) =>
        if i = other.2 then acc
        else (gfMulFast acc.1 other.1.x, gfMulFast acc.2 (share.x ^^^ other.1.x))) (1, 1) = quotient
    intro basis den
    -- the factors of the denominator are sums of distinct positions
    have nonzero : element quotient.2 ≠ 0 := by
      rw [den, element_one, one_mul]
      apply List.prod_ne_zero
      intro vanishes
      obtain ⟨other, _, zero⟩ := List.mem_map.1 vanishes
      split at zero
      · exact one_ne_zero zero
      · rename_i differs
        exact differs (element_inj.1 (sub_eq_zero.1 ((sub_eq_add _ _).trans zero)).symm)
    have walked : quotientLoop i share.x.toNat (shares.map pointOf).zipIdx =
        (quotient.1.toNat, quotient.2.toNat) := by
      rw [zipped, quotientLoop_toNat, looped]
    have ratio : gfDiv quotient.1.toNat quotient.2.toNat =
        .ok (intOf (element quotient.1 / element quotient.2)) :=
      gfDiv_intOf (element quotient.1) nonzero
    have divisor : quotient.2.toNat ≠ 0 := fun zero => nonzero (intOf_eq_zero.1 zero)
    simp only [List.map_cons, pointOf, interpLoop]
    rw [walked, require_of divisor, ok_bind, ratio, ok_bind, ← intOf_element share.y, gfMul_intOf,
      intOf_add]
    refine (ih (fun entry mem => known entry (List.mem_cons_of_mem _ mem)) _).trans ?_
    rw [List.sum_cons, basis, element_gfDivFast, add_assoc]

/-- `_lagrange_interp_at_zero` is the native inner product. -/
theorem lagrangeInterpAtZero_eq {shares : List ThresholdRecovery.Share}
    (distinct : (shares.map ThresholdRecovery.Share.x).Nodup) :
    lagrangeInterpAtZero (shares.map pointOf) =
      .ok (ThresholdRecovery.combine (shares.map ThresholdRecovery.Share.y)
        (lagrangeBasisAtZero shares)).toNat := by
  have known : ∀ entry ∈ shares.zipIdx, shares[entry.2]? = some entry.1 := fun entry mem =>
    List.mem_zipIdx_iff_getElem?.1 mem
  have total := interpLoop_toNat distinct shares.zipIdx known 0
  have zipped : (shares.map pointOf).zipIdx =
      shares.zipIdx.map fun entry => (pointOf entry.1, entry.2) := by
    rw [List.zipIdx_map]
    rfl
  rw [lagrangeInterpAtZero, zipped, ← intOf_element, element_combine]
  refine total.trans ?_
  rw [zero_add]
  congr 3
  refine List.ext_getElem (by simp [lagrangeBasisAtZero]) fun i inside _ => ?_
  have bound : i < (lagrangeBasisAtZero shares).length := by
    simpa [lagrangeBasisAtZero] using inside
  simp [bound]

/-! ## Combining -/

/-- The shares both modules are handed: in range, distinct and of one length. -/
structure WellFormed (shares : List Share) (count : Nat) : Prop where
  two : 2 ≤ shares.length
  inRange : ∀ s ∈ shares, 1 ≤ s.x ∧ s.x ≤ 255
  distinct : (shares.map Share.x).Nodup
  lengths : ∀ s ∈ shares, s.y.length = count

/-- The index as the native module takes it. -/
def nativeIndex (s : Share) : UInt8 := UInt8.ofNat s.x.toNat

variable {shares : List Share} {count : Nat}

theorem toNat_nativeIndex {s : Share} (inRange : 1 ≤ s.x ∧ s.x ≤ 255) :
    (nativeIndex s).toNat = s.x.toNat := by
  rw [nativeIndex, UInt8.toNat_ofNat']
  omega

theorem WellFormed.nodup_index (formed : WellFormed shares count) :
    (shares.map nativeIndex).Nodup := by
  refine List.Nodup.map_on ?_ formed.distinct.of_map
  intro s mem s' mem' same
  have values := congrArg UInt8.toNat same
  rw [toNat_nativeIndex (formed.inRange s mem), toNat_nativeIndex (formed.inRange s' mem')] at values
  have positive := (formed.inRange s mem).1
  have positive' := (formed.inRange s' mem').1
  exact List.inj_on_of_nodup_map formed.distinct mem mem' (by omega)

theorem WellFormed.index_ne_zero (formed : WellFormed shares count) :
    0 ∉ shares.map nativeIndex := by
  intro reserved
  obtain ⟨s, mem, zero⟩ := List.mem_map.1 reserved
  have value := toNat_nativeIndex (formed.inRange s mem)
  have positive := (formed.inRange s mem).1
  rw [zero, UInt8.toNat_zero] at value
  omega

theorem checkIndexes_ok {seenX : List Int} (inRange : ∀ s ∈ shares, 1 ≤ s.x ∧ s.x ≤ 255)
    (distinct : (shares.map Share.x).Nodup) (fresh : ∀ s ∈ shares, s.x ∉ seenX) :
    checkIndexes seenX shares = .ok () := by
  induction shares generalizing seenX with
  | nil => rfl
  | cons s rest ih =>
    obtain ⟨new, others⟩ := List.nodup_cons.1 distinct
    rw [checkIndexes, require_of (inRange s List.mem_cons_self), ok_bind,
      require_of (fresh s List.mem_cons_self), ok_bind]
    refine ih (fun s mem => inRange s (List.mem_cons_of_mem _ mem)) others fun s' mem => ?_
    rw [List.mem_cons, not_or]
    exact ⟨fun same => new (List.mem_map.2 ⟨s', mem, same⟩), fresh s' (List.mem_cons_of_mem _ mem)⟩

theorem combineLoop_ok {value : Nat → UInt8}
    (interpolates : ∀ byteIdx, lagrangeInterpAtZero (pointsAt shares byteIdx) =
      .ok (value byteIdx).toNat) (indexes : List Nat) :
    combineLoop shares indexes = .ok (indexes.map value) := by
  induction indexes with
  | nil => rfl
  | cons byteIdx rest ih =>
    rw [combineLoop, interpolates, ok_bind, ih, ok_bind, UInt8.ofNat_toNat, List.map_cons]

/-- The shares at one byte, as the native crate has them. -/
def column (shares : List Share) (byteIdx : Nat) : List ThresholdRecovery.Share :=
  shares.map fun s => ⟨nativeIndex s, s.y.getD byteIdx 0⟩

/-- The bytes that both sides compute. -/
def combined (shares : List Share) (count : Nat) : Bytes :=
  (List.range count).map fun byteIdx =>
    ThresholdRecovery.combine ((column shares byteIdx).map ThresholdRecovery.Share.y)
      (lagrangeBasisAtZero (column shares byteIdx))

theorem positions_column (shares : List Share) (byteIdx : Nat) :
    (column shares byteIdx).map ThresholdRecovery.Share.x = shares.map nativeIndex := by
  rw [column, List.map_map]
  rfl

theorem WellFormed.head_length (formed : WellFormed shares count) :
    (shares.headD ⟨0, []⟩).y.length = count := by
  cases shape : shares with
  | nil =>
    have two := formed.two
    rw [shape, List.length_nil] at two
    omega
  | cons s rest => exact formed.lengths s (shape ▸ List.mem_cons_self)

theorem WellFormed.combine_eq (formed : WellFormed shares count) :
    combine shares = .ok (combined shares count) := by
  have interpolates : ∀ byteIdx, lagrangeInterpAtZero (pointsAt shares byteIdx) =
      .ok (ThresholdRecovery.combine ((column shares byteIdx).map ThresholdRecovery.Share.y)
        (lagrangeBasisAtZero (column shares byteIdx))).toNat := by
    intro byteIdx
    have points : pointsAt shares byteIdx = (column shares byteIdx).map pointOf := by
      rw [pointsAt, column, List.map_map]
      refine List.map_congr_left fun s mem => ?_
      rw [Function.comp_apply, pointOf, toNat_nativeIndex (formed.inRange s mem)]
    rw [points]
    exact lagrangeInterpAtZero_eq (by rw [positions_column]; exact formed.nodup_index)
  have lengths : ∀ s ∈ shares, s.y.length = (shares.headD ⟨0, []⟩).y.length := fun s mem => by
    rw [formed.head_length, formed.lengths s mem]
  rw [combine, require_of formed.two, ok_bind]
  simp only []
  rw [require_of lengths, ok_bind, checkIndexes_ok formed.inRange formed.distinct (by simp), ok_bind,
    combineLoop_ok interpolates, formed.head_length, combined]

/-- At most as many shares as there are indexes. -/
theorem WellFormed.length_le (formed : WellFormed shares count) : shares.length ≤ 255 := by
  have within : (shares.map nativeIndex).Subperm ((List.range 255).map position) := by
    refine List.subperm_of_subset formed.nodup_index fun x mem => ?_
    obtain ⟨s, here, rfl⟩ := List.mem_map.1 mem
    have inRange := formed.inRange s here
    refine List.mem_map.2 ⟨s.x.toNat - 1, List.mem_range.2 (by omega), ?_⟩
    rw [position, nativeIndex, Nat.sub_add_cancel (by omega)]
  simpa using within.length_le

theorem WellFormed.reconstructBytes_eq (formed : WellFormed shares count)
    (fits : count ≤ maxSecretBytes) :
    reconstructBytes (shares.map nativeIndex) (shares.map Share.y) shares.length =
      .ok (combined shares count) := by
  have few := formed.length_le
  have two := formed.two
  have sameLength : (shares.map nativeIndex).length = (shares.map Share.y).length := by
    rw [List.length_map, List.length_map]
  have counted : shares.length ≤ (shares.map nativeIndex).length % 2 ^ 32 := by
    rw [List.length_map]
    omega
  have params : ¬ (shares.length = 0 ∨ maxParticipants < shares.length ∨
      maxParticipants < (shares.map nativeIndex).length) := by
    rw [List.length_map]
    simp only [maxParticipants]
    omega
  have head : ((shares.map Share.y).headD []).length = count := by
    rw [← formed.head_length]
    cases shares <;> rfl
  have lengths : ∀ stream ∈ shares.map Share.y, stream.length = count := by
    intro stream mem
    obtain ⟨s, here, rfl⟩ := List.mem_map.1 mem
    exact formed.lengths s here
  have taken : (shares.map nativeIndex).take shares.length = shares.map nativeIndex :=
    List.take_of_length_le (by rw [List.length_map])
  have takenStreams : (shares.map Share.y).take shares.length = shares.map Share.y :=
    List.take_of_length_le (by rw [List.length_map])
  have checked : checkPositions (shares.map nativeIndex) = .ok () := by
    rw [checkPositions, require_of formed.index_ne_zero, ok_bind, require_of formed.nodup_index]
  rw [reconstructBytes, require_of sameLength, ok_bind, require_of counted, ok_bind, require_of params,
    ok_bind]
  simp only [head]
  rw [require_of fits, ok_bind, checkLengths_ok lengths, ok_bind, taken, takenStreams, checked, ok_bind,
    combined]
  refine congrArg Except.ok (List.map_congr_left fun byteIdx _ => ?_)
  have basis : lagrangeBasisAtZero (column shares byteIdx) =
      lagrangeBasisAtZero ((shares.map nativeIndex).map fun x => ⟨x, 0⟩) := by
    refine lagrangeBasisAtZero_congr (by rw [positions_column]; exact formed.nodup_index) ?_
    rw [positions_column, List.map_map, List.map_map]
    rfl
  have values : (column shares byteIdx).map ThresholdRecovery.Share.y =
      (shares.map Share.y).map fun s => s.getD byteIdx 0 := by
    rw [column, List.map_map, List.map_map]
    rfl
  rw [basis, values]

/-! ## Splitting -/

theorem drawCoefficients_take (failure : String) {count : Nat} {bytes : Bytes}
    (enough : count ≤ bytes.length) :
    drawCoefficients count ⟨bytes, failure⟩ =
      .ok (bytes.take count, ⟨bytes.drop count, failure⟩) := by
  induction count generalizing bytes with
  | zero => rfl
  | succ count ih =>
    cases bytes with
    | nil => simp at enough
    | cons byte bytes =>
      rw [drawCoefficients, ih (by simpa using enough), ok_bind]
      rfl

/-- The last coefficient of each of the `bytes` many groups is not zero. -/
def TopsNonzero (coeffCountPerByte bytes : Nat) (randomness : Bytes) : Prop :=
  ∀ b < bytes, randomness[b * coeffCountPerByte + (coeffCountPerByte - 1)]? ≠ some 0

instance (coeffCountPerByte bytes : Nat) (randomness : Bytes) :
    Decidable (TopsNonzero coeffCountPerByte bytes randomness) :=
  inferInstanceAs (Decidable (∀ b < bytes, _))

/-- With a nonzero top coefficient nothing is drawn again. -/
theorem chooseCoefficients_take (failure : String) {k : Nat} (atLeastTwo : 2 ≤ k) {bytes : Bytes}
    (enough : k - 1 ≤ bytes.length) (top : bytes[k - 1 - 1]? ≠ some 0) :
    chooseCoefficients k ⟨bytes, failure⟩ =
      .ok (bytes.take (k - 1), ⟨bytes.drop (k - 1), failure⟩) := by
  have inside : k - 1 - 1 < bytes.length := by omega
  have last : (bytes.take (k - 1)).getLast? = some bytes[k - 1 - 1] := by
    rw [List.getLast?_take, if_neg (by omega), List.getElem?_eq_getElem inside]
    rfl
  have nonzero : bytes[k - 1 - 1] ≠ 0 := fun zero => top (by
    rw [List.getElem?_eq_getElem inside, zero])
  rw [chooseCoefficients, drawCoefficients_take failure enough, ok_bind]
  simp only [last]
  rw [rerollTop_of_ne _ nonzero, ok_bind]
  simp only [List.dropLast_append_getLast? _ last]

theorem shareLoop_eq (failure : String) {k : Nat} (atLeastTwo : 2 ≤ k) {secret randomness : Bytes}
    {streams : List Bytes} (room : streams.length ≤ 255)
    (length : randomness.length = secret.length * (k - 1))
    (tops : TopsNonzero (k - 1) secret.length randomness) :
    shareLoop k secret streams ⟨randomness, failure⟩ =
      .ok (splitLoop (k - 1) secret randomness streams, ⟨[], failure⟩) := by
  induction secret generalizing randomness streams with
  | nil =>
    rw [List.length_nil, Nat.zero_mul] at length
    rw [List.length_eq_zero_iff.1 length]
    rfl
  | cons secByte rest ih =>
    rw [List.length_cons, Nat.add_mul, Nat.one_mul] at length
    have top : randomness[k - 1 - 1]? ≠ some 0 := by
      simpa using tops 0 (by simp)
    have others : TopsNonzero (k - 1) rest.length (randomness.drop (k - 1)) := by
      intro b inside
      have here := tops (b + 1) (by simpa using inside)
      rw [Nat.add_mul, Nat.one_mul, Nat.add_right_comm] at here
      rwa [List.getElem?_drop, Nat.add_comm]
    have left : (randomness.drop (k - 1)).length = rest.length * (k - 1) := by
      rw [List.length_drop, length, Nat.add_sub_cancel]
    rw [shareLoop, chooseCoefficients_take failure atLeastTwo (by omega) top, ok_bind, splitLoop,
      appendColumn_eq _ room]
    exact ih (by rwa [pushColumn, List.length_mapIdx]) left others

/-- The pure module's loop builds a sharing, whatever the coefficients are. -/
theorem splitLoop_sharing {k n : Nat} (room : n ≤ 255) (positive : 1 ≤ k) {rest randomness : Bytes}
    {secret : Bytes} {streams : List Bytes} (sharing : SharingOf secret k n streams) :
    SharingOf (secret ++ rest) k n (splitLoop (k - 1) rest randomness streams) := by
  induction rest generalizing secret randomness streams with
  | nil => rwa [List.append_nil]
  | cons secByte rest ih =>
    have degree : (randomness.take (k - 1)).length < k := by
      rw [List.length_take]
      omega
    have pushed : SharingOf (secret ++ [secByte] ++ rest) k n
        (splitLoop (k - 1) rest (randomness.drop (k - 1))
          (pushColumn (secByte :: randomness.take (k - 1)) streams)) :=
      ih (sharing.push room degree secByte)
    rw [List.append_assoc] at pushed
    rw [splitLoop, appendColumn_eq _ (by rw [sharing.count]; exact room)]
    exact pushed

theorem SharingOf.mono {secret : Bytes} {k k' n : Nat} {streams : List Bytes}
    (sharing : SharingOf secret k n streams) (more : k ≤ k') : SharingOf secret k' n streams where
  count := sharing.count
  lengths := sharing.lengths
  columns b inside := by
    obtain ⟨p, small, constant, values⟩ := sharing.columns b inside
    exact ⟨p, small.trans_le (by exact_mod_cast more), constant, values⟩

/-! ## Shares of either side recover on both -/

/-- The shares a list of streams makes: indexes from one on. -/
def sharesOf (streams : List Bytes) : List Share := streams.mapIdx fun i y => ⟨i + 1, y⟩

/-- Any `k` or more of the shares, in any order, give the secret on either side. -/
def RecoveredOnBothSides (secret : Bytes) (k : Nat) (shares : List Share) : Prop :=
  ∀ held : List Share, held.Nodup → held ⊆ shares → k ≤ held.length →
    combine held = .ok secret ∧
    reconstructBytes (held.map nativeIndex) (held.map Share.y) held.length = .ok secret

theorem mem_sharesOf {streams : List Bytes} {s : Share} :
    s ∈ sharesOf streams ↔ ∃ index : Nat, streams[index]? = some s.y ∧ s.x = index + 1 := by
  rw [sharesOf, List.mem_mapIdx]
  constructor
  · rintro ⟨index, inside, rfl⟩
    exact ⟨index, List.getElem?_eq_getElem inside, rfl⟩
  · rintro ⟨index, found, isNext⟩
    obtain ⟨inside, same⟩ := List.getElem?_eq_some_iff.1 found
    exact ⟨index, inside, by rw [same, ← isNext]⟩

/-- A share of the streams is the stream at its index. -/
theorem read_share {secret : Bytes} {k n : Nat} {streams : List Bytes}
    (sharing : SharingOf secret k n streams) {s : Share} (mem : s ∈ sharesOf streams) :
    streams[s.x.toNat - 1]? = some s.y ∧ s.x = ((s.x.toNat - 1 : Nat) : Int) + 1 ∧
      s.x.toNat - 1 < n := by
  obtain ⟨index, found, isNext⟩ := mem_sharesOf.1 mem
  have inside := (List.getElem?_eq_some_iff.1 found).1
  have here : s.x.toNat - 1 = index := by omega
  rw [sharing.count] at inside
  rw [here]
  exact ⟨found, isNext, inside⟩

theorem share_byIndex {secret : Bytes} {k n : Nat} {streams : List Bytes}
    (sharing : SharingOf secret k n streams) {s s' : Share} (mem : s ∈ sharesOf streams)
    (mem' : s' ∈ sharesOf streams) (same : s.x = s'.x) : s = s' := by
  have found := (read_share sharing mem).1
  rw [same, (read_share sharing mem').1, Option.some.injEq] at found
  cases s
  cases s'
  simp_all

/-- Two or more of the shares are fit to be combined. -/
theorem wellFormed_held {secret : Bytes} {k n : Nat} {streams : List Bytes}
    (sharing : SharingOf secret k n streams) (room : n ≤ 255) {held : List Share}
    (distinct : held.Nodup) (fromShares : held ⊆ sharesOf streams) (two : 2 ≤ held.length) :
    WellFormed held secret.length := by
  refine ⟨two, fun s mem => ?_, ?_, fun s mem => ?_⟩
  · obtain ⟨-, isNext, inside⟩ := read_share sharing (fromShares mem)
    omega
  · exact distinct.map_on fun s mem s' mem' same =>
      share_byIndex sharing (fromShares mem) (fromShares mem') same
  · exact sharing.lengths _ (List.mem_of_getElem? (read_share sharing (fromShares mem)).1)

theorem sharing_recovered {secret : Bytes} {k n : Nat} {streams : List Bytes}
    (sharing : SharingOf secret k n streams) (valid : 2 ≤ k ∧ k ≤ n ∧ n ≤ 255)
    (fits : secret.length ≤ maxSecretBytes) : RecoveredOnBothSides secret k (sharesOf streams) := by
  intro held distinct fromShares enough
  have read := fun (s : Share) (mem : s ∈ held) => read_share sharing (fromShares mem)
  have byIndex : ∀ s ∈ held, ∀ s' ∈ held, s.x = s'.x → s = s' := fun s mem s' mem' =>
    share_byIndex sharing (fromShares mem) (fromShares mem')
  have formed := wellFormed_held sharing valid.2.2 distinct fromShares (Nat.le_trans valid.1 enough)
  have picks : (held.map fun s => s.x.toNat - 1).Nodup := by
    refine distinct.map_on fun s mem s' mem' same => byIndex s mem s' mem' ?_
    rw [(read s mem).2.1, (read s' mem').2.1, same]
  have known : ∀ index ∈ held.map fun s => s.x.toNat - 1, index < n := by
    intro index mem
    obtain ⟨s, here, rfl⟩ := List.mem_map.1 mem
    exact (read s here).2.2
  have few : held.length ≤ n := by
    have within := List.subperm_of_subset picks (fun i mem => List.mem_range.2 (known i mem))
    simpa using within.length_le
  have recovered := (SharingOf.mono sharing enough).reconstructs
    ⟨Nat.le_trans (by omega) enough, few, valid.2.2⟩ fits picks known (by rw [List.length_map])
  have indexes : (held.map fun s => s.x.toNat - 1).map position = held.map nativeIndex := by
    rw [List.map_map]
    refine List.map_congr_left fun s mem => ?_
    have isNext := (read s mem).2.1
    rw [Function.comp_apply, position, nativeIndex, Nat.sub_add_cancel (by omega)]
  have held_streams : ((held.map fun s => s.x.toNat - 1).map fun index => streams.getD index []) =
      held.map Share.y := by
    rw [List.map_map]
    refine List.map_congr_left fun s mem => ?_
    rw [Function.comp_apply, List.getD_eq_getElem?_getD, (read s mem).1, Option.getD_some]
  rw [indexes, held_streams] at recovered
  have same := (formed.reconstructBytes_eq fits).symm.trans recovered
  rw [Except.ok.injEq] at same
  exact ⟨by rw [formed.combine_eq, same], recovered⟩

theorem split_eq {secret randomness : Bytes} {k n : Nat} (nonempty : secret ≠ [])
    (valid : 2 ≤ k ∧ k ≤ n ∧ n ≤ 255) (length : randomness.length = secret.length * (k - 1)) :
    split secret k n randomness =
      .ok (sharesOf (splitLoop (k - 1) secret randomness (List.replicate n []))) := by
  have filled : secret.length ≠ 0 := fun none => nonempty (List.length_eq_zero_iff.1 none)
  rw [split, require_of filled, ok_bind, require_of valid, ok_bind]
  simp only []
  rw [require_of length, ok_bind, sharesOf]

/-- What `split` returns is a sharing of its secret. -/
theorem split_sharing {secret randomness : Bytes} {k n : Nat} {shares : List Share}
    (ran : split secret k n randomness = .ok shares) : (2 ≤ k ∧ k ≤ n ∧ n ≤ 255) ∧
      ∃ streams, SharingOf secret k n streams ∧ shares = sharesOf streams := by
  simp only [split, bind_eq_ok, require_eq_ok, exists_const, Except.ok.injEq] at ran
  obtain ⟨_, valid, _, rfl⟩ := ran
  have positive : 1 ≤ k := by omega
  exact ⟨valid, _, splitLoop_sharing valid.2.2 positive (.nothing k n), rfl⟩

/-- **The two modules share alike.**  The same coefficients, the top ones not zero, give the same
streams; the same shares give the same bytes; and what one side splits, whatever its randomness, any
threshold of the shares recovers on both. -/
theorem native_and_pure_interoperate {secret randomness : Bytes} {k n : Nat} (nonempty : secret ≠ [])
    (fits : secret.length ≤ maxSecretBytes) (valid : 2 ≤ k ∧ k ≤ n ∧ n ≤ 255)
    (length : randomness.length = secret.length * (k - 1))
    (tops : TopsNonzero (k - 1) secret.length randomness) (failure : String) :
    (∃ streams, shareBytesWithNext secret k n ⟨randomness, failure⟩ = .ok (streams, ⟨[], failure⟩) ∧
      split secret k n randomness = .ok (sharesOf streams)) ∧
    (∀ shares count, WellFormed shares count → count ≤ maxSecretBytes → ∃ bytes,
      reconstructBytes (shares.map nativeIndex) (shares.map Share.y) shares.length = .ok bytes ∧
      combine shares = .ok bytes) ∧
    (∀ source streams left, shareBytesWithNext secret k n source = .ok (streams, left) →
      RecoveredOnBothSides secret k (sharesOf streams)) ∧
    ∀ randomness shares, split secret k n randomness = .ok shares →
      RecoveredOnBothSides secret k shares := by
  refine ⟨⟨_, ?_, split_eq nonempty valid length⟩, ?_, ?_, ?_⟩
  · have params : ParamsValid k n := ⟨by omega, valid.2.1, valid.2.2⟩
    have room : (List.replicate n ([] : Bytes)).length ≤ 255 := by
      rw [List.length_replicate]
      exact valid.2.2
    rw [shareBytesWithNext, require_of params, ok_bind, require_of fits, ok_bind,
      shareLoop_eq failure valid.1 room length tops]
  · intro shares count formed small
    exact ⟨_, formed.reconstructBytes_eq small, formed.combine_eq⟩
  · intro source streams left ran
    exact sharing_recovered (shareBytesWithNext_sharing ran).2.2 valid fits
  · intro randomness shares ran
    obtain ⟨_, streams, sharing, rfl⟩ := split_sharing ran
    exact sharing_recovered sharing valid fits

theorem native_and_pure_interoperate_two_of_three :
    (∃ streams, shareBytesWithNext [7, 9] 2 3 ⟨[1, 2], ""⟩ = .ok (streams, ⟨[], ""⟩) ∧
      split [7, 9] 2 3 [1, 2] = .ok (sharesOf streams)) ∧
    ∃ bytes, reconstructBytes [1, 3] [[6, 11], [4, 15]] 2 = .ok bytes ∧
      combine [⟨1, [6, 11]⟩, ⟨3, [4, 15]⟩] = .ok bytes := by
  obtain ⟨splits, combines, _⟩ := @native_and_pure_interoperate [7, 9] [1, 2] 2 3 (by decide)
    (by decide) (by decide) (by decide) (by decide) ""
  refine ⟨splits, combines [⟨1, [6, 11]⟩, ⟨3, [4, 15]⟩] 2 ⟨?_, ?_, ?_, ?_⟩ ?_⟩ <;> decide

/-- Streams beyond the native bound: the crate refuses them, the pure module combines them. -/
theorem oversized_pair {stream : Bytes} (long : stream.length = 65537) :
    reconstructBytes [1, 2] [stream, stream] 2 = .error (.secretTooLarge 65537 65536) ∧
    ∃ bytes, combine [⟨1, stream⟩, ⟨2, stream⟩] = .ok bytes := by
  constructor
  · have large : ¬ (([stream, stream] : List Bytes).headD []).length ≤ maxSecretBytes := by
      rw [List.headD_cons, long]
      decide
    have sameLength : ([1, 2] : Bytes).length = [stream, stream].length := rfl
    have params : ¬ (2 = 0 ∨ maxParticipants < 2 ∨ maxParticipants < ([1, 2] : Bytes).length) := by
      decide
    rw [reconstructBytes, require_of sameLength, ok_bind, require_of (by decide), ok_bind,
      require_of params, ok_bind]
    simp only []
    rw [require_of_not large, error_bind, List.headD_cons, long]
    rfl
  · have formed : WellFormed [⟨1, stream⟩, ⟨2, stream⟩] 65537 := by
      refine ⟨Nat.le_refl 2, ?_, ?_, ?_⟩
      · simp
      · simp
      · simp [long]
    exact ⟨_, formed.combine_eq⟩

/-- The two sides differ on the empty secret, and on streams beyond the native bound. -/
theorem native_and_pure_differ :
    (shareBytesWithNext [] 2 2 ⟨[], ""⟩ = .ok ([[], []], ⟨[], ""⟩) ∧
      split [] 2 2 [] = .error (.valueError "secret must be at least 1 byte")) ∧
    reconstructBytes [1, 2] [List.replicate 65537 0, List.replicate 65537 0] 2 =
      .error (.secretTooLarge 65537 65536) ∧
    ∃ bytes, combine [⟨1, List.replicate 65537 0⟩, ⟨2, List.replicate 65537 0⟩] = .ok bytes :=
  ⟨⟨by decide, by decide⟩, oversized_pair List.length_replicate⟩

end OneLink.ThresholdRecovery.Threshold
