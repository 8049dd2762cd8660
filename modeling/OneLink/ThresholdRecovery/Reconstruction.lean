/-
# ThresholdRecovery.Reconstruction -- any `k` streams give the secret back

`SharingOf` says what splitting establishes: byte by byte the streams are the
values, at the positions one to `n`, of a polynomial of degree below `k` whose
constant term is the secret byte.  Splitting builds it one column at a time
(`shareBytesWithNext_sharing`), and reconstruction needs nothing else
(`SharingOf.reconstructs`).
-/
import OneLink.Library.Sharing
import OneLink.ThresholdRecovery.Shamir

namespace OneLink.ThresholdRecovery

set_option autoImplicit false

open Library Library.Sharing

/-! ## Share values -/

theorem hornerWord (coeffs : Bytes) (x : ByteField) :
    coeffs.reverse.foldl (fun acc coefficient => gfAdd (gfMul acc (word x)) coefficient.toUInt32) 0 =
      word (horner (coeffs.map element) x) := by
  rw [List.foldl_reverse]
  induction coeffs with
  | nil => rfl
  | cons coeff rest ih =>
    rw [List.foldr_cons, ih, gfMul_word, ← word_element, gfAdd_word]
    rfl

theorem element_shareValue (coeffs : Bytes) (x : ByteField) :
    element (shareValue coeffs (word x)) = horner (coeffs.map element) x := by
  rw [shareValue, hornerWord, word_masked, toUInt8_word, element_byteOf]

/-- The position of the stream at an index. -/
def position (index : Nat) : UInt8 := UInt8.ofNat (index + 1)

theorem word_position {index : Nat} (inside : index < 255) :
    UInt32.ofNat (index + 1) = word (element (position index)) := by
  rw [word_element, position]
  apply UInt32.toNat_inj.1
  simp
  omega

/-! ## The basis -/

theorem sub_eq_add (a b : ByteField) : a - b = a + b := sub_eq_add_neg a b

theorem element_basisLoop (i : Nat) (x : UInt8) (others : List (Share × Nat))
    (distinct : ∀ other ∈ others, i = other.2 ↔ other.1.x = x) (num den : UInt8) :
    let quotient := others.foldl (fun (acc : UInt8 × UInt8) (other : Share × Nat) =>
      if i = other.2 then acc
      else (gfMulFast acc.1 other.1.x, gfMulFast acc.2 (x ^^^ other.1.x))) (num, den)
    element quotient.1 = element num *
        (others.map fun other => if other.1.x = x then 1 else element other.1.x).prod ∧
      element quotient.2 = element den *
        (others.map fun other => if other.1.x = x then 1 else element x + element other.1.x).prod := by
  induction others generalizing num den with
  | nil => simp
  | cons other rest ih =>
    have here := distinct other List.mem_cons_self
    have there : ∀ other ∈ rest, i = other.2 ↔ other.1.x = x := fun o mem =>
      distinct o (List.mem_cons_of_mem _ mem)
    simp only [List.foldl_cons, List.map_cons, List.prod_cons]
    by_cases same : i = other.2
    · simp only [if_pos same, if_pos (here.1 same), one_mul]
      exact ih there num den
    · have differs : other.1.x ≠ x := fun eq => same (here.2 eq)
      simp only [if_neg same, if_neg differs]
      obtain ⟨left, right⟩ := ih there (gfMulFast num other.1.x) (gfMulFast den (x ^^^ other.1.x))
      exact ⟨by rw [left, element_gfMulFast, mul_assoc],
        by rw [right, element_gfMulFast, element_xor, mul_assoc]⟩

/-- The positions as field elements. -/
def nodes (positions : Bytes) : Finset ByteField := (positions.map element).toFinset

theorem nodup_elements {positions : Bytes} (distinct : positions.Nodup) :
    (positions.map element).Nodup :=
  distinct.map fun _ _ => element_inj.1

theorem card_nodes {positions : Bytes} (distinct : positions.Nodup) :
    (nodes positions).card = positions.length := by
  rw [nodes, List.toFinset_card_of_nodup (nodup_elements distinct), List.length_map]

theorem zero_notMem_nodes {positions : Bytes} (reserved : 0 ∉ positions) :
    (0 : ByteField) ∉ nodes positions := by
  simp only [nodes, List.mem_toFinset, List.mem_map, not_exists, not_and]
  intro x mem zero
  exact reserved (element_inj.1 (zero.trans element_zero.symm) ▸ mem)

/-- A product over the other positions, as the loop forms it. -/
theorem prod_erase_nodes {positions : Bytes} (distinct : positions.Nodup) (x : UInt8)
    (f : ByteField → ByteField) :
    ∏ y ∈ (nodes positions).erase (element x), f y =
      (positions.map fun y => if y = x then 1 else f (element y)).prod := by
  have split : ∏ y ∈ (nodes positions).erase (element x), f y =
      ∏ y ∈ nodes positions, if y = element x then 1 else f y := by
    rw [← Finset.filter_ne', Finset.prod_filter]
    exact Finset.prod_congr rfl fun y _ => by by_cases same : y = element x <;> simp [same]
  rw [split, nodes, List.prod_toFinset _ (nodup_elements distinct), List.map_map]
  congr 1
  refine List.map_congr_left fun y _ => ?_
  simp

theorem weight_nodes {positions : Bytes} (distinct : positions.Nodup) (x : UInt8) :
    weight (nodes positions) (element x) =
      (positions.map fun y => if y = x then 1 else element y).prod /
      (positions.map fun y => if y = x then 1 else element x + element y).prod := by
  rw [weight, Finset.prod_div_distrib]
  simp only [sub_eq_add, zero_add]
  rw [prod_erase_nodes distinct x, prod_erase_nodes distinct x]

/-- Among shares at distinct positions, the index is the position. -/
theorem index_iff_position {shares : List Share} (distinct : (shares.map Share.x).Nodup) {i : Nat}
    (bound : i < shares.length) : ∀ other ∈ shares.zipIdx, i = other.2 ↔ other.1.x = shares[i].x := by
  rintro ⟨other, j⟩ mem
  obtain ⟨_, inRange, same⟩ := List.mem_zipIdx mem
  simp only [Nat.zero_add, Nat.sub_zero] at inRange same
  have unique := @List.Nodup.getElem_inj_iff _ (shares.map Share.x) distinct j
    (by simpa using inRange) i (by simpa using bound)
  simp only [List.getElem_map] at unique
  rw [same, unique, eq_comm]

theorem element_basis {shares : List Share} (distinct : (shares.map Share.x).Nodup) :
    (lagrangeBasisAtZero shares).map element =
      shares.map fun share => weight (nodes (shares.map Share.x)) (element share.x) := by
  refine List.ext_getElem (by simp [lagrangeBasisAtZero]) fun i inside inside' => ?_
  have bound : i < shares.length := by simpa using inside'
  obtain ⟨num, den⟩ :=
    element_basisLoop i shares[i].x shares.zipIdx (index_iff_position distinct bound) 1 1
  simp only [lagrangeBasisAtZero, List.getElem_map, List.getElem_mapIdx, element_gfDivFast, num, den,
    element_one, one_mul]
  rw [weight_nodes distinct]
  have plain : ∀ f : UInt8 → ByteField, shares.zipIdx.map (fun other => f other.1.x) =
      (shares.map Share.x).map f := fun f => by
    exact List.ext_getElem (by simp) fun j _ _ => by simp
  rw [plain fun y => if y = shares[i].x then 1 else element y,
    plain fun y => if y = shares[i].x then 1 else element shares[i].x + element y]

/-! ## The value at zero -/

theorem sumWord (pairs : List (UInt8 × UInt8)) (acc : ByteField) :
    pairs.foldl (fun acc (pair : UInt8 × UInt8) =>
        gfAdd acc (gfMul pair.1.toUInt32 pair.2.toUInt32)) (word acc) =
      word (acc + (pairs.map fun pair => element pair.1 * element pair.2).sum) := by
  induction pairs generalizing acc with
  | nil => simp
  | cons pair rest ih =>
    rw [List.foldl_cons, ← word_element, ← word_element, gfMul_word, gfAdd_word, ih, List.map_cons,
      List.sum_cons, add_assoc]

theorem element_combine (values basis : Bytes) :
    element (combine values basis) =
      ((values.zip basis).map fun pair => element pair.1 * element pair.2).sum := by
  have sum := sumWord (values.zip basis) 0
  rw [zero_add] at sum
  rw [combine]
  exact (congrArg (fun w : UInt32 => element (w &&& 0xFF).toUInt8) sum).trans
    (by rw [word_masked, toUInt8_word, element_byteOf])

/-- The inner product of share bytes and basis is the value at zero of any polynomial of
fitting degree they lie on. -/
theorem combine_basis {shares : List Share} (distinct : (shares.map Share.x).Nodup)
    {p : Polynomial ByteField} (small : p.degree < shares.length)
    (sampled : ∀ share ∈ shares, element share.y = p.eval (element share.x)) :
    element (combine (shares.map Share.y) (lagrangeBasisAtZero shares)) = p.eval 0 := by
  have degree : p.degree < (nodes (shares.map Share.x)).card := by
    rwa [card_nodes distinct, List.length_map]
  rw [← atZero_of_degree_lt degree (fun x _ => rfl : ∀ x ∈ _, p.eval x = p.eval x), atZero, nodes,
    List.sum_toFinset _ (nodup_elements distinct), element_combine, ← nodes]
  congr 1
  refine List.ext_getElem (by simp [lagrangeBasisAtZero]) fun i inside inside' => ?_
  have bound : i < shares.length := by simpa using inside'
  have basis := congrArg (fun l => l[i]?) (element_basis distinct)
  have here : i < (lagrangeBasisAtZero shares).length := by simpa [lagrangeBasisAtZero] using bound
  simp only [List.getElem?_map, List.getElem?_eq_getElem bound, List.getElem?_eq_getElem here,
    Option.map_some, Option.some.injEq] at basis
  simp only [List.getElem_map, List.getElem_zip, basis, sampled _ (List.getElem_mem bound)]

/-! ## What splitting establishes -/

/-- The streams are values of polynomials of degree below `k` with the secret as constant terms. -/
structure SharingOf (secret : Bytes) (k n : Nat) (streams : List Bytes) : Prop where
  count : streams.length = n
  lengths : ∀ stream ∈ streams, stream.length = secret.length
  columns : ∀ (b : Nat) (inside : b < secret.length), ∃ p : Polynomial ByteField,
    p.degree < k ∧ p.eval 0 = element secret[b] ∧
    ∀ (index : Nat) (stream : Bytes), streams[index]? = some stream →
      (stream[b]?).map element = some (p.eval (element (position index)))

theorem SharingOf.nothing (k n : Nat) : SharingOf [] k n (List.replicate n []) where
  count := List.length_replicate
  lengths := by simp +contextual
  columns := by simp

theorem drawCoefficients_length {count : Nat} {source left : ByteSource} {drawn : Bytes}
    (ran : drawCoefficients count source = .ok (drawn, left)) : drawn.length = count := by
  induction count generalizing source drawn with
  | zero =>
    simp only [drawCoefficients, Except.ok.injEq, Prod.mk.injEq] at ran
    rw [← ran.1, List.length_nil]
  | succ count ih =>
    obtain ⟨_ | ⟨byte, bytes⟩, failure⟩ := source
    · simp [drawCoefficients] at ran
    · simp only [drawCoefficients, bind_eq_ok, Prod.exists, Except.ok.injEq, Prod.mk.injEq] at ran
      obtain ⟨rest, _, drew, rfl, rfl⟩ := ran
      rw [List.length_cons, ih drew]

theorem rerollTop_ne_zero {failure : String} {top chosen : UInt8} {bytes : Bytes}
    {left : ByteSource} (ran : rerollTop failure top bytes = .ok (chosen, left)) : chosen ≠ 0 := by
  induction bytes generalizing top with
  | nil =>
    rw [rerollTop] at ran
    split at ran
    · cases ran
    · cases ran
      assumption
  | cons byte bytes ih =>
    rw [rerollTop] at ran
    split at ran
    · exact ih ran
    · cases ran
      assumption

theorem rerollTop_of_ne {failure : String} {top : UInt8} (bytes : Bytes) (nonzero : top ≠ 0) :
    rerollTop failure top bytes = .ok (top, ⟨bytes, failure⟩) := by
  cases bytes <;> rw [rerollTop, if_neg nonzero]

/-- The chosen coefficients: `k - 1` of them, the top one not zero. -/
theorem chooseCoefficients_spec {k : Nat} {source left : ByteSource} {tail : Bytes}
    (ran : chooseCoefficients k source = .ok (tail, left)) :
    tail.length = k - 1 ∧ tail.getLast? ≠ some 0 := by
  simp only [chooseCoefficients, bind_eq_ok, Prod.exists] at ran
  obtain ⟨drawn, rest, drew, ran⟩ := ran
  have length := drawCoefficients_length drew
  cases top : drawn.getLast? with
  | none =>
    simp only [top, Except.ok.injEq, Prod.mk.injEq] at ran
    rw [← ran.1, top]
    exact ⟨length, by simp⟩
  | some last =>
    simp only [top, bind_eq_ok, Prod.exists, Except.ok.injEq, Prod.mk.injEq] at ran
    obtain ⟨chosen, _, rolled, rfl, rfl⟩ := ran
    have nonempty : drawn ≠ [] := by rintro rfl; cases top
    refine ⟨?_, by simpa using rerollTop_ne_zero rolled⟩
    have positive := List.length_pos_iff.2 nonempty
    rw [List.length_append, List.length_dropLast, List.length_singleton]
    omega

/-- One column more. -/
theorem SharingOf.push {secret : Bytes} {k n : Nat} {streams : List Bytes}
    (sharing : SharingOf secret k n streams) (room : n ≤ 255) {tail : Bytes}
    (degree : tail.length < k) (byte : UInt8) :
    SharingOf (secret ++ [byte]) k n (pushColumn (byte :: tail) streams) where
  count := by rw [pushColumn, List.length_mapIdx, sharing.count]
  lengths stream mem := by
    obtain ⟨index, inside, rfl⟩ := List.mem_iff_getElem.1 mem
    simp only [pushColumn, List.getElem_mapIdx, List.length_append, List.length_singleton]
    rw [sharing.lengths _ (List.getElem_mem _)]
  columns b inside := by
    have grown : ∀ (index : Nat) (stream : Bytes),
        (pushColumn (byte :: tail) streams)[index]? = some stream → ∃ old,
          streams[index]? = some old ∧
          stream = old ++ [shareValue (byte :: tail) (UInt32.ofNat (index + 1))] := by
      intro index stream found
      simp only [pushColumn, List.getElem?_mapIdx, Option.map_eq_some_iff] at found
      obtain ⟨old, here, rfl⟩ := found
      exact ⟨old, here, rfl⟩
    by_cases earlier : b < secret.length
    · obtain ⟨p, small, constant, values⟩ := sharing.columns b earlier
      refine ⟨p, small, by rwa [List.getElem_append_left earlier], fun index stream found => ?_⟩
      obtain ⟨old, here, rfl⟩ := grown index stream found
      have longer : b < old.length := by
        rwa [sharing.lengths old (List.mem_of_getElem? here)]
      rw [List.getElem?_append_left longer]
      exact values index old here
    · have last : b = secret.length := by
        rw [List.length_append, List.length_singleton] at inside
        omega
      subst last
      refine ⟨polynomial ((byte :: tail).map element), ?_, ?_, fun index stream found => ?_⟩
      · refine (degree_polynomial _).trans_le ?_
        simp only [List.length_map, List.length_cons]
        exact_mod_cast degree
      · simp
      · obtain ⟨old, here, rfl⟩ := grown index stream found
        have bound : index < n := by
          rw [← sharing.count]
          exact (List.getElem?_eq_some_iff.1 here).1
        rw [← sharing.lengths old (List.mem_of_getElem? here), List.getElem?_concat_length,
          Option.map_some, word_position (Nat.lt_of_lt_of_le bound room), element_shareValue,
          eval_polynomial]

theorem shareLoop_sharing {k n : Nat} (room : n ≤ 255) (positive : 1 ≤ k) {rest : Bytes}
    {streams shared : List Bytes} {source left : ByteSource} {secret : Bytes}
    (sharing : SharingOf secret k n streams)
    (ran : shareLoop k rest streams source = .ok (shared, left)) :
    SharingOf (secret ++ rest) k n shared := by
  induction rest generalizing secret streams source with
  | nil =>
    simp only [shareLoop, Except.ok.injEq, Prod.mk.injEq] at ran
    rw [List.append_nil, ← ran.1]
    exact sharing
  | cons byte rest ih =>
    simp only [shareLoop, bind_eq_ok, Prod.exists] at ran
    obtain ⟨tail, _, chosen, ran⟩ := ran
    have degree : tail.length < k := by
      rw [(chooseCoefficients_spec chosen).1]
      omega
    have pushed := ih (sharing.push room degree byte) ran
    rwa [List.append_assoc] at pushed

/-- What `share_bytes_with_next` returns is a sharing of its secret. -/
theorem shareBytesWithNext_sharing {secret : Bytes} {k n : Nat} {source left : ByteSource}
    {streams : List Bytes} (ran : shareBytesWithNext secret k n source = .ok (streams, left)) :
    ParamsValid k n ∧ secret.length ≤ maxSecretBytes ∧ SharingOf secret k n streams := by
  simp only [shareBytesWithNext, bind_eq_ok, require_eq_ok, exists_const] at ran
  obtain ⟨valid, fits, ran⟩ := ran
  exact ⟨valid, fits, shareLoop_sharing valid.2.2 valid.1 (.nothing k n) ran⟩

/-! ## Reconstruction from picked streams -/

theorem position_inj {i j : Nat} (left : i < 255) (right : j < 255)
    (same : position i = position j) : i = j := by
  have values := congrArg UInt8.toNat same
  simp only [position, UInt8.toNat_ofNat'] at values
  omega

theorem position_ne_zero {i : Nat} (inside : i < 255) : position i ≠ 0 := by
  intro zero
  have values := congrArg UInt8.toNat zero
  simp only [position, UInt8.toNat_ofNat', UInt8.toNat_zero] at values
  omega

theorem positions_nodup {picks : List Nat} (distinct : picks.Nodup)
    (known : ∀ index ∈ picks, index < 255) : (picks.map position).Nodup :=
  distinct.map_on fun _ left _ right => position_inj (known _ left) (known _ right)

theorem checkPositions_picks {picks : List Nat} (distinct : picks.Nodup)
    (known : ∀ index ∈ picks, index < 255) : checkPositions (picks.map position) = .ok () := by
  have reserved : 0 ∉ picks.map position := by
    simp only [List.mem_map, not_exists, not_and]
    exact fun index mem => position_ne_zero (known index mem)
  rw [checkPositions, require_of reserved, ok_bind, require_of (positions_nodup distinct known)]

theorem checkLengths_ok {expected index : Nat} {streams : List Bytes}
    (lengths : ∀ stream ∈ streams, stream.length = expected) :
    checkLengths expected index streams = .ok () := by
  induction streams generalizing index with
  | nil => rfl
  | cons stream rest ih =>
    rw [checkLengths, require_of (lengths stream List.mem_cons_self), ok_bind,
      ih fun stream mem => lengths stream (List.mem_cons_of_mem _ mem)]

/-- The basis reads positions only. -/
theorem lagrangeBasisAtZero_congr {shares others : List Share}
    (distinct : (shares.map Share.x).Nodup) (same : shares.map Share.x = others.map Share.x) :
    lagrangeBasisAtZero shares = lagrangeBasisAtZero others := by
  have weights : ∀ shares : List Share,
      (shares.map fun share => weight (nodes (shares.map Share.x)) (element share.x)) =
        (shares.map Share.x).map fun x => weight (nodes (shares.map Share.x)) (element x) :=
    fun shares => by rw [List.map_map]; rfl
  have elements : (lagrangeBasisAtZero shares).map element =
      (lagrangeBasisAtZero others).map element := by
    rw [element_basis distinct, element_basis (same ▸ distinct), weights shares, weights others, same]
  exact List.map_injective_iff.2 (fun _ _ => element_inj.1) elements

/-- **Any `k` of the streams, in any order, give the secret.** -/
theorem SharingOf.reconstructs {secret : Bytes} {k n : Nat} {streams : List Bytes}
    (sharing : SharingOf secret k n streams) (valid : ParamsValid k n)
    (fits : secret.length ≤ maxSecretBytes) {picks : List Nat} (distinct : picks.Nodup)
    (known : ∀ index ∈ picks, index < n) (enough : k ≤ picks.length) :
    reconstructBytes (picks.map position) (picks.map fun index => streams.getD index []) k =
      .ok secret := by
  obtain ⟨positive, _, room⟩ := valid
  have known255 : ∀ index ∈ picks, index < 255 := fun index mem =>
    Nat.lt_of_lt_of_le (known index mem) room
  have few : picks.length ≤ n := by
    have sub := List.subperm_of_subset distinct (fun i mem => List.mem_range.2 (known i mem))
    simpa using sub.length_le
  have read : ∀ index ∈ picks, streams[index]? = some (streams.getD index []) := fun index mem => by
    have bound : index < streams.length := by rw [sharing.count]; exact known index mem
    simp [bound]
  have lengths : ∀ stream ∈ picks.map (fun index => streams.getD index []),
      stream.length = secret.length := by
    intro stream mem
    obtain ⟨index, picked, rfl⟩ := List.mem_map.1 mem
    exact sharing.lengths _ (List.mem_of_getElem? (read index picked))
  have head : ((picks.map fun index => streams.getD index []).headD []).length = secret.length := by
    cases picks with
    | nil => simp at enough; omega
    | cons index rest => exact lengths _ List.mem_cons_self
  have selected : (picks.take k).Nodup := distinct.sublist (List.take_sublist ..)
  have selectedKnown : ∀ index ∈ picks.take k, index < 255 := fun index mem =>
    known255 index (List.mem_of_mem_take mem)
  have columns : (List.range secret.length).map (fun b =>
      combine (((picks.map fun index => streams.getD index []).take k).map fun s => s.getD b 0)
        (lagrangeBasisAtZero (((picks.map position).take k).map fun x => ⟨x, 0⟩))) = secret := by
    refine List.ext_getElem (by simp) fun b inside inside' => ?_
    obtain ⟨p, small, constant, values⟩ := sharing.columns b inside'
    let shares : List Share := (picks.take k).map fun index =>
      ⟨position index, (streams.getD index []).getD b 0⟩
    have distinctShares : (shares.map Share.x).Nodup := by
      rw [List.map_map]
      exact positions_nodup selected selectedKnown
    have sameBasis : lagrangeBasisAtZero (((picks.map position).take k).map fun x => ⟨x, 0⟩) =
        lagrangeBasisAtZero shares := by
      refine (lagrangeBasisAtZero_congr distinctShares ?_).symm
      simp [shares, List.map_take, Function.comp_def]
    have sameValues : ((picks.map fun index => streams.getD index []).take k).map
        (fun s => s.getD b 0) = shares.map Share.y := by
      simp [shares, List.map_take, Function.comp_def]
    simp only [List.getElem_map, List.getElem_range]
    rw [sameBasis, sameValues, ← element_inj, ← constant]
    refine combine_basis distinctShares ?_ ?_
    · rwa [List.length_map, List.length_take, Nat.min_eq_left enough]
    · intro share mem
      obtain ⟨index, picked, rfl⟩ := List.mem_map.1 mem
      have value := values index _ (read index (List.mem_of_mem_take picked))
      obtain ⟨byte, found, same⟩ := Option.map_eq_some_iff.1 value
      rw [← same, List.getD_eq_getElem?_getD, found, Option.getD_some]
  have admitted : ¬ (k = 0 ∨ maxParticipants < k ∨ maxParticipants < (picks.map position).length) := by
    rw [List.length_map]
    simp only [maxParticipants] at room ⊢
    omega
  have counted : k ≤ (picks.map position).length % 2 ^ 32 := by
    rw [List.length_map, Nat.mod_eq_of_lt]
    · exact enough
    · simp only [maxParticipants] at room
      omega
  rw [reconstructBytes, require_of (by simp), ok_bind, require_of counted, ok_bind,
    require_of admitted, ok_bind]
  simp only [head]
  rw [require_of fits, ok_bind, checkLengths_ok lengths, ok_bind, ← List.map_take,
    checkPositions_picks selected selectedKnown, ok_bind, List.map_take, columns]

end OneLink.ThresholdRecovery
