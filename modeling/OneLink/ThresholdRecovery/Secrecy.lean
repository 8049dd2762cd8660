/-
# ThresholdRecovery.Secrecy -- what the re-rolled top coefficient gives away

`k - 1` shares leave every secret byte exactly one coefficient vector.  The
source accepts it only if its top coefficient is not zero, and that fails for
one secret: the byte those shares already reconstruct to with threshold
`k - 1`.  So the shares rule that byte out (`draws_ncard`), and the counts for
two candidates agree exactly if neither is that byte (`shares_hide_iff`).
-/
import Mathlib.Data.Set.Card
import OneLink.ThresholdRecovery.Reconstruction

namespace OneLink.ThresholdRecovery

set_option autoImplicit false

open Library Library.Sharing

/-! ## The draws behind a coefficient vector -/

/-- The re-roll uses up its bytes exactly if all but the last one drawn are zero. -/
theorem rerollTop_spent {failure : String} {top chosen : UInt8} {bytes : Bytes} :
    rerollTop failure top bytes = .ok (chosen, ⟨[], failure⟩) ↔
      chosen ≠ 0 ∧ top :: bytes = List.replicate bytes.length 0 ++ [chosen] := by
  induction bytes generalizing top with
  | nil =>
    rw [rerollTop]
    by_cases zero : top = 0
    · rw [if_pos zero]
      simp only [reduceCtorEq, List.length_nil, List.replicate_zero, List.nil_append,
        List.cons.injEq, and_true, false_iff, not_and]
      exact fun nonzero same => nonzero (same ▸ zero)
    · rw [if_neg zero]
      simp only [Except.ok.injEq, Prod.mk.injEq, and_true, List.length_nil, List.replicate_zero,
        List.nil_append, List.cons.injEq]
      exact ⟨fun same => ⟨same ▸ zero, same⟩, And.right⟩
  | cons byte bytes ih =>
    rw [rerollTop]
    by_cases zero : top = 0
    · rw [if_pos zero, ih, List.length_cons, List.replicate_succ, List.cons_append, List.cons.injEq]
      simp only [zero, true_and]
    · rw [if_neg zero]
      simp [List.replicate_succ, zero]

theorem drawCoefficients_eq_ok {count : Nat} {source left : ByteSource} {drawn : Bytes} :
    drawCoefficients count source = .ok (drawn, left) ↔
      drawn.length = count ∧ source.bytes = drawn ++ left.bytes ∧ left.failure = source.failure := by
  induction count generalizing source left drawn with
  | zero =>
    obtain ⟨bytes, failure⟩ := source
    obtain ⟨rest, reason⟩ := left
    simp only [drawCoefficients, Except.ok.injEq, Prod.mk.injEq, ByteSource.mk.injEq,
      List.length_eq_zero_iff]
    constructor
    · rintro ⟨rfl, rfl, rfl⟩
      exact ⟨rfl, rfl, rfl⟩
    · rintro ⟨rfl, same, rfl⟩
      exact ⟨rfl, by simpa using same, rfl⟩
  | succ count ih =>
    obtain ⟨_ | ⟨byte, bytes⟩, failure⟩ := source
    · simp only [drawCoefficients, reduceCtorEq, false_iff, not_and]
      intro length same
      rw [List.nil_eq_append_iff] at same
      rw [same.1] at length
      cases length
    · simp only [drawCoefficients, bind_eq_ok, Prod.exists, ih, Except.ok.injEq, Prod.mk.injEq]
      constructor
      · rintro ⟨rest, _, ⟨length, same, kept⟩, rfl, rfl⟩
        exact ⟨by rw [List.length_cons, length], by rw [same, List.cons_append], kept⟩
      · rintro ⟨length, same, kept⟩
        obtain _ | ⟨head, rest⟩ := drawn
        · cases length
        · rw [List.cons_append] at same
          obtain ⟨rfl, behind⟩ := List.cons.inj same
          exact ⟨rest, left, ⟨by simpa using length, behind, kept⟩, rfl, rfl⟩

/-- The draws that leave nothing behind and choose a given vector after `rolls` re-rolls. -/
theorem chooseCoefficients_spent {k rolls : Nat} (two : 2 ≤ k) {failure : String}
    {drawn front : Bytes} {top : UInt8} (length : drawn.length = k - 1 + rolls) :
    chooseCoefficients k ⟨drawn, failure⟩ = .ok (front ++ [top], ⟨[], failure⟩) ↔
      front.length = k - 2 ∧ top ≠ 0 ∧ drawn = front ++ (List.replicate rolls 0 ++ [top]) := by
  simp only [chooseCoefficients, bind_eq_ok, Prod.exists, drawCoefficients_eq_ok]
  constructor
  · rintro ⟨first, ⟨rest, reason⟩, ⟨firstLength, same, rfl⟩, ran⟩
    obtain ⟨init, last, rfl⟩ : ∃ init last, first = init ++ [last] := by
      refine ⟨first.dropLast, first.getLast ?_, (List.dropLast_append_getLast _).symm⟩
      rintro rfl
      simp only [List.length_nil] at firstLength
      omega
    simp only [List.getLast?_concat, List.dropLast_concat, bind_eq_ok, Prod.exists, Except.ok.injEq,
      Prod.mk.injEq] at ran
    obtain ⟨chosen, left, rolled, shape, rfl⟩ := ran
    obtain ⟨rfl, single⟩ := List.append_inj' shape rfl
    simp only [List.cons.injEq, and_true] at single
    subst single
    obtain ⟨nonzero, zeros⟩ := rerollTop_spent.1 rolled
    simp only at same
    have count : rest.length = rolls := by
      rw [same, List.length_append, firstLength] at length
      omega
    rw [List.length_append, List.length_singleton] at firstLength
    refine ⟨by omega, nonzero, ?_⟩
    rw [same, List.append_assoc, ← count, ← zeros, List.singleton_append]
  · rintro ⟨frontLength, nonzero, rfl⟩
    obtain ⟨last, rest, zeros⟩ : ∃ last rest, List.replicate rolls (0 : UInt8) ++ [top] =
        last :: rest := List.exists_cons_of_ne_nil (by simp)
    have count : rest.length = rolls := by
      have lengths := congrArg List.length zeros
      simpa using lengths.symm
    refine ⟨front ++ [last], ⟨rest, failure⟩, ⟨?_, ?_, rfl⟩, ?_⟩
    · rw [List.length_append, List.length_singleton]
      omega
    · simp only [zeros, List.append_assoc, List.singleton_append]
    · have rolled : rerollTop failure last rest = .ok (top, ⟨[], failure⟩) :=
        rerollTop_spent.2 ⟨nonzero, by rw [count, ← zeros]⟩
      simp only [List.getLast?_concat, List.dropLast_concat, bind_eq_ok, Prod.exists]
      exact ⟨top, ⟨[], failure⟩, rolled, rfl⟩

/-! ## Counting the draws behind given shares -/

/-- The draws, `rolls` of them re-rolls, that make a split of one byte hand out these shares. -/
def draws (rolls : Nat) (secret : UInt8) (k n : Nat) (failure : String) (shares : List Share) :
    Set Bytes :=
  {drawn | drawn.length = k - 1 + rolls ∧ ∃ streams,
    shareBytesWithNext [secret] k n ⟨drawn, failure⟩ = .ok (streams, ⟨[], failure⟩) ∧
    ∀ share ∈ shares, streams[share.x.toNat - 1]? = some [share.y]}

theorem word_index {x : UInt8} (positive : x ≠ 0) :
    UInt32.ofNat (x.toNat - 1 + 1) = word (element x) := by
  have nonzero : x.toNat ≠ 0 := fun zero => positive (UInt8.toNat_inj.1 zero)
  rw [Nat.sub_add_cancel (Nat.pos_of_ne_zero nonzero), word_element]
  exact UInt32.toNat_inj.1 (by simp)

/-- The streams of a one-byte secret, read at the positions of the shares. -/
theorem oneByte_streams {secret : UInt8} {tail : Bytes} {n : Nat} {share : Share}
    (positive : share.x ≠ 0) (inRange : share.x.toNat ≤ n) :
    (pushColumn (secret :: tail) (List.replicate n []))[share.x.toNat - 1]? = some [share.y] ↔
      horner (element secret :: tail.map element) (element share.x) = element share.y := by
  have nonzero : share.x.toNat ≠ 0 := fun zero => positive (UInt8.toNat_inj.1 zero)
  have inside : share.x.toNat - 1 < n := by omega
  rw [pushColumn, List.getElem?_mapIdx, List.getElem?_replicate, if_pos inside, Option.map_some,
    List.nil_append, word_index positive, Option.some.injEq, List.cons.injEq, ← element_inj,
    element_shareValue, List.map_cons]
  simp

variable {k n rolls : Nat} {failure : String} {shares : List Share}

theorem mem_draws_iff (two : 2 ≤ k) (valid : ParamsValid k n)
    (inRange : ∀ share ∈ shares, share.x ≠ 0 ∧ share.x.toNat ≤ n) (secret : UInt8) (drawn : Bytes) :
    drawn ∈ draws rolls secret k n failure shares ↔ ∃ front top,
      drawn = front ++ (List.replicate rolls 0 ++ [top]) ∧ front.length = k - 2 ∧ top ≠ 0 ∧
      ∀ share ∈ shares, horner (element secret :: (front ++ [top]).map element) (element share.x) =
        element share.y := by
  have fits : [secret].length ≤ maxSecretBytes := by simp [maxSecretBytes]
  simp only [draws, Set.mem_ofPred_eq, shareBytesWithNext, require_of valid, require_of fits, ok_bind,
    shareLoop, bind_eq_ok, Prod.exists, Except.ok.injEq, Prod.mk.injEq]
  constructor
  · rintro ⟨length, _, ⟨tail, _, chosen, rfl, rfl⟩, values⟩
    obtain ⟨count, _⟩ := chooseCoefficients_spec chosen
    obtain ⟨front, top, rfl⟩ : ∃ front top, tail = front ++ [top] := by
      refine ⟨tail.dropLast, tail.getLast ?_, (List.dropLast_append_getLast _).symm⟩
      rintro rfl
      simp only [List.length_nil] at count
      omega
    obtain ⟨frontLength, nonzero, same⟩ := (chooseCoefficients_spent two length).1 chosen
    exact ⟨front, top, same, frontLength, nonzero, fun share mem =>
      (oneByte_streams (inRange share mem).1 (inRange share mem).2).1 (values share mem)⟩
  · rintro ⟨front, top, rfl, frontLength, nonzero, values⟩
    have length : (front ++ (List.replicate rolls 0 ++ [top])).length = k - 1 + rolls := by
      simp only [List.length_append, List.length_replicate, List.length_singleton]
      omega
    exact ⟨length, _, ⟨front ++ [top], _, (chooseCoefficients_spent two length).2
      ⟨frontLength, nonzero, rfl⟩, rfl, rfl⟩, fun share mem =>
        (oneByte_streams (inRange share mem).1 (inRange share mem).2).2 (values share mem)⟩

/-- The share values as a function on positions. -/
def valueAt (shares : List Share) (x : ByteField) : ByteField :=
  ((shares.find? fun share => element share.x = x).map fun share => element share.y).getD 0

theorem valueAt_share (distinct : (shares.map Share.x).Nodup) {share : Share}
    (mem : share ∈ shares) : valueAt shares (element share.x) = element share.y := by
  have found : shares.find? (fun other => element other.x = element share.x) = some share := by
    cases search : shares.find? (fun other => element other.x = element share.x) with
    | none =>
      have absent := List.find?_eq_none.1 search share mem
      simp at absent
    | some other =>
      have same : other.x = share.x := by simpa using List.find?_some search
      rw [List.inj_on_of_nodup_map distinct (List.mem_of_find?_eq_some search) mem same]
  rw [valueAt, found, Option.map_some, Option.getD_some]

theorem forall_nodes_iff {P : ByteField → Prop} :
    (∀ x ∈ nodes (shares.map Share.x), P x) ↔ ∀ share ∈ shares, P (element share.x) := by
  simp [nodes]

/-- One group of coefficient bytes goes through the secret byte and the shares. -/
theorem exists_unique_group (distinct : (shares.map Share.x).Nodup)
    (reserved : ∀ share ∈ shares, share.x ≠ 0) (secret : UInt8) :
    ∃! group : Bytes, group.length = shares.length ∧ ∀ share ∈ shares,
      horner (element secret :: group.map element) (element share.x) = element share.y := by
  have outside : (0 : ByteField) ∉ nodes (shares.map Share.x) := by
    refine zero_notMem_nodes ?_
    simp only [List.mem_map, not_exists, not_and]
    exact reserved
  have through : ∀ tail : List ByteField,
      (∀ x ∈ nodes (shares.map Share.x), horner (element secret :: tail) x = valueAt shares x) ↔
        ∀ share ∈ shares, horner (element secret :: tail) (element share.x) = element share.y := by
    intro tail
    rw [forall_nodes_iff]
    exact forall₂_congr fun share mem => by rw [valueAt_share distinct mem]
  obtain ⟨coeffs, ⟨length, fits⟩, unique⟩ :=
    exists_unique_coeffs outside (valueAt shares) (element secret)
  rw [card_nodes distinct, List.length_map] at length unique
  have back : (coeffs.map byteOf).map element = coeffs := by
    rw [List.map_map]
    exact List.map_id'' (fun _ => rfl) coeffs
  refine ⟨coeffs.map byteOf, ⟨by rw [List.length_map, length], ?_⟩, ?_⟩
  · rw [back]
    exact (through coeffs).1 fits
  · rintro group ⟨groupLength, values⟩
    have same := unique (group.map element)
      ⟨by rw [List.length_map, groupLength], (through _).2 values⟩
    rw [← back] at same
    exact List.map_injective_iff.2 (fun _ _ => element_inj.1) same

/-- What the shares alone reconstruct to is the value at zero of the polynomial through them. -/
theorem reconstructByte_shares (distinct : (shares.map Share.x).Nodup)
    (reserved : ∀ share ∈ shares, share.x ≠ 0) (some_ : shares ≠ [])
    (few : shares.length ≤ maxParticipants) :
    ∃ byte, reconstructByte shares shares.length = .ok byte ∧
      element byte = atZero (nodes (shares.map Share.x)) (valueAt shares) := by
  have positive := List.length_pos_iff.2 some_
  have admitted : ¬ (shares.length = 0 ∨ maxParticipants < shares.length ∨
      maxParticipants < shares.length) := by omega
  have nonzero : 0 ∉ shares.map Share.x := by
    simp only [List.mem_map, not_exists, not_and]
    exact reserved
  refine ⟨combine (shares.map Share.y) (lagrangeBasisAtZero shares), ?_, ?_⟩
  · rw [reconstructByte, require_of admitted, ok_bind, require_of (Nat.le_refl _), ok_bind,
      List.take_length, checkPositions, require_of nonzero, ok_bind, require_of distinct, ok_bind]
  · have degree := Lagrange.degree_interpolate_lt (valueAt shares)
      (Set.injOn_id (nodes (shares.map Share.x) : Set ByteField))
    rw [card_nodes distinct, List.length_map] at degree
    rw [combine_basis distinct degree, eval_interpolate_zero]
    intro share mem
    rw [← valueAt_share distinct mem]
    exact (Lagrange.eval_interpolate_at_node (valueAt shares) (Set.injOn_id _)
      (forall_nodes_iff.2 (fun share mem => by simpa [nodes] using ⟨share, mem, rfl⟩)
        (element share.x) (by simpa [nodes] using ⟨share, mem, rfl⟩))).symm

/-- **How many draws lie behind `k - 1` shares**: one for every number of re-rolls, but none for
the secret that the shares reconstruct to by themselves. -/
theorem draws_ncard (two : 2 ≤ k) (valid : ParamsValid k n) (count : shares.length = k - 1)
    (distinct : (shares.map Share.x).Nodup)
    (inRange : ∀ share ∈ shares, share.x ≠ 0 ∧ share.x.toNat ≤ n) (secret : UInt8) :
    (draws rolls secret k n failure shares).ncard =
      if reconstructByte shares (k - 1) = .ok secret then 0 else 1 := by
  have reserved : (0 : ByteField) ∉ nodes (shares.map Share.x) := by
    refine zero_notMem_nodes ?_
    simp only [List.mem_map, not_exists, not_and]
    exact fun share mem => (inRange share mem).1
  have card : (nodes (shares.map Share.x)).card = k - 1 := by
    rw [card_nodes distinct, List.length_map, count]
  obtain ⟨group, ⟨length, fits⟩, unique⟩ :=
    exists_unique_group distinct (fun share mem => (inRange share mem).1) secret
  rw [count] at length unique
  -- the one group, split at its top coefficient
  obtain ⟨front, top, rfl⟩ : ∃ front top, group = front ++ [top] := by
    refine ⟨group.dropLast, group.getLast ?_, (List.dropLast_append_getLast _).symm⟩
    rw [← List.length_pos_iff]
    omega
  rw [List.length_append, List.length_singleton] at length
  have only : ∀ drawn, drawn ∈ draws rolls secret k n failure shares ↔
      top ≠ 0 ∧ drawn = front ++ (List.replicate rolls 0 ++ [top]) := by
    intro drawn
    rw [mem_draws_iff two valid inRange]
    constructor
    · rintro ⟨front', top', rfl, frontLength, nonzero, values⟩
      have same := unique (front' ++ [top'])
        ⟨by rw [List.length_append, List.length_singleton]; omega, values⟩
      obtain ⟨rfl, single⟩ := List.append_inj' same rfl
      obtain rfl : top' = top := by simpa using single
      exact ⟨nonzero, rfl⟩
    · rintro ⟨nonzero, rfl⟩
      exact ⟨front, top, rfl, by omega, nonzero, fits⟩
  have vanishes : top = 0 ↔ reconstructByte shares (k - 1) = .ok secret := by
    have positive : shares ≠ [] := by
      rw [← List.length_pos_iff]
      omega
    have sampled : ∀ x ∈ nodes (shares.map Share.x),
        horner (element secret :: (front ++ [top]).map element) x = valueAt shares x := by
      rw [forall_nodes_iff]
      intro share mem
      rw [fits share mem, valueAt_share distinct mem]
    obtain ⟨byte, reconstructed, same⟩ := reconstructByte_shares distinct
      (fun share mem => (inRange share mem).1) positive
      (count ▸ (Nat.sub_le k 1).trans (valid.2.1.trans valid.2.2))
    rw [← count, reconstructed, Except.ok.injEq, ← @element_inj byte, same,
      ← top_eq_zero_iff reserved (by simp [card, length]) sampled, coeff_polynomial, card,
      List.map_append, ← List.cons_append, List.getD_append_right _ _ _ _ (by simp; omega)]
    have last : k - 1 - (element secret :: front.map element).length = 0 := by
      simp only [List.length_cons, List.length_map]
      omega
    rw [last, ← element_zero]
    exact element_inj.symm
  by_cases zero : top = 0
  · rw [if_pos (vanishes.1 zero), Set.eq_empty_of_forall_notMem fun drawn mem =>
      ((only drawn).1 mem).1 zero, Set.ncard_empty]
  · rw [if_neg fun same => zero (vanishes.2 same), Set.ncard_eq_one]
    refine ⟨front ++ (List.replicate rolls 0 ++ [top]), Set.ext fun drawn => ?_⟩
    rw [only, Set.mem_singleton_iff]
    exact ⟨And.right, fun same => ⟨zero, same⟩⟩

/-- **Two candidates have as many draws behind the shares exactly if they are the same byte or
neither is the one the shares already reconstruct to.** -/
theorem shares_hide_iff (two : 2 ≤ k) (valid : ParamsValid k n) (count : shares.length = k - 1)
    (distinct : (shares.map Share.x).Nodup)
    (inRange : ∀ share ∈ shares, share.x ≠ 0 ∧ share.x.toNat ≤ n) (rolls : Nat) (failure : String)
    (secret other : UInt8) :
    (draws rolls secret k n failure shares).ncard = (draws rolls other k n failure shares).ncard ↔
      secret = other ∨
        reconstructByte shares (k - 1) ≠ .ok secret ∧ reconstructByte shares (k - 1) ≠ .ok other := by
  rw [draws_ncard two valid count distinct inRange secret,
    draws_ncard two valid count distinct inRange other]
  by_cases left : reconstructByte shares (k - 1) = .ok secret
  · rw [if_pos left]
    by_cases right : reconstructByte shares (k - 1) = .ok other
    · rw [if_pos right]
      rw [left, Except.ok.injEq] at right
      exact ⟨fun _ => .inl right, fun _ => rfl⟩
    · rw [if_neg right]
      refine ⟨fun absurd => (nomatch absurd), ?_⟩
      rintro (rfl | ⟨absent, _⟩)
      · exact absurd left right
      · exact absurd left absent
  · rw [if_neg left]
    by_cases right : reconstructByte shares (k - 1) = .ok other
    · rw [if_pos right]
      refine ⟨fun absurd => (nomatch absurd), ?_⟩
      rintro (rfl | ⟨_, absent⟩)
      · exact absurd right left
      · exact absurd right absent
    · rw [if_neg right]
      exact ⟨fun _ => .inr ⟨left, right⟩, fun _ => rfl⟩

/-- Two of three holders: the share `7` at position one is as likely for `8` as for `9`. -/
theorem shares_hide_two_of_three :
    (draws 0 8 2 3 "" [⟨1, 7⟩]).ncard = (draws 0 9 2 3 "" [⟨1, 7⟩]).ncard :=
  (shares_hide_iff (by decide) (by decide) rfl (by decide) (by decide) 0 "" 8 9).2
    (by decide +kernel)

/-- It rules out the secret `7`. -/
theorem share_rules_out_its_value :
    (draws 0 7 2 3 "" [⟨1, 7⟩]).ncard ≠ (draws 0 8 2 3 "" [⟨1, 7⟩]).ncard := by
  have count := fun secret => @draws_ncard 2 3 0 "" [⟨1, 7⟩] (by decide) (by decide) rfl (by decide)
    (by decide) secret
  rw [count 7, count 8]
  decide +kernel

end OneLink.ThresholdRecovery
