/-
# Canon.Minimal -- which accepted bytes the encoder would have written

`decode_varint` reads the bytes up to the first one without a continuation bit.  It
does not ask whether they are the shortest form, and of a tenth byte it keeps the
lowest bit without looking at the others: the check it makes is on the amount of the
shift alone.  A varint comes back byte by byte exactly if it is `Minimal`: no zero
byte at the end of a longer one, and nothing but a one in a tenth byte
(`decodeVarint_canonical_iff`).

A tag, a raw slice and a text come back as they are, so a call returns to its bytes
exactly if the varints in it are minimal (`decode_canonical_iff`).  A float does if its
pattern is the canonical one, which the decoder does not ask for.
-/
import Mathlib.Data.FinEnum
import OneLink.Canon.RoundTrip
import OneLink.Library.ByteReader

namespace OneLink.Canon

open Library

set_option autoImplicit false

/-! ## The bytes of a varint -/

/-- The bytes up to the first one without a continuation bit. -/
def group : Bytes → Bytes
  | [] => []
  | byte :: rest => if byte &&& 0x80 = 0 then [byte] else byte :: group rest

/-- Bytes that are one group: the last one, and only that, has no continuation bit. -/
def IsGroup : Bytes → Prop
  | [] => False
  | [byte] => byte.toNat < 128
  | byte :: next :: rest => 128 ≤ byte.toNat ∧ IsGroup (next :: rest)

/-- The last byte holds bits that are needed, and a tenth one holds no more than one. -/
def Minimal (bytes : Bytes) : Prop :=
  (bytes.length = 1 ∨ bytes.getLast? ≠ some 0) ∧
    (bytes.length = maxVarintBytes → bytes.getLast? = some 1)

instance (bytes : Bytes) : Decidable (Minimal bytes) := inferInstanceAs (Decidable (_ ∧ _))

/-- The varint in front of the input is minimal. -/
def MinimalVarint (input : Bytes) : Prop := Minimal (group input)

/-- The number a group writes, seven bits a byte, lowest first. -/
def groupValue : Bytes → Nat
  | [] => 0
  | byte :: rest => byte.toNat % 128 + 128 * groupValue rest

theorem IsGroup.ne_nil {bytes : Bytes} (grouped : IsGroup bytes) : bytes ≠ [] := by
  rintro rfl
  exact grouped

/-- What stands behind a group is not looked at. -/
theorem group_append {bytes : Bytes} (grouped : IsGroup bytes) (rest : Bytes) :
    group (bytes ++ rest) = bytes := by
  induction bytes with
  | nil => exact absurd grouped id
  | cons byte more ih =>
    rw [List.cons_append, group]
    cases more with
    | nil => rw [if_pos ((last_iff byte).mpr grouped)]
    | cons next more =>
      rw [if_neg fun last => by
        have small := (last_iff byte).mp last
        have large := grouped.1
        omega, ih grouped.2]

theorem isGroup_encodeVarint (value : UInt64) : IsGroup (encodeVarint value) := by
  induction value using encodeVarint.induct with
  | case1 value done =>
    rw [encodeVarint, if_pos done]
    show ((value &&& 0x7F).toUInt8).toNat < 128
    rw [toNat_low]
    omega
  | case2 value more ih =>
    have byte : 128 ≤ ((value &&& 0x7F).toUInt8 ||| 0x80).toNat := by
      rw [toNat_continued (by rw [toNat_low]; omega)]
      omega
    obtain ⟨next, rest, shape⟩ := List.exists_cons_of_ne_nil (encodeVarint_ne_nil (value >>> 7))
    rw [encodeVarint, if_neg more]
    rw [shape] at ih ⊢
    exact ⟨byte, ih⟩

theorem groupValue_encodeVarint (value : UInt64) :
    groupValue (encodeVarint value) = value.toNat := by
  induction value using encodeVarint.induct with
  | case1 value done =>
    have small := congrArg UInt64.toNat done
    rw [toNat_shiftRight_seven, UInt64.toNat_zero] at small
    rw [encodeVarint, if_pos done, groupValue, groupValue, toNat_low]
    omega
  | case2 value more ih =>
    rw [encodeVarint, if_neg more, groupValue, ih, toNat_shiftRight_seven,
      toNat_continued (by rw [toNat_low]; omega), toNat_low]
    omega

/-- The last byte of a group bounds the number from both sides. -/
theorem groupValue_bounds {bytes : Bytes} {last : UInt8} (grouped : IsGroup bytes)
    (ends : bytes.getLast? = some last) :
    last.toNat * 128 ^ (bytes.length - 1) ≤ groupValue bytes ∧
      groupValue bytes < (last.toNat + 1) * 128 ^ (bytes.length - 1) := by
  induction bytes with
  | nil => exact absurd grouped id
  | cons byte more ih =>
    cases more with
    | nil =>
      obtain rfl : byte = last := by simpa using ends
      have small : byte.toNat < 128 := grouped
      simp only [groupValue, List.length_singleton, Nat.sub_self, Nat.pow_zero]
      omega
    | cons next more =>
      rw [List.getLast?_cons_cons] at ends
      obtain ⟨low, high⟩ := ih grouped.2 ends
      have power : 128 ^ ((byte :: next :: more).length - 1) =
          128 * 128 ^ ((next :: more).length - 1) := by
        simp only [List.length_cons, Nat.add_sub_cancel, Nat.pow_succ, Nat.mul_comm]
      rw [groupValue, power]
      generalize 128 ^ ((next :: more).length - 1) = size at low high ⊢
      generalize groupValue (next :: more) = value at low high ⊢
      constructor
      · calc last.toNat * (128 * size) = 128 * (last.toNat * size) := by ring
          _ ≤ byte.toNat % 128 + 128 * value := by omega
      · calc byte.toNat % 128 + 128 * value < 128 * ((last.toNat + 1) * size) := by omega
          _ = (last.toNat + 1) * (128 * size) := by ring

/-! ## Minimal groups -/

theorem getLast_encodeVarint {value : UInt64} (nonzero : value ≠ 0) :
    (encodeVarint value).getLast? ≠ some 0 := by
  induction value using encodeVarint.induct with
  | case1 value done =>
    rw [encodeVarint, if_pos done]
    simp only [List.getLast?_singleton, ne_eq, Option.some.injEq]
    intro zero
    have small := congrArg UInt64.toNat done
    have low := congrArg UInt8.toNat zero
    rw [toNat_shiftRight_seven, UInt64.toNat_zero] at small
    rw [toNat_low, UInt8.toNat_zero] at low
    exact nonzero (UInt64.toNat_inj.mp (by rw [UInt64.toNat_zero]; omega))
  | case2 value more ih =>
    obtain ⟨next, rest, shape⟩ := List.exists_cons_of_ne_nil (encodeVarint_ne_nil (value >>> 7))
    have tail := ih more
    rw [encodeVarint, if_neg more]
    rw [shape] at tail ⊢
    rwa [List.getLast?_cons_cons]

/-- The encoder writes minimal groups. -/
theorem minimal_encodeVarint (value : UInt64) : Minimal (encodeVarint value) := by
  by_cases zero : value = 0
  · rw [zero]
    have single : encodeVarint 0 = [0] := by rw [encodeVarint, if_pos (by decide)]; rfl
    rw [single]
    decide
  · have nonzero := getLast_encodeVarint zero
    refine ⟨.inr nonzero, fun ten => ?_⟩
    have ends := List.getLast?_eq_some_getLast (encodeVarint_ne_nil value)
    have bound := (groupValue_bounds (isGroup_encodeVarint value) ends).1
    rw [groupValue_encodeVarint, ten] at bound
    have limit := value.toNat_lt
    have small : ((encodeVarint value).getLast (encodeVarint_ne_nil value)).toNat < 2 := by
      by_contra large
      have power : 2 * 128 ^ (maxVarintBytes - 1) ≤
          ((encodeVarint value).getLast (encodeVarint_ne_nil value)).toNat *
            128 ^ (maxVarintBytes - 1) := Nat.mul_le_mul_right _ (by omega)
      have total : 2 * 128 ^ (maxVarintBytes - 1) = 2 ^ 64 := by decide
      omega
    rw [ends] at nonzero ⊢
    have positive : ((encodeVarint value).getLast (encodeVarint_ne_nil value)).toNat ≠ 0 :=
      fun none => nonzero (congrArg some (UInt8.toNat_inj.mp none))
    exact congrArg some (UInt8.toNat_inj.mp (by rw [UInt8.toNat_one]; omega))

/-- The encoder writes a group without a superfluous last byte as it is. -/
theorem encodeVarint_groupValue {bytes : Bytes} (grouped : IsGroup bytes)
    (short : bytes.length = 1 ∨ bytes.getLast? ≠ some 0) (fits : groupValue bytes < 2 ^ 64) :
    encodeVarint (UInt64.ofNat (groupValue bytes)) = bytes := by
  induction bytes with
  | nil => exact absurd grouped id
  | cons byte more ih =>
    have value : (UInt64.ofNat (groupValue (byte :: more))).toNat =
        groupValue (byte :: more) := by
      rw [UInt64.toNat_ofNat', Nat.mod_eq_of_lt fits]
    have shifted : (UInt64.ofNat (groupValue (byte :: more))) >>> 7 =
        UInt64.ofNat (groupValue more) := by
      apply UInt64.toNat_inj.mp
      have unfolded : groupValue (byte :: more) = byte.toNat % 128 + 128 * groupValue more := rfl
      rw [toNat_shiftRight_seven, value, UInt64.toNat_ofNat', Nat.mod_eq_of_lt (by omega)]
      omega
    have low : ((UInt64.ofNat (groupValue (byte :: more)) &&& 0x7F).toUInt8).toNat =
        byte.toNat % 128 := by
      rw [toNat_low, value, groupValue]
      omega
    have sizeOfByte := byte.toNat_lt
    rw [encodeVarint, shifted]
    cases more with
    | nil =>
      have small : byte.toNat < 128 := grouped
      rw [if_pos (by rfl)]
      refine congrArg (· :: []) (UInt8.toNat_inj.mp ?_)
      rw [low]
      omega
    | cons next more =>
      obtain ⟨large, rest⟩ := grouped
      have ends := List.getLast?_eq_some_getLast (List.cons_ne_nil next more)
      have last : (byte :: next :: more).getLast? ≠ some 0 := by
        rcases short with single | nonzero
        · simp at single
        · exact nonzero
      rw [List.getLast?_cons_cons] at last
      have bound := (groupValue_bounds rest ends).1
      have positive : ((next :: more).getLast (List.cons_ne_nil next more)).toNat ≠ 0 := by
        intro zero
        rw [ends] at last
        exact last (congrArg some (UInt8.toNat_inj.mp zero))
      have above : 0 < groupValue (next :: more) :=
        Nat.lt_of_lt_of_le (Nat.mul_pos (Nat.pos_of_ne_zero positive) (Nat.pow_pos (by decide)))
          bound
      have restFits : groupValue (next :: more) < 2 ^ 64 := by
        rw [groupValue] at fits
        omega
      have more' : UInt64.ofNat (groupValue (next :: more)) ≠ 0 := by
        intro zero
        have none := congrArg UInt64.toNat zero
        rw [UInt64.toNat_ofNat', Nat.mod_eq_of_lt restFits, UInt64.toNat_zero] at none
        omega
      rw [if_neg more', ih rest (.inr last) restFits]
      refine congrArg (· :: next :: more) (UInt8.toNat_inj.mp ?_)
      rw [toNat_continued (by omega), low]
      omega

theorem groupValue_lt_pow (bytes : Bytes) : groupValue bytes < 128 ^ bytes.length := by
  induction bytes with
  | nil => exact Nat.one_pos
  | cons byte more ih =>
    rw [groupValue, List.length_cons, Nat.pow_succ]
    omega

theorem groupValue_lt {bytes : Bytes} (grouped : IsGroup bytes) (minimal : Minimal bytes)
    (short : bytes.length ≤ maxVarintBytes) : groupValue bytes < 2 ^ 64 := by
  have ends := List.getLast?_eq_some_getLast grouped.ne_nil
  have bound := (groupValue_bounds grouped ends).2
  have ten : maxVarintBytes = 10 := rfl
  by_cases full : bytes.length = maxVarintBytes
  · have one := minimal.2 full
    rw [ends, Option.some.injEq] at one
    rw [one, full] at bound
    exact bound
  · calc groupValue bytes < 128 ^ bytes.length := groupValue_lt_pow bytes
      _ ≤ 128 ^ 9 := Nat.pow_le_pow_right (by decide) (by omega)
      _ < 2 ^ 64 := by decide

/-! ## What `decode_varint` reads -/

theorem decodeVarintLoop_group {pos shift bytes k : Nat} {input : Bytes} {acc value : UInt64}
    (ran : decodeVarintLoop pos input shift acc bytes = .ok (value, k)) :
    IsGroup (group input) ∧ k = bytes + (group input).length ∧
      input = group input ++ input.drop (group input).length := by
  induction input generalizing shift bytes acc with
  | nil =>
    rw [decodeVarintLoop] at ran
    split at ran <;> cases ran
  | cons byte rest ih =>
    rw [decodeVarintLoop] at ran
    split at ran
    · cases ran
    · dsimp only at ran
      rw [group]
      split at ran
      · rename_i last
        rw [if_pos last]
        simp only [Except.ok.injEq, Prod.mk.injEq] at ran
        exact ⟨(last_iff byte).mp last, ran.2.symm, rfl⟩
      · rename_i more
        obtain ⟨grouped, count, parts⟩ := ih ran
        rw [if_neg more]
        have large : 128 ≤ byte.toNat := by
          by_contra small
          exact more ((last_iff byte).mpr (by omega))
        refine ⟨?_, by rw [count, List.length_cons]; omega, ?_⟩
        · obtain ⟨next, tail, shape⟩ := List.exists_cons_of_ne_nil grouped.ne_nil
          rw [shape] at grouped ⊢
          exact ⟨large, grouped⟩
        · rw [List.cons_append, List.length_cons, List.drop_succ_cons, ← parts]

/-- An accepted varint is the group in front of the input, of at most ten bytes. -/
theorem decodeVarint_group {input : Bytes} {pos k : Nat} {value : UInt64}
    (ran : decodeVarint input pos = .ok (value, k)) :
    IsGroup (group (input.drop pos)) ∧ k = (group (input.drop pos)).length ∧ k ≤ maxVarintBytes ∧
      input.drop pos = group (input.drop pos) ++ input.drop (pos + k) := by
  obtain ⟨grouped, count, parts⟩ := decodeVarintLoop_group ran
  have whole := List.take_append_drop maxVarintBytes (input.drop pos)
  have limit : ((input.drop pos).take maxVarintBytes).length ≤ maxVarintBytes := by
    rw [List.length_take]
    omega
  revert grouped count parts whole limit
  generalize (input.drop pos).take maxVarintBytes = taken
  intro grouped count parts whole limit
  rw [Nat.zero_add] at count
  have behind : input.drop pos =
      group taken ++ (taken.drop (group taken).length ++ (input.drop pos).drop maxVarintBytes) := by
    rw [← List.append_assoc, ← parts, whole]
  have same : group (input.drop pos) = group taken := by rw [behind, group_append grouped]
  have short : k ≤ maxVarintBytes := by
    have lengths := congrArg List.length parts
    rw [List.length_append] at lengths
    omega
  rw [same]
  refine ⟨grouped, count, short, ?_⟩
  rw [← List.drop_drop, count]
  conv_rhs => rw [behind, List.drop_left]
  exact behind

/-- **A varint is canonical exactly if it is minimal.**  What `decode_varint` accepts is what
`encode_varint` writes for the number, unless it ends in a superfluous zero or its tenth byte is
more than a one. -/
theorem decodeVarint_canonical_iff {input : Bytes} {pos k : Nat} {value : UInt64}
    (ran : decodeVarint input pos = .ok (value, k)) :
    encodeVarint value = (input.drop pos).take k ↔ MinimalVarint (input.drop pos) := by
  obtain ⟨grouped, count, short, parts⟩ := decodeVarint_group ran
  have consumed : (input.drop pos).take k = group (input.drop pos) := by
    rw [count, parts, group_append grouped, List.take_left]
  rw [consumed, MinimalVarint]
  constructor
  · intro written
    rw [← written]
    exact minimal_encodeVarint value
  · intro minimal
    have fits := groupValue_lt grouped minimal (by omega)
    have written := encodeVarint_groupValue grouped minimal.1 fits
    have inside : pos ≤ input.length := by
      by_contra past
      have empty : input.drop pos = [] := List.drop_eq_nil_of_le (by omega)
      rw [empty] at grouped
      exact grouped
    have read := decodeVarint_encodeVarint (input.take pos) (input.drop (pos + k))
      (UInt64.ofNat (groupValue (group (input.drop pos))))
    rw [written, ← parts, List.take_append_drop, List.length_take, Nat.min_eq_left inside, ran,
      Except.ok.injEq, Prod.mk.injEq] at read
    rw [read.1, written]

/-- Two varints come back together exactly if each of them does. -/
theorem groups_eq_iff {first second : Bytes} (grouped : IsGroup first) (a b : UInt64) :
    encodeVarint a ++ encodeVarint b = first ++ second ↔
      encodeVarint a = first ∧ encodeVarint b = second := by
  constructor
  · intro same
    have heads : encodeVarint a = first := by
      rw [← group_append (isGroup_encodeVarint a) (encodeVarint b), same, group_append grouped]
    rw [heads] at same
    exact ⟨heads, List.append_cancel_left same⟩
  · rintro ⟨rfl, rfl⟩
    rfl

/-! ## What the readers consume -/

/-- Every 64 bits are the zigzag form of a number: an injective map of a finite type onto its
like. -/
theorem zigzag_unzigzag (raw : UInt64) : zigzag (unzigzag raw) = raw := by
  have injective : Function.Injective fun bits : UInt64 => zigzag bits.toInt64 := by
    intro first second same
    have numbers := zigzag_injective same
    simpa using congrArg Int64.toUInt64 numbers
  obtain ⟨bits, rfl⟩ := (Finite.injective_iff_surjective.mp injective) raw
  rw [unzigzag_zigzag]

/-- The bytes a decoder has not read. -/
def CanonDecoder.ahead (d : CanonDecoder) : Bytes := d.buffer.drop d.position

/-- Between the two decoders lie these bytes. -/
structure Consumes (d : CanonDecoder) (bytes : Bytes) (d' : CanonDecoder) : Prop where
  position : d'.position = d.position + bytes.length
  ahead : d.ahead = bytes ++ d'.ahead

namespace Consumes

variable {d d' d'' : CanonDecoder} {first second : Bytes}

theorem refl (d : CanonDecoder) : Consumes d [] d := ⟨rfl, rfl⟩

theorem trans (one : Consumes d first d') (two : Consumes d' second d'') :
    Consumes d (first ++ second) d'' := by
  refine ⟨?_, ?_⟩
  · rw [two.position, one.position, List.length_append, Nat.add_assoc]
  · rw [one.ahead, two.ahead, List.append_assoc]

theorem taken (consumes : Consumes d first d') :
    d.ahead.take (d'.position - d.position) = first := by
  rw [consumes.position, Nat.add_sub_cancel_left, consumes.ahead, List.take_left]

end Consumes

section Readers

variable {α β : Type} {d d' : CanonDecoder}

theorem reader_bind_eq_ok {f : Reader α} {g : α → Reader β} {b : β} :
    (f >>= g) d = .ok (b, d') ↔ ∃ a middle, f d = .ok (a, middle) ∧ g a middle = .ok (b, d') := by
  show (f d >>= fun p => g p.1 p.2) = _ ↔ _
  rw [bind_eq_ok]
  simp only [Prod.exists]

theorem reader_pure_eq_ok {a b : α} :
    (pure a : Reader α) d = .ok (b, d') ↔ a = b ∧ d = d' := by
  show Except.ok (a, d) = _ ↔ _
  simp

theorem reader_throw_ne {a : α} {err : DecodeError} :
    ¬ (throw err : Reader α) d = .ok (a, d') := by
  intro returned
  cases returned

theorem reader_lift_eq_ok {x : Except DecodeError α} {a : α} :
    (liftM x : Reader α) d = .ok (a, d') ↔ x = .ok a ∧ d = d' := by
  show (x >>= fun a => Except.ok (a, d)) = _ ↔ _
  simp [bind_eq_ok]

end Readers

namespace CanonDecoder

variable {d d' : CanonDecoder}

theorem fromByte_eq_ok {byte : UInt8} {tag : TypeTag} (found : TypeTag.fromByte byte = .ok tag) :
    tag.toByte = byte := by
  unfold TypeTag.fromByte at found
  split at found
  · rename_i tag' search
    cases found
    simpa using List.find?_some search
  · cases found

theorem readTag_consumes {tag : TypeTag} (read : readTag d = .ok (tag, d')) :
    Consumes d [tag.toByte] d' := by
  obtain ⟨byte, middle, readByte, found⟩ := reader_bind_eq_ok.mp read
  unfold CanonDecoder.readByte at readByte
  split at readByte
  · rename_i byte' here
    cases readByte
    obtain ⟨inside, rfl⟩ := List.getElem?_eq_some_iff.mp here
    obtain ⟨known, rfl⟩ := reader_lift_eq_ok.mp found
    rw [fromByte_eq_ok known]
    exact ⟨rfl, List.drop_eq_getElem_cons inside⟩
  · cases readByte

theorem expectTag_consumes {tag : TypeTag} (read : expectTag tag d = .ok ((), d')) :
    Consumes d [tag.toByte] d' := by
  obtain ⟨found, middle, readTag, compared⟩ := reader_bind_eq_ok.mp read
  split at compared
  · rename_i same
    obtain ⟨-, rfl⟩ := reader_pure_eq_ok.mp compared
    rw [← same]
    exact readTag_consumes readTag
  · exact absurd compared reader_throw_ne

/-- A varint read is a group; it comes back as it was exactly if it is minimal. -/
theorem readVarint_consumes {value : UInt64} (read : readVarint d = .ok (value, d')) :
    IsGroup (group d.ahead) ∧ Consumes d (group d.ahead) d' ∧
      (encodeVarint value = group d.ahead ↔ MinimalVarint d.ahead) := by
  obtain ⟨⟨value', k⟩, ran, returned⟩ := bind_eq_ok.mp read
  cases returned
  obtain ⟨grouped, count, -, parts⟩ := decodeVarint_group ran
  have consumes : Consumes d (group d.ahead) ⟨d.buffer, d.position + k⟩ :=
    ⟨by rw [count]; rfl, parts⟩
  refine ⟨grouped, consumes, ?_⟩
  have taken := consumes.taken
  rw [Nat.add_sub_cancel_left] at taken
  rw [← taken]
  exact decodeVarint_canonical_iff ran

theorem readZigzag_consumes {value : Int64} (read : readZigzag d = .ok (value, d')) :
    Consumes d (group d.ahead) d' ∧
      (encodeZigzag value = group d.ahead ↔ MinimalVarint d.ahead) := by
  obtain ⟨⟨value', k⟩, ran, returned⟩ := bind_eq_ok.mp read
  cases returned
  obtain ⟨⟨raw, k'⟩, varint, rfl, rfl⟩ : ∃ p, decodeVarint d.buffer d.position = .ok p ∧
      unzigzag p.1 = value ∧ p.2 = k := by
    obtain ⟨p, varint, split⟩ := bind_eq_ok.mp ran
    cases split
    exact ⟨p, varint, rfl, rfl⟩
  have asVarint : readVarint d = .ok (raw, ⟨d.buffer, d.position + k'⟩) := by
    show (decodeVarint _ _ >>= _) = _
    rw [varint]
    rfl
  obtain ⟨-, consumes, canonical⟩ := readVarint_consumes asVarint
  rw [encodeZigzag, zigzag_unzigzag]
  exact ⟨consumes, canonical⟩

theorem readU32_consumes {value : UInt32} (read : readU32 d = .ok (value, d')) :
    IsGroup (group d.ahead) ∧ Consumes d (group d.ahead) d' ∧
      (encodeVarint value.toUInt64 = group d.ahead ↔ MinimalVarint d.ahead) := by
  obtain ⟨wide, middle, varint, checked⟩ := reader_bind_eq_ok.mp read
  split at checked
  · rename_i small
    obtain ⟨rfl, rfl⟩ := reader_pure_eq_ok.mp checked
    have widened : wide.toUInt32.toUInt64 = wide := by
      apply UInt64.toNat_inj.mp
      rw [UInt32.toNat_toUInt64, UInt64.toNat_toUInt32, Nat.mod_eq_of_lt small]
    rw [widened]
    exact readVarint_consumes varint
  · exact absurd checked reader_throw_ne

theorem readSlice_consumes {len : Nat} {slice : Bytes} (read : readSlice len d = .ok (slice, d')) :
    slice.length = len ∧ Consumes d slice d' := by
  obtain ⟨_, room, returned⟩ := bind_eq_ok.mp read
  cases returned
  have fits : len ≤ d.remaining := by
    by_contra short
    rw [require_of_not short] at room
    cases room
  have length : ((d.buffer.drop d.position).take len).length = len := by
    rw [List.length_take, List.length_drop]
    exact Nat.min_eq_left fits
  refine ⟨length, by rw [length], ?_⟩
  show _ = _ ++ d.buffer.drop (d.position + len)
  rw [← List.drop_drop]
  exact (List.take_append_drop len _).symm

theorem validateCollectionCount_same {count least : Nat}
    (read : validateCollectionCount count least d = .ok ((), d')) : d = d' := by
  obtain ⟨-, -, returned⟩ := bind_eq_ok.mp read
  cases returned
  rfl

/-- A tag, a varint and what it is the length of. -/
theorem decodePrefixed_consumes {tag : TypeTag} {value : Bytes}
    (ran : decodePrefixed tag d = .ok (value, d')) :
    ∃ varint, Consumes d (tag.toByte :: (varint ++ value)) d' ∧
      (encodeVarint (UInt64.ofNat value.length) = varint ↔ MinimalVarint d.ahead.tail) := by
  obtain ⟨_, d₁, expect, rest⟩ := reader_bind_eq_ok.mp ran
  obtain ⟨len, d₂, varint, slice⟩ := reader_bind_eq_ok.mp rest
  have tagged := expectTag_consumes expect
  obtain ⟨-, lengthRead, canonical⟩ := readVarint_consumes varint
  obtain ⟨length, sliced⟩ := readSlice_consumes slice
  refine ⟨group d₁.ahead, (tagged.trans lengthRead).trans sliced, ?_⟩
  rw [length, UInt64.ofNat_toNat, canonical, tagged.ahead]
  rfl

/-- A tag and a varint. -/
theorem tagged_varint_consumes {tag : TypeTag} {value : UInt64}
    (ran : (do expectTag tag; readVarint : Reader UInt64) d = .ok (value, d')) :
    ∃ varint, Consumes d (tag.toByte :: varint) d' ∧
      (encodeVarint value = varint ↔ MinimalVarint d.ahead.tail) := by
  obtain ⟨_, d₁, expect, varint⟩ := reader_bind_eq_ok.mp ran
  have tagged := expectTag_consumes expect
  obtain ⟨-, counted, canonical⟩ := readVarint_consumes varint
  refine ⟨group d₁.ahead, tagged.trans counted, ?_⟩
  rw [canonical, tagged.ahead]
  rfl

/-- A tag and a zigzag number. -/
theorem tagged_zigzag_consumes {tag : TypeTag} {value : Int64}
    (ran : (do expectTag tag; readZigzag : Reader Int64) d = .ok (value, d')) :
    ∃ varint, Consumes d (tag.toByte :: varint) d' ∧
      (encodeZigzag value = varint ↔ MinimalVarint d.ahead.tail) := by
  obtain ⟨_, d₁, expect, number⟩ := reader_bind_eq_ok.mp ran
  have tagged := expectTag_consumes expect
  obtain ⟨counted, canonical⟩ := readZigzag_consumes number
  refine ⟨group d₁.ahead, tagged.trans counted, ?_⟩
  rw [canonical, tagged.ahead]
  rfl

/-- A tag and a count: the check of the count reads nothing. -/
theorem decodeCount_consumes {tag : TypeTag} {least : Nat} {count : UInt64}
    (ran : decodeCount tag least d = .ok (count, d')) :
    ∃ varint, Consumes d (tag.toByte :: varint) d' ∧
      (encodeVarint count = varint ↔ MinimalVarint d.ahead.tail) := by
  obtain ⟨_, d₁, expect, rest⟩ := reader_bind_eq_ok.mp ran
  obtain ⟨len, d₂, varint, checks⟩ := reader_bind_eq_ok.mp rest
  obtain ⟨_, d₃, valid, returned⟩ := reader_bind_eq_ok.mp checks
  obtain ⟨rfl, rfl⟩ := reader_pure_eq_ok.mp returned
  obtain rfl := validateCollectionCount_same valid
  exact tagged_varint_consumes (reader_bind_eq_ok.mpr ⟨_, d₁, expect, varint⟩)

theorem decodeString_consumes {value : String} (ran : decodeString d = .ok (value, d')) :
    decodePrefixed .string d = .ok (value.toUTF8.data.toList, d') := by
  obtain ⟨slice, d₁, body, checked⟩ := reader_bind_eq_ok.mp ran
  cases valid : String.fromUTF8? ⟨slice.toArray⟩ with
  | some text =>
    rw [valid] at checked
    obtain ⟨rfl, rfl⟩ := reader_pure_eq_ok.mp checked
    have bytes : text.toUTF8.data.toList = slice := decodeUtf8_eq_some.mp valid
    rw [bytes, body]
  | none =>
    rw [valid] at checked
    exact absurd checked reader_throw_ne

theorem decodeBool_consumes {value : Bool} (ran : decodeBool d = .ok (value, d')) :
    Consumes d [if value then TypeTag.true.toByte else TypeTag.false.toByte] d' := by
  obtain ⟨tag, d₁, expect, checked⟩ := reader_bind_eq_ok.mp ran
  have tagged := readTag_consumes expect
  cases tag
  case true =>
    obtain ⟨rfl, rfl⟩ := reader_pure_eq_ok.mp checked
    exact tagged
  case false =>
    obtain ⟨rfl, rfl⟩ := reader_pure_eq_ok.mp checked
    exact tagged
  all_goals exact absurd checked reader_throw_ne

theorem decodeUuid_consumes {id : Uuid} (ran : decodeUuid d = .ok (id, d')) :
    Consumes d (TypeTag.uuid.toByte :: id.bytes) d' := by
  obtain ⟨_, d₁, expect, rest⟩ := reader_bind_eq_ok.mp ran
  obtain ⟨slice, d₂, sixteen, checked⟩ := reader_bind_eq_ok.mp rest
  have tagged := expectTag_consumes expect
  have sliced := (readSlice_consumes sixteen).2
  split at checked
  · obtain ⟨rfl, rfl⟩ := reader_pure_eq_ok.mp checked
    exact tagged.trans sliced
  · exact absurd checked reader_throw_ne

/-- A tag and two varints. -/
theorem two_varints_consume {tag : TypeTag} {d₁ d₂ : CanonDecoder} {a b : UInt64}
    (tagged : Consumes d [tag.toByte] d₁) (grouped : IsGroup (group d₁.ahead))
    (first : Consumes d₁ (group d₁.ahead) d₂)
    (canonical : encodeVarint a = group d₁.ahead ↔ MinimalVarint d₁.ahead)
    (second : Consumes d₂ (group d₂.ahead) d')
    (canonical' : encodeVarint b = group d₂.ahead ↔ MinimalVarint d₂.ahead) :
    ∃ varints, Consumes d (tag.toByte :: varints) d' ∧
      (encodeVarint a ++ encodeVarint b = varints ↔ MinimalVarint d.ahead.tail ∧
        MinimalVarint (d.ahead.tail.drop (group d.ahead.tail).length)) := by
  refine ⟨group d₁.ahead ++ group d₂.ahead, tagged.trans (first.trans second), ?_⟩
  have behind : d.ahead.tail = d₁.ahead := by rw [tagged.ahead]; rfl
  have behind' : d₁.ahead.drop (group d₁.ahead).length = d₂.ahead := by
    conv_lhs => rw [first.ahead, group_append grouped, List.drop_left]
  rw [groups_eq_iff grouped, canonical, canonical', behind, behind']

theorem decodeStructHeader_consumes {typeId : UInt32} {fields : UInt64}
    (ran : decodeStructHeader d = .ok ((typeId, fields), d')) :
    ∃ varints, Consumes d (TypeTag.struct.toByte :: varints) d' ∧
      (encodeVarint typeId.toUInt64 ++ encodeVarint fields = varints ↔
        MinimalVarint d.ahead.tail ∧
          MinimalVarint (d.ahead.tail.drop (group d.ahead.tail).length)) := by
  obtain ⟨_, d₁, expect, rest⟩ := reader_bind_eq_ok.mp ran
  obtain ⟨id, d₂, first, rest'⟩ := reader_bind_eq_ok.mp rest
  obtain ⟨count, d₃, second, checks⟩ := reader_bind_eq_ok.mp rest'
  obtain ⟨_, d₄, valid, returned⟩ := reader_bind_eq_ok.mp checks
  obtain ⟨pair, rfl⟩ := reader_pure_eq_ok.mp returned
  obtain ⟨rfl, rfl⟩ := Prod.mk.injEq .. ▸ pair
  obtain rfl := validateCollectionCount_same valid
  obtain ⟨grouped, consumes, canonical⟩ := readU32_consumes first
  obtain ⟨-, consumes', canonical'⟩ := readVarint_consumes second
  exact two_varints_consume (expectTag_consumes expect) grouped consumes canonical consumes'
    canonical'

theorem decodeEnumHeader_consumes {typeId variant : UInt32}
    (ran : decodeEnumHeader d = .ok ((typeId, variant), d')) :
    ∃ varints, Consumes d (TypeTag.enum.toByte :: varints) d' ∧
      (encodeVarint typeId.toUInt64 ++ encodeVarint variant.toUInt64 = varints ↔
        MinimalVarint d.ahead.tail ∧
          MinimalVarint (d.ahead.tail.drop (group d.ahead.tail).length)) := by
  obtain ⟨_, d₁, expect, rest⟩ := reader_bind_eq_ok.mp ran
  obtain ⟨id, d₂, first, rest'⟩ := reader_bind_eq_ok.mp rest
  obtain ⟨variant', d₃, second, returned⟩ := reader_bind_eq_ok.mp rest'
  obtain ⟨pair, rfl⟩ := reader_pure_eq_ok.mp returned
  obtain ⟨rfl, rfl⟩ := Prod.mk.injEq .. ▸ pair
  obtain ⟨grouped, consumes, canonical⟩ := readU32_consumes first
  obtain ⟨-, consumes', canonical'⟩ := readU32_consumes second
  exact two_varints_consume (expectTag_consumes expect) grouped consumes canonical consumes'
    canonical'

end CanonDecoder

/-! ## The calls -/

/-- The varints behind the tag are minimal, as many as the call reads. -/
def Call.Canonical (input : Bytes) : Call → Prop
  | null | bool | none | some | uuid => True
  | structHeader | enumHeader => MinimalVarint input.tail ∧
      MinimalVarint (input.tail.drop (group input.tail).length)
  | u64 | i64 | string | bytes | timestamp | nodeId | arrayHeader | mapHeader =>
    MinimalVarint input.tail

/-- A call that consumed what it writes. -/
theorem wire_of_consumes {item : Item} {d d' : CanonDecoder} (consumes : Consumes d item.wire d') :
    item.wire = d.ahead.take (d'.position - d.position) := consumes.taken.symm

/-- A call that writes `written` where it read `varint`, between a tag and a payload. -/
theorem wire_eq_iff {item : Item} {d d' : CanonDecoder} {tag : UInt8} {varint written back : Bytes}
    {canonical : Prop} (same : item.wire = tag :: (written ++ back))
    (consumes : Consumes d (tag :: (varint ++ back)) d') (comes : written = varint ↔ canonical) :
    item.wire = d.ahead.take (d'.position - d.position) ↔ canonical := by
  rw [consumes.taken, same, List.cons_inj_right, List.append_cancel_right_eq, comes]

/-- The same without a payload. -/
theorem wire_eq_iff' {item : Item} {d d' : CanonDecoder} {tag : UInt8} {varint written : Bytes}
    {canonical : Prop} (same : item.wire = tag :: written)
    (consumes : Consumes d (tag :: varint) d') (comes : written = varint ↔ canonical) :
    item.wire = d.ahead.take (d'.position - d.position) ↔ canonical := by
  rw [consumes.taken, same, List.cons_inj_right, comes]

open CanonDecoder in
/-- A call returns to the bytes it consumed exactly if the varints among them are minimal. -/
theorem Call.decode_canonical_iff {call : Call} {d d' : CanonDecoder} {item : Item}
    (ran : call.decode d = .ok (item, d')) :
    item.wire = d.ahead.take (d'.position - d.position) ↔ call.Canonical d.ahead := by
  cases call with
  | null | none | some =>
    obtain ⟨_, d₁, expect, returned⟩ := reader_bind_eq_ok.mp ran
    obtain ⟨rfl, rfl⟩ := reader_pure_eq_ok.mp returned
    exact iff_of_true (wire_of_consumes (expectTag_consumes expect)) trivial
  | bool =>
    obtain ⟨value, d₁, read, returned⟩ := reader_bind_eq_ok.mp ran
    obtain ⟨rfl, rfl⟩ := reader_pure_eq_ok.mp returned
    exact iff_of_true (wire_of_consumes (decodeBool_consumes read)) trivial
  | uuid =>
    obtain ⟨id, d₁, read, returned⟩ := reader_bind_eq_ok.mp ran
    obtain ⟨rfl, rfl⟩ := reader_pure_eq_ok.mp returned
    exact iff_of_true (wire_of_consumes (decodeUuid_consumes read)) trivial
  | u64 =>
    obtain ⟨value, d₁, read, returned⟩ := reader_bind_eq_ok.mp ran
    obtain ⟨rfl, rfl⟩ := reader_pure_eq_ok.mp returned
    obtain ⟨varint, consumes, comes⟩ := tagged_varint_consumes read
    exact wire_eq_iff' rfl consumes comes
  | i64 | timestamp =>
    obtain ⟨value, d₁, read, returned⟩ := reader_bind_eq_ok.mp ran
    obtain ⟨rfl, rfl⟩ := reader_pure_eq_ok.mp returned
    obtain ⟨varint, consumes, comes⟩ := tagged_zigzag_consumes read
    exact wire_eq_iff' rfl consumes comes
  | arrayHeader | mapHeader =>
    obtain ⟨value, d₁, read, returned⟩ := reader_bind_eq_ok.mp ran
    obtain ⟨rfl, rfl⟩ := reader_pure_eq_ok.mp returned
    obtain ⟨varint, consumes, comes⟩ := decodeCount_consumes read
    exact wire_eq_iff' rfl consumes comes
  | bytes | nodeId =>
    obtain ⟨value, d₁, read, returned⟩ := reader_bind_eq_ok.mp ran
    obtain ⟨rfl, rfl⟩ := reader_pure_eq_ok.mp returned
    obtain ⟨varint, consumes, comes⟩ := decodePrefixed_consumes read
    exact wire_eq_iff rfl consumes comes
  | string =>
    obtain ⟨value, d₁, read, returned⟩ := reader_bind_eq_ok.mp ran
    obtain ⟨rfl, rfl⟩ := reader_pure_eq_ok.mp returned
    obtain ⟨varint, consumes, comes⟩ := decodePrefixed_consumes (decodeString_consumes read)
    exact wire_eq_iff rfl consumes comes
  | structHeader =>
    obtain ⟨⟨typeId, fields⟩, d₁, read, returned⟩ := reader_bind_eq_ok.mp ran
    obtain ⟨rfl, rfl⟩ := reader_pure_eq_ok.mp returned
    obtain ⟨varints, consumes, comes⟩ := decodeStructHeader_consumes read
    exact wire_eq_iff' rfl consumes comes
  | enumHeader =>
    obtain ⟨⟨typeId, variant⟩, d₁, read, returned⟩ := reader_bind_eq_ok.mp ran
    obtain ⟨rfl, rfl⟩ := reader_pure_eq_ok.mp returned
    obtain ⟨varints, consumes, comes⟩ := decodeEnumHeader_consumes read
    exact wire_eq_iff' rfl consumes comes

/-! ## Floats -/

/-- A tag and a number in a fixed width. -/
theorem decodeFloat_consumes {width : Nat} {tag : TypeTag} {slice : Bytes}
    {d d₁ d' : CanonDecoder} (expect : CanonDecoder.expectTag tag d = .ok ((), d₁))
    (read : CanonDecoder.readSlice width d₁ = .ok (slice, d')) :
    beValue slice < 256 ^ width ∧
      Consumes d (tag.toByte :: beBytes width (beValue slice)) d' := by
  obtain ⟨rfl, sliced⟩ := CanonDecoder.readSlice_consumes read
  rw [beBytes_beValue]
  exact ⟨beValue_lt slice, (CanonDecoder.expectTag_consumes expect).trans sliced⟩

theorem beBytes_inj {width a b : Nat} (fits : a < 256 ^ width) (fits' : b < 256 ^ width) :
    beBytes width a = beBytes width b ↔ a = b := by
  constructor
  · intro same
    rw [← beValue_beBytes fits, same, beValue_beBytes fits']
  · rintro rfl
    rfl

/-- A float returns to the bytes it consumed exactly if its pattern is the canonical one. -/
theorem decodeF32_canonical_iff {d d' : CanonDecoder} {value : UInt32}
    (ran : d.decodeF32 = .ok (value, d')) :
    wireF32 value = d.ahead.take (d'.position - d.position) ↔ canonicalF32 value = value := by
  obtain ⟨_, d₁, expect, rest⟩ := reader_bind_eq_ok.mp ran
  obtain ⟨slice, d₂, read, returned⟩ := reader_bind_eq_ok.mp rest
  obtain ⟨rfl, rfl⟩ := reader_pure_eq_ok.mp returned
  obtain ⟨fits, consumes⟩ := decodeFloat_consumes expect read
  have pattern : (UInt32.ofNat (beValue slice)).toNat = beValue slice := by
    rw [UInt32.toNat_ofNat']
    exact Nat.mod_eq_of_lt fits
  rw [consumes.taken, wireF32, List.cons_inj_right, beBytes_inj (UInt32.toNat_lt _) fits,
    ← UInt32.toNat_inj, pattern]

theorem decodeF64_canonical_iff {d d' : CanonDecoder} {value : UInt64}
    (ran : d.decodeF64 = .ok (value, d')) :
    wireF64 value = d.ahead.take (d'.position - d.position) ↔ canonicalF64 value = value := by
  obtain ⟨_, d₁, expect, rest⟩ := reader_bind_eq_ok.mp ran
  obtain ⟨slice, d₂, read, returned⟩ := reader_bind_eq_ok.mp rest
  obtain ⟨rfl, rfl⟩ := reader_pure_eq_ok.mp returned
  obtain ⟨fits, consumes⟩ := decodeFloat_consumes expect read
  have pattern : (UInt64.ofNat (beValue slice)).toNat = beValue slice := by
    rw [UInt64.toNat_ofNat']
    exact Nat.mod_eq_of_lt fits
  rw [consumes.taken, wireF64, List.cons_inj_right, beBytes_inj (UInt64.toNat_lt _) fits,
    ← UInt64.toNat_inj, pattern]

/-! ## All of it -/

/-- **Which accepted bytes are canonical.**  A varint is what the encoder writes for the number
exactly if it is minimal; a call consumes what the encoder writes for the value exactly if the
varints in it are minimal, and a float exactly if its pattern is the canonical one. -/
theorem consumed_canonical_iff (d d' : CanonDecoder) :
    (∀ (input : Bytes) (pos k : Nat) (value : UInt64),
      decodeVarint input pos = .ok (value, k) →
        (encodeVarint value = (input.drop pos).take k ↔ MinimalVarint (input.drop pos))) ∧
    (∀ (call : Call) (item : Item), call.decode d = .ok (item, d') →
      (item.wire = d.ahead.take (d'.position - d.position) ↔ call.Canonical d.ahead)) ∧
    (∀ value : UInt32, d.decodeF32 = .ok (value, d') →
      (wireF32 value = d.ahead.take (d'.position - d.position) ↔ canonicalF32 value = value)) ∧
    (∀ value : UInt64, d.decodeF64 = .ok (value, d') →
      (wireF64 value = d.ahead.take (d'.position - d.position) ↔ canonicalF64 value = value)) := by
  refine ⟨?_, ?_, ?_, ?_⟩
  · intro input pos k value ran
    exact decodeVarint_canonical_iff ran
  · intro call item ran
    exact Call.decode_canonical_iff ran
  · intro value ran
    exact decodeF32_canonical_iff ran
  · intro value ran
    exact decodeF64_canonical_iff ran

/-- A zero padded to two bytes, and nine continuation bytes before a tenth of two, are both
accepted as zero, which is written as one byte. -/
theorem overlong_accepted :
    decodeVarint [0x80, 0] 0 = .ok (0, 2) ∧
    decodeVarint (List.replicate 9 0x80 ++ [2]) 0 = .ok (0, 10) ∧
    encodeVarint 0 = [0] := by
  refine ⟨by decide, by decide, ?_⟩
  rw [encodeVarint, if_pos (by decide)]
  rfl

end OneLink.Canon
