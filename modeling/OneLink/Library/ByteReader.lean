/-
# Library.ByteReader -- fields read out of a byte string at offsets

`slice` is a byte string's part between two offsets, and consecutive parts put
together are the whole again.  A big-endian integer of fixed width and a UTF-8
text are each determined by the bytes they were read from (`beBytes_beValue`,
`decodeUtf8_eq_some`).
-/
import OneLink.Library.FixedWidth

namespace OneLink.Library

set_option autoImplicit false

/-- `data[start:stop]`. -/
def slice (data : Bytes) (start stop : Nat) : Bytes := (data.take stop).drop start

theorem length_slice {data : Bytes} {start stop : Nat} (inside : stop ≤ data.length) :
    (slice data start stop).length = stop - start := by
  rw [slice, List.length_drop, List.length_take, Nat.min_eq_left inside]

theorem slice_append_slice (data : Bytes) {start middle stop : Nat} (first : start ≤ middle)
    (second : middle ≤ stop) :
    slice data start middle ++ slice data middle stop = slice data start stop := by
  have early : slice data start middle = (slice data start stop).take (middle - start) := by
    rw [slice, slice, List.take_drop, List.take_take, Nat.add_sub_cancel' first,
      Nat.min_eq_left second]
  have late : slice data middle stop = (slice data start stop).drop (middle - start) := by
    rw [slice, slice, List.drop_drop, Nat.add_sub_cancel' first]
  rw [early, late, List.take_append_drop]

theorem slice_all (data : Bytes) : slice data 0 data.length = data := by
  rw [slice, List.take_length, List.drop_zero]

theorem slice_zero (data : Bytes) (stop : Nat) : slice data 0 stop = data.take stop := List.drop_zero

theorem slice_middle (front middle back : Bytes) :
    slice (front ++ (middle ++ back)) front.length (front.length + middle.length) = middle := by
  rw [slice, ← List.append_assoc, List.take_left' (by rw [List.length_append]),
    List.drop_left' rfl]

/-- The part of a byte string that one of its consecutive fields is. -/
theorem slice_flatten (fields : List Bytes) {i : Nat} (inside : i < fields.length)
    {start stop : Nat} (begins : (fields.take i).flatten.length = start)
    (ends : start + fields[i].length = stop) : slice fields.flatten start stop = fields[i] := by
  subst begins ends
  have split_ : fields.flatten =
      (fields.take i).flatten ++ (fields[i] ++ (fields.drop (i + 1)).flatten) := by
    rw [← List.flatten_cons, List.getElem_cons_drop, ← List.flatten_append, List.take_append_drop]
  rw [split_, slice_middle]

/-- The consecutive parts of the given lengths. -/
def slices (data : Bytes) : Nat → List Nat → List Bytes
  | _, [] => []
  | start, length :: lengths =>
    slice data start (start + length) :: slices data (start + length) lengths

/-- Fields put together are cut apart again. -/
theorem slices_flatten (front : Bytes) (fields : List Bytes) :
    slices (front ++ fields.flatten) front.length (fields.map List.length) = fields := by
  induction fields generalizing front with
  | nil => rfl
  | cons field fields ih =>
    have behind := ih (front ++ field)
    rw [List.append_assoc, List.length_append] at behind
    rw [List.map_cons, slices, List.flatten_cons, slice_middle, behind]

/-- A byte read by index. -/
theorem slice_one {data : Bytes} {i : Nat} (inside : i < data.length) :
    slice data i (i + 1) = [data.getD i 0] := by
  rw [slice, List.drop_take, Nat.add_sub_cancel_left, List.drop_eq_getElem_cons inside,
    List.getD_eq_getElem?_getD, List.getElem?_eq_getElem inside]
  rfl

theorem slice_two {data : Bytes} {i : Nat} (inside : i + 2 ≤ data.length) :
    slice data i (i + 2) = [data.getD i 0, data.getD (i + 1) 0] := by
  rw [← slice_append_slice data (Nat.le_succ i) (Nat.le_succ (i + 1)),
    slice_one (by omega : i < data.length), slice_one (by omega : i + 1 < data.length),
    List.singleton_append]

/-- A part of a part. -/
theorem slice_slice (data : Bytes) {start stop start' stop' : Nat}
    (inside : start + stop' ≤ stop) :
    slice (slice data start stop) start' stop' = slice data (start + start') (start + stop') := by
  rw [slice, slice, slice, List.take_drop, List.take_take, List.drop_drop, Nat.min_eq_left inside]

/-! ## Integers -/

theorem beValue_append (front back : Bytes) :
    beValue (front ++ back) = beValue front * 256 ^ back.length + beValue back := by
  induction front with
  | nil => rw [List.nil_append, beValue, Nat.zero_mul, Nat.zero_add]
  | cons byte front ih =>
    rw [List.cons_append, beValue, ih, beValue, List.length_append, Nat.pow_add]
    ring

theorem beValue_beBytes {width n : Nat} (fits : n < 256 ^ width) : beValue (beBytes width n) = n := by
  induction width generalizing n with
  | zero =>
    rw [Nat.pow_zero] at fits
    rw [beBytes, beValue]
    omega
  | succ width ih =>
    rw [Nat.pow_succ] at fits
    have high := @ih (n / 256) (Nat.div_lt_of_lt_mul (by omega))
    rw [beBytes, beValue_append, high, beValue, beValue, List.length_nil, List.length_singleton,
      UInt8.toNat_ofNat', Nat.mod_eq_of_lt (Nat.mod_lt n (by decide : 256 > 0))]
    omega

theorem beBytes_beValue (bytes : Bytes) : beBytes bytes.length (beValue bytes) = bytes :=
  beValue_inj (length_beBytes _ _) (beValue_beBytes (beValue_lt bytes))

/-! ## Texts -/

/-- `str.encode("utf-8")`, for a text without lone surrogates. -/
def utf8 (s : String) : Bytes := s.toUTF8.data.toList

/-- `bytes.decode("utf-8")`. -/
def decodeUtf8 (bytes : Bytes) : Option String := String.fromUTF8? ⟨bytes.toArray⟩

theorem utf8_inj {s t : String} (same : utf8 s = utf8 t) : s = t :=
  String.toByteArray_inj.1 (ByteArray.ext (Array.toList_inj.1 same))

theorem decodeUtf8_eq_some {bytes : Bytes} {s : String} :
    decodeUtf8 bytes = some s ↔ utf8 s = bytes := by
  rw [decodeUtf8, String.fromUTF8?]
  constructor
  · intro read
    split at read
    · obtain rfl := Option.some.inj read
      rfl
    · cases read
  · rintro rfl
    have array : (⟨(utf8 s).toArray⟩ : ByteArray) = s.toUTF8 := by
      rw [utf8, Array.toArray_toList]
    have valid : (⟨(utf8 s).toArray⟩ : ByteArray).IsValidUTF8 := by
      rw [array]
      exact s.isValidUTF8
    rw [dif_pos valid, Option.some.injEq]
    exact String.toByteArray_inj.1 array

end OneLink.Library
