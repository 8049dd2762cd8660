/-
# Compress.RangeRoundTrip -- what the range coder codes is decoded

What the encoder has written, what waits in its cache and its `low` are the digits of one
number, the lower end of an interval (`Encoder.interval`).  Writing a byte multiplies that
interval by 256, whatever carry goes through the waiting bytes (`shiftLow_low`): a carry
finds no `0xFF` in front of them (`Encoder.Valid`).  A decision narrows the interval, so
the number coded in the end lies in every interval on the way, and its digits tell the
decoder which part it lies in (`Codes`).
-/
import OneLink.Compress.RangeCoder
import OneLink.Library.ByteReader
import OneLink.Library.NestedIntervals
import Mathlib.Data.List.GetD

namespace OneLink.Compress

open Library

set_option autoImplicit false

/-! ## The bytes that wait -/

theorem beValue_replicate_ff (n : Nat) : beValue (List.replicate n 0xFF) + 1 = 256 ^ n := by
  induction n with
  | zero => rfl
  | succ n ih =>
    have byte : (0xFF : UInt8).toNat = 255 := rfl
    rw [List.replicate_succ, beValue, List.length_replicate, byte, Nat.pow_succ]
    omega

theorem beValue_replicate_zero (n : Nat) : beValue (List.replicate n 0) = 0 := by
  induction n with
  | zero => rfl
  | succ n ih => rw [List.replicate_succ, beValue, ih, UInt8.toNat_zero, Nat.zero_mul]

namespace Encoder

theorem pushCarry_eq (carry temp : UInt8) (n : Nat) (out : Bytes) :
    pushCarry carry (n + 1) temp out =
      out ++ (temp + carry) :: List.replicate n (0xFF + carry) := by
  induction n generalizing temp out with
  | zero => rfl
  | succ n ih =>
    rw [pushCarry, ih, List.replicate_succ, List.append_assoc]
    rfl

/-- What is written once no carry comes any more. -/
def written (e : Encoder) : Bytes := e.out ++ e.cache :: List.replicate (e.cacheSize - 1) 0xFF

/-- The lower end counts what is written, what waits and `low`; a place is a byte written
beyond the first four. -/
def interval (e : Encoder) : Interval where
  low := beValue e.written * 2 ^ 32 + e.low
  width := e.range
  places := e.out.length + e.cacheSize - 1

/-- A carry reaches no more than the waiting bytes. -/
structure CarryFits (e : Encoder) : Prop where
  waits : 0 < e.cacheSize
  low : e.low < 2 ^ 33
  full : e.cache = 0xFF → e.low < 2 ^ 32

/-- A carry into what waits adds one to it. -/
theorem beValue_carried {out : Bytes} {cache : UInt8} (room : cache ≠ 0xFF) (n : Nat) :
    beValue (out ++ (cache + 1) :: List.replicate n (0xFF + 1)) =
      beValue (out ++ cache :: List.replicate n 0xFF) + 1 := by
  have wraps : (0xFF + 1 : UInt8) = 0 := rfl
  have byte : (cache + 1).toNat = cache.toNat + 1 := by
    have small := cache.toNat_lt
    have notFull : cache.toNat ≠ 255 := fun full => room (UInt8.toNat_inj.mp full)
    rw [UInt8.toNat_add, UInt8.toNat_one]
    omega
  have fill := beValue_replicate_ff n
  rw [wraps, beValue_append, beValue_append, beValue, beValue, byte, beValue_replicate_zero]
  simp only [List.length_cons, List.length_replicate]
  rw [Nat.add_mul, ← fill]
  omega

theorem beValue_settled (out : Bytes) (cache : UInt8) :
    beValue (out ++ [cache]) = beValue out * 256 + cache.toNat := by
  simp [beValue_append, beValue]

/-- The three ways of `shift_low`: what waits is written as it is, it is written with a carry, or
one more byte waits. -/
theorem shiftLow_cases {e : Encoder} (waits : 0 < e.cacheSize) :
    (e.low < 0xFF000000 ∧ e.shiftLow = ⟨e.low % 2 ^ 24 * 256, e.range,
      UInt8.ofNat (e.low / 2 ^ 24 % 256), 1, e.written⟩) ∨
    (2 ^ 32 ≤ e.low ∧ e.shiftLow = ⟨e.low % 2 ^ 24 * 256, e.range,
      UInt8.ofNat (e.low / 2 ^ 24 % 256), 1,
      e.out ++ (e.cache + 1) :: List.replicate (e.cacheSize - 1) (0xFF + 1)⟩) ∨
    (0xFF000000 ≤ e.low ∧ e.low < 2 ^ 32 ∧ e.shiftLow = ⟨e.low % 2 ^ 24 * 256, e.range,
      e.cache, e.cacheSize + 1, e.out⟩) := by
  obtain ⟨n, size⟩ : ∃ n, e.cacheSize = n + 1 := ⟨e.cacheSize - 1, by omega⟩
  have top : 1 <<< 32 = 2 ^ 32 := rfl
  have low : (e.low % 2 ^ 24) <<< 8 = e.low % 2 ^ 24 * 256 := Nat.shiftLeft_eq _ _
  have leading : (e.low >>> 24) % 256 = e.low / 2 ^ 24 % 256 := by rw [Nat.shiftRight_eq_div_pow]
  rcases Nat.lt_or_ge e.low 0xFF000000 with small | large
  · refine .inl ⟨small, ?_⟩
    have none : ¬ e.low ≥ 1 <<< 32 := by omega
    have same (byte : UInt8) : byte + 0 = byte := UInt8.add_zero byte
    rw [shiftLow, settle, if_pos (Or.inl small), if_neg none, size, pushCarry_eq, same, same, low,
      leading, written, size, Nat.add_sub_cancel]
  · refine .inr ?_
    rcases Nat.lt_or_ge e.low (2 ^ 32) with below | carry
    · refine .inr ⟨large, below, ?_⟩
      have waiting : ¬ (e.low < 0xFF000000 ∨ e.low ≥ 1 <<< 32) := by omega
      rw [shiftLow, settle, if_neg waiting, low]
    · refine .inl ⟨carry, ?_⟩
      have carried : e.low ≥ 1 <<< 32 := by omega
      rw [shiftLow, settle, if_pos (Or.inr carried), if_pos carried, size, pushCarry_eq, low,
        leading, Nat.add_sub_cancel]

theorem length_written {e : Encoder} (waits : 0 < e.cacheSize) :
    e.written.length = e.out.length + e.cacheSize := by
  simp only [written, List.length_append, List.length_cons, List.length_replicate]
  omega

/-- `shift_low` moves one byte of `low` behind what is written. -/
theorem shiftLow_interval {e : Encoder} (fits : e.CarryFits) :
    e.shiftLow.interval.low = 256 * e.interval.low ∧
      e.shiftLow.interval.places = e.interval.places + 1 := by
  obtain ⟨waits, limit, full⟩ := fits
  have digit : (UInt8.ofNat (e.low / 2 ^ 24 % 256)).toNat = e.low / 2 ^ 24 % 256 := by
    rw [UInt8.toNat_ofNat']
    omega
  have length := length_written waits
  obtain ⟨small, moved⟩ | ⟨carry, moved⟩ | ⟨large, below, moved⟩ := shiftLow_cases waits
  · rw [moved]
    simp only [interval, written, Nat.sub_self, List.replicate_zero, beValue_settled, digit]
    simp only [written] at length
    constructor
    · omega
    · omega
  · have room : e.cache ≠ 0xFF := fun isFull => by
      have bound := full isFull
      omega
    rw [moved]
    simp only [interval, written, Nat.sub_self, List.replicate_zero, beValue_settled, digit,
      beValue_carried room, List.length_append, List.length_cons, List.length_replicate]
    constructor
    · omega
    · omega
  · obtain ⟨n, size⟩ : ∃ n, e.cacheSize = n + 1 := ⟨e.cacheSize - 1, by omega⟩
    have more : e.out ++ e.cache :: List.replicate (n + 1) 0xFF =
        (e.out ++ e.cache :: List.replicate n 0xFF) ++ [0xFF] := by
      rw [List.replicate_succ', List.append_assoc]
      rfl
    have byte : (0xFF : UInt8).toNat = 255 := rfl
    rw [moved]
    simp only [interval, written, size, Nat.add_sub_cancel, more, beValue_settled, byte]
    constructor
    · omega
    · omega

/-- After a byte has moved there is room for the carries of an interval that had it before. -/
theorem shiftLow_room {e : Encoder} {width : Nat} (waits : 0 < e.cacheSize)
    (low : e.low + width ≤ 2 ^ 33) (full : e.cache = 0xFF → e.low + width ≤ 2 ^ 32) :
    0 < e.shiftLow.cacheSize ∧ e.shiftLow.low < 2 ^ 32 ∧
      (e.shiftLow.cache = 0xFF → e.shiftLow.low + 256 * width ≤ 2 ^ 32) := by
  have digit : (UInt8.ofNat (e.low / 2 ^ 24 % 256)).toNat = e.low / 2 ^ 24 % 256 := by
    rw [UInt8.toNat_ofNat']
    omega
  have byte : (0xFF : UInt8).toNat = 255 := rfl
  obtain ⟨small, moved⟩ | ⟨carry, moved⟩ | ⟨large, below, moved⟩ := shiftLow_cases waits
  · rw [moved]
    refine ⟨Nat.one_pos, by simp only; omega, fun isFull => ?_⟩
    simp only at isFull
    rw [isFull, byte] at digit
    omega
  · rw [moved]
    refine ⟨Nat.one_pos, by simp only; omega, fun isFull => ?_⟩
    simp only at isFull ⊢
    rw [isFull, byte] at digit
    omega
  · rw [moved]
    refine ⟨Nat.succ_pos _, by simp only; omega, fun isFull => ?_⟩
    have room := full isFull
    simp only
    omega

/-- The interval has a width, and its upper end is in reach of a carry. -/
structure Sound (e : Encoder) : Prop where
  waits : 0 < e.cacheSize
  positive : 0 < e.range
  small : e.range < 2 ^ 32
  low : e.low + e.range ≤ 2 ^ 33
  full : e.cache = 0xFF → e.low + e.range ≤ 2 ^ 32

/-- Between the operations the range is large, so that every part of it has a width. -/
structure Valid (e : Encoder) : Prop extends Sound e where
  large : TOP ≤ e.range

theorem Sound.carryFits {e : Encoder} (sound : e.Sound) : e.CarryFits := by
  obtain ⟨waits, positive, -, low, full⟩ := sound
  exact ⟨waits, by omega, fun isFull => by have bound := full isFull; omega⟩

theorem valid_new : new.Valid where
  waits := by decide
  positive := by decide
  small := by decide
  low := by decide
  full := by decide
  large := by decide

/-- One turn of the loop of `renorm`. -/
def widened (e : Encoder) : Encoder := ({ e with range := e.range <<< 8 } : Encoder).shiftLow

theorem widened_range (e : Encoder) : e.widened.range = e.range * 256 := by
  rw [widened, shiftLow_range]
  exact Nat.shiftLeft_eq _ _

theorem Sound.widened {e : Encoder} (sound : e.Sound) (below : e.range < TOP) :
    e.widened.Sound := by
  have top : TOP = 2 ^ 24 := rfl
  have range := e.widened_range
  obtain ⟨waits, positive, -, low, full⟩ := sound
  obtain ⟨waits', low', full'⟩ := @shiftLow_room { e with range := e.range <<< 8 } e.range waits
    low full
  refine ⟨waits', by omega, by omega, ?_, fun isFull => ?_⟩
  · have bound : e.widened.low < 2 ^ 32 := low'
    omega
  · have bound : e.widened.low + 256 * e.range ≤ 2 ^ 32 := full' isFull
    omega

theorem Sound.widened_interval {e : Encoder} (sound : e.Sound) :
    e.widened.interval = e.interval.scale 256 := by
  have fits : ({ e with range := e.range <<< 8 } : Encoder).CarryFits :=
    ⟨sound.carryFits.waits, sound.carryFits.low, sound.carryFits.full⟩
  obtain ⟨low, places⟩ := shiftLow_interval fits
  have width : e.widened.interval.width = 256 * e.range := by
    rw [Nat.mul_comm, ← widened_range]
    rfl
  calc e.widened.interval
      = ⟨e.widened.interval.low, e.widened.interval.width, e.widened.interval.places⟩ := rfl
    _ = ⟨256 * e.interval.low, 256 * e.range, e.interval.places + 1⟩ := by
        rw [width]
        exact congrArg₂ (Interval.mk · (256 * e.range) ·) low places

theorem renorm_of_large {e : Encoder} (large : TOP ≤ e.range) : e.renorm = e := by
  rw [renorm, if_neg (by omega)]

theorem renorm_of_small {e : Encoder} (positive : 0 < e.range) (small : e.range < TOP) :
    e.renorm = e.widened.renorm := by
  rw [renorm, if_pos ⟨positive, small⟩]
  rfl

end Encoder

/-! ## The decoder follows -/

/-- A byte of a string is a digit of its value. -/
theorem toNat_getD_eq {bytes : Bytes} {i : Nat} (inside : i < bytes.length) :
    (bytes.getD i 0).toNat = beValue bytes / 256 ^ (bytes.length - 1 - i) % 256 := by
  have parts : bytes.take i ++ bytes[i] :: bytes.drop (i + 1) = bytes := by simp
  have back : (bytes.drop (i + 1)).length = bytes.length - 1 - i := by
    rw [List.length_drop]
    omega
  have rest := beValue_lt (bytes.drop (i + 1))
  rw [back] at rest
  have byte := bytes[i].toNat_lt
  have value : beValue bytes = beValue (bytes.drop (i + 1)) +
      256 ^ (bytes.length - 1 - i) * (beValue (bytes.take i) * 256 + bytes[i].toNat) := by
    calc beValue bytes = beValue (bytes.take i ++ bytes[i] :: bytes.drop (i + 1)) := by rw [parts]
      _ = _ := by
        rw [beValue_append, beValue, List.length_cons, back, Nat.pow_succ]
        ring
  rw [List.getD_eq_getElem _ _ inside, value, Nat.add_mul_div_left _ _ (Nat.pow_pos (by decide)),
    Nat.div_eq_of_lt rest]
  omega

/-- What is coded lies in the encoder's interval: four bytes are before the point. -/
structure Codes (bytes : Bytes) (m : Nat) (e : Encoder) : Prop where
  length : bytes.length = m + 4
  holds : e.interval.Holds 256 m (beValue bytes)

/-- The decoder stands at the offset of what is coded in the encoder's interval. -/
structure Follows (bytes : Bytes) (m : Nat) (e : Encoder) (d : Decoder) : Prop where
  range : d.range = e.range
  code : d.code = e.interval.code 256 m (beValue bytes)
  pos : d.pos = e.interval.places + 4
  input : d.input = bytes

section Following

variable {m : Nat} {bytes : Bytes} {e : Encoder} {d : Decoder}

/-- One turn of the loop of the decoder's `renorm`. -/
def Decoder.widened (d : Decoder) : Decoder :=
  ({ d with range := d.range <<< 8 } : Decoder).shiftIn

theorem Decoder.renorm_of_large (large : TOP ≤ d.range) : d.renorm = d := by
  rw [renorm, if_neg (by omega)]

theorem Decoder.renorm_of_small (positive : 0 < d.range) (small : d.range < TOP) :
    d.renorm = d.widened.renorm := by
  rw [renorm, if_pos ⟨positive, small⟩]
  rfl

/-- What the first interval holds the second held before. -/
def Nested (e' e : Encoder) : Prop :=
  ∀ m number : Nat, e'.interval.Holds 256 m number → e.interval.Holds 256 m number

theorem Nested.codes {e' : Encoder} (nested : Nested e' e) (codes : Codes bytes m e') :
    Codes bytes m e :=
  ⟨codes.length, nested _ _ codes.holds⟩

theorem nested_widened (sound : e.Sound) : Nested e.widened e := by
  intro m number holds
  rw [sound.widened_interval] at holds
  exact holds.of_scale

/-- The decoder takes the byte in by which the encoder's interval has grown. -/
theorem Follows.widened (follows : Follows bytes m e d) (sound : e.Sound)
    (below : e.range < TOP) (codes : Codes bytes m e.widened) :
    Follows bytes m e.widened d.widened := by
  obtain ⟨range, code, pos, input⟩ := follows
  obtain ⟨length, holds⟩ := codes
  have top : TOP = 2 ^ 24 := rfl
  rw [sound.widened_interval] at holds
  have before : e.interval.places < m := holds.places
  have bound := holds.of_scale.code_lt (by decide)
  have width : e.interval.width = e.range := rfl
  have byte : (bytes.getD d.pos 0).toNat =
      beValue bytes / 256 ^ (m - (e.interval.places + 1)) % 256 := by
    rw [toNat_getD_eq (by omega), length, pos]
    congr 3
    omega
  refine ⟨?_, ?_, ?_, input⟩
  · show d.range <<< 8 = _
    rw [range, Encoder.widened_range]
    exact Nat.shiftLeft_eq _ _
  · rw [sound.widened_interval, Interval.code_scale (by decide) holds, ← code, ← byte, ← input]
    show d.code <<< 8 % 2 ^ 32 + _ = _
    rw [Nat.shiftLeft_eq, Nat.mod_eq_of_lt (by omega), Nat.mul_comm]
  · rw [sound.widened_interval]
    show d.pos + 1 = e.interval.places + 1 + 4
    omega

/-- After `renorm` the range is large again; what is coded lay in the interval before, and the
decoder's `renorm` follows. -/
theorem renorm_spec (sound : e.Sound) :
    e.renorm.Valid ∧ Nested e.renorm e ∧
      (Codes bytes m e.renorm → Follows bytes m e d → Follows bytes m e.renorm d.renorm) := by
  induction left : TOP - e.range using Nat.strong_induction_on generalizing e d with
  | _ left ih =>
    rcases Nat.lt_or_ge e.range TOP with below | large
    · have next := sound.widened below
      have range := e.widened_range
      have positive := sound.positive
      obtain ⟨valid, nested, follow⟩ := @ih (TOP - e.widened.range) (by omega) e.widened
        d.widened next rfl
      rw [Encoder.renorm_of_small positive below]
      refine ⟨valid, fun _ _ holds => nested_widened sound _ _ (nested _ _ holds),
        fun codes follows => ?_⟩
      rw [Decoder.renorm_of_small (by rw [follows.range]; exact positive)
        (by rw [follows.range]; exact below)]
      exact follow codes (follows.widened sound below (nested.codes codes))
    · rw [Encoder.renorm_of_large large]
      refine ⟨⟨sound, large⟩, fun _ _ => id, fun _ follows => ?_⟩
      rwa [Decoder.renorm_of_large (by rw [follows.range]; exact large)]

/-! ## One decision -/

/-- A part of the range, before `renorm`. -/
def Encoder.part (e : Encoder) (offset width : Nat) : Encoder :=
  { e with low := e.low + offset, range := width }

def Decoder.part (d : Decoder) (offset width : Nat) : Decoder :=
  { d with code := d.code - offset, range := width }

theorem Encoder.part_interval (e : Encoder) (offset width : Nat) :
    (e.part offset width).interval = e.interval.narrow offset width := by
  simp only [interval, part, Interval.narrow, written, Nat.add_assoc]

theorem Encoder.Sound.part (sound : e.Sound) {offset width : Nat} (positive : 0 < width)
    (inside : offset + width ≤ e.range) : (e.part offset width).Sound := by
  obtain ⟨waits, -, small, low, full⟩ := sound
  refine ⟨waits, positive, ?_, ?_, fun isFull => ?_⟩
  · show width < 2 ^ 32
    omega
  · show e.low + offset + width ≤ 2 ^ 33
    omega
  · have bound := full isFull
    show e.low + offset + width ≤ 2 ^ 32
    omega

end Following

/-- From `e` to `e'` the encoder goes into its interval, and a decoder that follows goes the way
`reads`. -/
structure Step (e e' : Encoder) (reads : Decoder → Decoder → Prop) : Prop where
  valid : e'.Valid
  nested : Nested e' e
  follow : ∀ {bytes m d}, Codes bytes m e' → Follows bytes m e d →
    ∃ d', reads d d' ∧ Follows bytes m e' d'

theorem Step.refl {e : Encoder} (valid : e.Valid) : Step e e fun d d' => d = d' where
  valid := valid
  nested := fun _ _ => id
  follow := fun _ follows => ⟨_, rfl, follows⟩

theorem Step.mono {e e' : Encoder} {reads reads' : Decoder → Decoder → Prop}
    (step : Step e e' reads)
    (weaker : ∀ {d d'}, d.range = e.range → reads d d' → reads' d d') : Step e e' reads' where
  valid := step.valid
  nested := step.nested
  follow := by
    intro bytes m d codes follows
    obtain ⟨d', read, follows'⟩ := step.follow codes follows
    exact ⟨d', weaker follows.range read, follows'⟩

/-- The encoder goes to a part of its range: the decoder finds its code in that part and goes
there too. -/
theorem part_step {e : Encoder} (valid : e.Valid) {offset width : Nat} (positive : 0 < width)
    (inside : offset + width ≤ e.range) :
    Step e (e.part offset width).renorm fun d d' =>
      offset ≤ d.code ∧ d.code < offset + width ∧ d' = (d.part offset width).renorm := by
  have sound := valid.toSound.part positive inside
  have spec {bytes : Bytes} {m : Nat} {d : Decoder} :=
    @renorm_spec m bytes _ (d.part offset width) sound
  have renormed : (e.part offset width).renorm.Valid := (@spec [] 0 (.new [])).1
  have before : Nested (e.part offset width).renorm (e.part offset width) :=
    (@spec [] 0 (.new [])).2.1
  refine ⟨renormed, fun _ _ holds => ?_, fun {bytes m d} codes follows => ?_⟩
  · have part := before _ _ holds
    rw [Encoder.part_interval] at part
    exact part.of_narrow inside
  · have part := (before.codes codes).holds
    rw [Encoder.part_interval] at part
    obtain ⟨above, below⟩ := part.code_in_part (by decide)
    rw [← follows.code] at above below
    refine ⟨_, ⟨above, below, rfl⟩, spec.2.2 codes ⟨rfl, ?_, follows.pos, follows.input⟩⟩
    rw [Encoder.part_interval, Interval.code_narrow, ← follows.code]
    rfl

theorem Step.trans {e e' e'' : Encoder} {reads reads' reads'' : Decoder → Decoder → Prop}
    (first : Step e e' reads) (second : Step e' e'' reads')
    (both : ∀ {d d' d''}, reads d d' → reads' d' d'' → reads'' d d'') : Step e e'' reads'' where
  valid := second.valid
  nested := fun _ _ holds => first.nested _ _ (second.nested _ _ holds)
  follow := by
    intro bytes m d codes follows
    obtain ⟨d', read, follows'⟩ := first.follow (second.nested.codes codes) follows
    obtain ⟨d'', read', follows''⟩ := second.follow codes follows'
    exact ⟨d'', both read read', follows''⟩

/-! ## Bits -/

/-- A probability that leaves both parts of a range a width. -/
def Inner (prob : Nat) : Prop := 0 < prob ∧ prob < ONE

theorem inner_half : Inner HALF := ⟨by decide, by decide⟩

theorem Inner.lowered {prob : Nat} (inner : Inner prob) : Inner (lowered prob) := by
  obtain ⟨positive, below⟩ := inner
  have eighth : prob >>> MOVE = prob / 8 := Nat.shiftRight_eq_div_pow _ _
  unfold Inner Compress.lowered
  omega

theorem Inner.raised {prob : Nat} (inner : Inner prob) : Inner (raised prob) := by
  obtain ⟨positive, below⟩ := inner
  have eighth : (ONE - prob) >>> MOVE = (ONE - prob) / 8 := Nat.shiftRight_eq_div_pow _ _
  unfold Inner Compress.raised
  omega

/-- The probability after a bit. -/
theorem bit_prob (e : Encoder) (prob : Nat) (one : Bool) :
    (e.bit prob one).2 = if one then lowered prob else raised prob := by
  cases one <;> rfl

theorem Inner.bit {prob : Nat} (inner : Inner prob) (e : Encoder) (one : Bool) :
    Inner (e.bit prob one).2 := by
  rw [bit_prob]
  cases one
  · exact inner.raised
  · exact inner.lowered

/-- The part of a zero lies properly in a large range. -/
theorem bound_inside {range prob : Nat} (large : TOP ≤ range) (inner : Inner prob) :
    0 < range >>> BITS * prob ∧ range >>> BITS * prob < range := by
  obtain ⟨positive, below⟩ := inner
  have top : TOP = 2 ^ 24 := rfl
  have one : ONE = 2 ^ 11 := rfl
  have shifted : range >>> BITS = range / 2 ^ 11 := Nat.shiftRight_eq_div_pow _ _
  rw [shifted]
  have unit : 0 < range / 2 ^ 11 := by omega
  refine ⟨Nat.mul_pos unit positive, ?_⟩
  calc range / 2 ^ 11 * prob < range / 2 ^ 11 * 2 ^ 11 :=
        Nat.mul_lt_mul_of_pos_left (by omega) unit
    _ ≤ range := Nat.div_mul_le_self _ _

theorem bit_step {e : Encoder} (valid : e.Valid) {prob : Nat} (inner : Inner prob) (one : Bool) :
    Step e (e.bit prob one).1 fun d d' => d.bit prob = (one, (e.bit prob one).2, d') := by
  obtain ⟨positive, below⟩ := bound_inside valid.large inner
  cases one with
  | false =>
    have step : Step e (e.bit prob false).1 _ :=
      @part_step e valid 0 (e.range >>> BITS * prob) positive (by omega)
    refine step.mono fun {d d'} range read => ?_
    obtain ⟨-, small, rfl⟩ := read
    rw [Decoder.bit, range, if_pos (by omega)]
    rfl
  | true =>
    have step : Step e (e.bit prob true).1 _ :=
      @part_step e valid (e.range >>> BITS * prob) (e.range - e.range >>> BITS * prob)
        (by omega) (by omega)
    refine step.mono fun {d d'} range read => ?_
    obtain ⟨large, -, rfl⟩ := read
    rw [Decoder.bit, range, if_neg (by omega)]
    rfl

/-! ## Trees -/

theorem low_bits_succ (value i : Nat) :
    value % 2 ^ (i + 1) = (value.testBit i).toNat * 2 ^ i + value % 2 ^ i := by
  rw [Nat.pow_succ, Nat.mod_mul, Nat.toNat_testBit]
  ring

/-- The loop of a tree appends the bits it codes to the node. -/
theorem treeLoop_step (value i : Nat) {e : Encoder} (valid : e.Valid) {tree : Nat → Nat}
    (inner : ∀ node, Inner (tree node)) (node : Nat) :
    Step e (e.treeLoop tree value node i).1
      (fun d d' => d.treeLoop tree node i =
        (node * 2 ^ i + value % 2 ^ i, (e.treeLoop tree value node i).2, d')) ∧
    ∀ other, Inner ((e.treeLoop tree value node i).2 other) := by
  induction i generalizing e tree node with
  | zero =>
    refine ⟨(Step.refl valid).mono fun {d d'} _ same => ?_, inner⟩
    subst same
    simp [Decoder.treeLoop, Encoder.treeLoop, Nat.mod_one]
  | succ i ih =>
    have first := bit_step valid (inner node) (value.testBit i)
    have inner' (other : Nat) :
        Inner (Function.update tree node (e.bit (tree node) (value.testBit i)).2 other) := by
      by_cases here : other = node
      · rw [here, Function.update_self]
        exact (inner node).bit e _
      · rw [Function.update_of_ne here]
        exact inner other
    obtain ⟨rest, inner''⟩ := ih first.valid inner' (node <<< 1 + (value.testBit i).toNat)
    refine ⟨first.trans rest fun {d d' d''} read read' => ?_, inner''⟩
    have leaf : (node <<< 1 + (value.testBit i).toNat) * 2 ^ i + value % 2 ^ i =
        node * 2 ^ (i + 1) + value % 2 ^ (i + 1) := by
      rw [low_bits_succ, Nat.shiftLeft_eq]
      ring
    rw [leaf] at read'
    rw [Decoder.treeLoop, read]
    exact read'

theorem tree_step {e : Encoder} (valid : e.Valid) {tree : Nat → Nat}
    (inner : ∀ node, Inner (tree node)) {depth value : Nat} (fits : value < 2 ^ depth)
    (small : depth ≤ 8) :
    Step e (e.tree tree depth value).1
      (fun d d' => d.tree tree depth = (value, (e.tree tree depth value).2, d')) ∧
    ∀ other, Inner ((e.tree tree depth value).2 other) := by
  obtain ⟨step, inner'⟩ := treeLoop_step value depth valid inner 1
  refine ⟨step.mono fun {d d'} _ read => ?_, inner'⟩
  have size : 2 ^ depth ≤ 2 ^ 8 := Nat.pow_le_pow_right (by decide) small
  rw [Decoder.tree, read]
  simp only [Nat.mod_eq_of_lt fits, Nat.one_mul, Nat.shiftLeft_eq, Nat.add_sub_cancel_left]
  rw [if_pos (by omega)]
  rfl

/-! ## Raw bits -/

namespace Decoder

/-- The next raw bit. -/
def rawBit (d : Decoder) : Bool := d.code ≥ d.range >>> 1

/-- The decoder after it. -/
def rawNext (d : Decoder) : Decoder :=
  renorm { d with code := if d.rawBit then d.code - d.range >>> 1 else d.code, range := d.range >>> 1 }

theorem directLoop_succ (d : Decoder) (read i : Nat) :
    d.directLoop read (i + 1) = d.rawNext.directLoop (read <<< 1 % 2 ^ 32 + d.rawBit.toNat) i := rfl

/-- At every raw bit the code lies in one of the halves; an odd range has a number beyond them. -/
def RawBelow (d : Decoder) : Nat → Prop
  | 0 => True
  | i + 1 => d.code < 2 * (d.range >>> 1) ∧ d.rawNext.RawBelow i

end Decoder

/-- The loop of `direct` appends the bits it codes, as long as they fit 32 bits. -/
theorem direct_step (value i : Nat) {e : Encoder} (valid : e.Valid) {read : Nat}
    (fits : read * 2 ^ i + value % 2 ^ i < 2 ^ 32) :
    Step e (e.direct value i) fun d d' =>
      d.directLoop read i = (read * 2 ^ i + value % 2 ^ i, d') ∧ d.RawBelow i := by
  induction i generalizing e read with
  | zero =>
    refine (Step.refl valid).mono fun {d d'} _ same => ?_
    subst same
    simp [Decoder.directLoop, Decoder.RawBelow, Nat.mod_one]
  | succ i ih =>
    have top : TOP = 2 ^ 24 := rfl
    have large := valid.large
    have half : e.range >>> 1 = e.range / 2 := Nat.shiftRight_eq_div_pow _ _
    have total : read * 2 ^ (i + 1) + value % 2 ^ (i + 1) =
        (read * 2 + (value.testBit i).toNat) * 2 ^ i + value % 2 ^ i := by
      rw [low_bits_succ]
      ring
    have shifted : read <<< 1 % 2 ^ 32 = read * 2 := by
      have power : 1 ≤ 2 ^ i := Nat.one_le_two_pow
      have bound : read * 2 * 1 ≤ read * 2 * 2 ^ i := Nat.mul_le_mul_left _ power
      have all : read * 2 ^ (i + 1) = read * 2 * 2 ^ i := by ring
      rw [Nat.shiftLeft_eq]
      exact Nat.mod_eq_of_lt (by omega)
    rw [total] at fits ⊢
    have first : Step e (e.part (if value.testBit i then e.range >>> 1 else 0)
        (e.range >>> 1)).renorm fun d d' =>
          d.rawBit = value.testBit i ∧ d' = d.rawNext ∧ d.code < 2 * (d.range >>> 1) := by
      refine (part_step valid (by omega) (by split <;> omega)).mono fun {d d'} range goes => ?_
      obtain ⟨above, below, rfl⟩ := goes
      have bit : d.rawBit = value.testBit i := by
        rw [Decoder.rawBit, range]
        cases one : value.testBit i with
        | false =>
          rw [one] at below
          simp only [Bool.false_eq_true, if_false] at below
          exact decide_eq_false (by omega)
        | true =>
          rw [one, if_pos rfl] at above
          exact decide_eq_true above
      refine ⟨bit, ?_, ?_⟩
      · rw [Decoder.rawNext, bit, range]
        cases value.testBit i <;> rfl
      · rw [range]
        split at below <;> omega
    have next : e.direct value (i + 1) = ((e.part (if value.testBit i then e.range >>> 1 else 0)
        (e.range >>> 1)).renorm).direct value i := by
      rw [Encoder.direct]
      cases value.testBit i <;> rfl
    rw [next]
    refine first.trans (ih first.valid fits) fun {d d' d''} goes goes' => ?_
    obtain ⟨bit, rfl, below⟩ := goes
    obtain ⟨read', below'⟩ := goes'
    rw [Decoder.directLoop_succ, shifted, bit]
    exact ⟨read', below, below'⟩

/-! ## Scripts -/

section Scripts

set_option linter.unusedSectionVars false

variable {κ τ : Type} [DecidableEq κ] [DecidableEq τ]

/-- No probability is zero or one. -/
structure Probs.Inner (probs : Probs κ τ) : Prop where
  bits : ∀ name, Compress.Inner (probs.bits name)
  trees : ∀ name node, Compress.Inner (probs.trees name node)

theorem inner_initial : (Probs.initial : Probs κ τ).Inner :=
  ⟨fun _ => inner_half, fun _ _ => inner_half⟩

/-- The raw bits of an operation find the code in one of the halves. -/
def Op.RawBelow (op : Op κ τ) (d : Decoder) : Prop :=
  match op with
  | direct count => d.RawBelow count
  | _ => True

def scriptBelow : List (Op κ τ) → Decoder → Probs κ τ → Prop
  | [], _, _ => True
  | op :: rest, d, probs =>
    op.RawBelow d ∧ scriptBelow rest (op.decode d probs).2.1 (op.decode d probs).2.2

theorem op_step {op : Op κ τ} {value : Nat} (fits : op.Fits value) {e : Encoder} (valid : e.Valid)
    {probs : Probs κ τ} (inner : probs.Inner) :
    Step e (op.encode value e probs).1
      (fun d d' => op.decode d probs = (value, d', (op.encode value e probs).2) ∧ op.RawBelow d) ∧
    (op.encode value e probs).2.Inner := by
  cases op with
  | bit name =>
    constructor
    · refine (bit_step valid (inner.bits name) (value = 1)).mono fun {d d'} _ read => ?_
      have small : value < 2 := fits
      have back : (decide (value = 1)).toNat = value := by
        by_cases one : value = 1
        · rw [decide_eq_true one, one]
          rfl
        · rw [decide_eq_false one]
          show 0 = value
          omega
      refine ⟨?_, trivial⟩
      rw [Op.decode, read]
      show ((decide (value = 1)).toNat, _, _) = _
      rw [back]
      rfl
    · refine ⟨fun other => ?_, inner.trees⟩
      show Compress.Inner (Function.update probs.bits name _ other)
      by_cases here : other = name
      · rw [here, Function.update_self]
        exact (inner.bits name).bit e _
      · rw [Function.update_of_ne here]
        exact inner.bits other
  | tree name depth =>
    obtain ⟨small, below⟩ := fits
    obtain ⟨step, inner'⟩ := tree_step valid (inner.trees name) below small
    constructor
    · refine step.mono fun {d d'} _ read => ?_
      refine ⟨?_, trivial⟩
      rw [Op.decode, read]
      rfl
    · refine ⟨inner.bits, fun other => ?_⟩
      show ∀ node, Compress.Inner (Function.update probs.trees name _ other node)
      by_cases here : other = name
      · rw [here, Function.update_self]
        exact inner'
      · rw [Function.update_of_ne here]
        exact inner.trees other
  | direct count =>
    obtain ⟨small, below⟩ := fits
    have size : 2 ^ count ≤ 2 ^ 32 := Nat.pow_le_pow_right (by decide) small
    have lowest : value % 2 ^ count = value := Nat.mod_eq_of_lt below
    refine ⟨(@direct_step value count e valid 0 (by omega)).mono fun {d d'} _ goes => ?_, inner⟩
    obtain ⟨read, below⟩ := goes
    refine ⟨?_, below⟩
    rw [Nat.zero_mul, Nat.zero_add, lowest] at read
    rw [Op.decode, Decoder.direct, read]
    rfl

/-- The values of a script fit its operations. -/
def ScriptFits (script : List (Op κ τ × Nat)) : Prop := ∀ coded ∈ script, coded.1.Fits coded.2

instance (script : List (Op κ τ × Nat)) : Decidable (ScriptFits script) :=
  inferInstanceAs (Decidable (∀ coded ∈ script, _))

/-- A script is decoded step by step as it was coded. -/
theorem script_step (script : List (Op κ τ × Nat)) (fits : ScriptFits script) {e : Encoder}
    (valid : e.Valid) {probs : Probs κ τ} (inner : probs.Inner) :
    Step e (encodeScript script e probs).1
      (fun d d' => decodeScript (script.map Prod.fst) d probs =
        (script.map Prod.snd, d', (encodeScript script e probs).2) ∧
          scriptBelow (script.map Prod.fst) d probs) ∧
    (encodeScript script e probs).2.Inner := by
  induction script generalizing e probs with
  | nil =>
    refine ⟨(Step.refl valid).mono fun {d d'} _ same => ?_, inner⟩
    subst same
    exact ⟨rfl, trivial⟩
  | cons coded rest ih =>
    obtain ⟨op, value⟩ := coded
    obtain ⟨first, inner'⟩ := op_step (fits _ List.mem_cons_self) valid inner
    have restFits : ScriptFits rest :=
      fun coded member => fits coded (List.mem_cons_of_mem _ member)
    obtain ⟨second, inner''⟩ := ih restFits first.valid inner'
    refine ⟨first.trans second fun {d d' d''} goes goes' => ?_, inner''⟩
    obtain ⟨read, below⟩ := goes
    obtain ⟨read', below'⟩ := goes'
    rw [List.map_cons, decodeScript, scriptBelow, read]
    refine ⟨?_, below, below'⟩
    simp only [read']
    rfl

end Scripts

/-! ## The first and the last bytes -/

namespace Encoder

theorem CarryFits.shiftLow {e : Encoder} (fits : e.CarryFits) : e.shiftLow.CarryFits := by
  obtain ⟨waits, low, -⟩ := @shiftLow_room e 0 fits.waits (by have := fits.low; omega)
    fun isFull => by have := fits.full isFull; omega
  exact ⟨waits, by omega, fun _ => low⟩

theorem iterate_shiftLow {e : Encoder} (fits : e.CarryFits) (n : Nat) :
    (Encoder.shiftLow^[n] e).CarryFits ∧
      (Encoder.shiftLow^[n] e).interval.low = 256 ^ n * e.interval.low ∧
      (Encoder.shiftLow^[n] e).interval.places = e.interval.places + n := by
  induction n with
  | zero => exact ⟨fits, (Nat.one_mul _).symm, rfl⟩
  | succ n ih =>
    obtain ⟨fits', low, places⟩ := ih
    obtain ⟨low', places'⟩ := shiftLow_interval fits'
    rw [Function.iterate_succ_apply']
    refine ⟨fits'.shiftLow, ?_, by rw [places', places, Nat.add_assoc]⟩
    rw [low', low, Nat.pow_succ]
    ring

/-- Four bytes on, nothing is left of `low`. -/
theorem iterate_four_low (e : Encoder) : (shiftLow^[4] e).low = 0 := by
  have next (e : Encoder) : e.shiftLow.low = e.low % 2 ^ 24 * 256 := Nat.shiftLeft_eq _ _
  simp only [Function.iterate_succ_apply, Function.iterate_zero, id, next]
  omega

/-- The flushed bytes are the digits of the lower end. -/
theorem flushed_out {e : Encoder} (fits : e.CarryFits) :
    beValue e.flushed.out = e.interval.low ∧ e.flushed.out.length = e.interval.places + 5 := by
  obtain ⟨fits', low, places⟩ := iterate_shiftLow fits 4
  have empty := e.iterate_four_low
  have last : e.flushed = (shiftLow^[4] e).shiftLow := Function.iterate_succ_apply' _ _ _
  have length := length_written fits'.waits
  rw [last]
  generalize shiftLow^[4] e = e' at fits' low places empty length ⊢
  obtain ⟨-, moved⟩ | ⟨large, -⟩ | ⟨large, -⟩ := shiftLow_cases fits'.waits
  · rw [moved]
    simp only [interval] at low places ⊢
    constructor
    · omega
    · omega
  · omega
  · omega

/-- The first of the flushed bytes is zero and the others hold the value, if that is small. -/
theorem finish_spec {e : Encoder} (fits : e.CarryFits)
    (small : e.interval.low < 2 ^ 32 * 256 ^ e.interval.places) :
    e.flushed.out = 0 :: e.finish ∧ beValue e.finish = e.interval.low ∧
      e.finish.length = e.interval.places + 4 := by
  obtain ⟨value, length⟩ := flushed_out fits
  unfold finish
  cases shape : e.flushed.out with
  | nil =>
    rw [shape, List.length_nil] at length
    omega
  | cons byte rest =>
    rw [shape, List.length_cons] at length
    have restLength : rest.length = e.interval.places + 4 := by omega
    have power : 256 ^ (e.interval.places + 4) = 2 ^ 32 * 256 ^ e.interval.places := by
      rw [Nat.pow_add, Nat.mul_comm]
      rfl
    rw [shape, beValue, restLength, power] at value
    have zero : byte.toNat = 0 := by
      by_contra nonzero
      have least : 1 * (2 ^ 32 * 256 ^ e.interval.places) ≤
          byte.toNat * (2 ^ 32 * 256 ^ e.interval.places) :=
        Nat.mul_le_mul_right _ (Nat.pos_of_ne_zero nonzero)
      omega
    have isZero : byte = 0 := UInt8.toNat_inj.mp zero
    rw [zero, Nat.zero_mul, Nat.zero_add] at value
    exact ⟨by rw [isZero, List.tail_cons], value, restLength⟩

end Encoder

/-- The first bytes read in are the leading digits. -/
theorem iterate_shiftIn {bytes : Bytes} {m : Nat} (length : bytes.length = m + 4) (range n : Nat)
    (early : n ≤ 4) :
    Decoder.shiftIn^[n] ⟨0, range, bytes, 0⟩ =
      ⟨beValue bytes / 256 ^ (m + 4 - n), range, bytes, n⟩ := by
  induction n with
  | zero =>
    have below := beValue_lt bytes
    rw [length] at below
    rw [Nat.sub_zero, Nat.div_eq_of_lt below]
    rfl
  | succ n ih =>
    have inside : n < bytes.length := by omega
    rw [Function.iterate_succ_apply', ih (by omega)]
    show (⟨_, range, bytes, n + 1⟩ : Decoder) = _
    rw [toNat_getD_eq inside, length]
    have one : m + 4 - 1 - n = m + 4 - (n + 1) := by omega
    have two : 256 ^ (m + 4 - n) = 256 ^ (m + 4 - (n + 1)) * 256 := by
      rw [← Nat.pow_succ]
      congr 1
      omega
    have below := beValue_lt bytes
    have whole : 256 ^ (m + 4) = 256 ^ (m + 4 - (n + 1)) * 256 ^ (n + 1) := by
      rw [← Nat.pow_add]
      congr 1
      omega
    rw [length, whole] at below
    have digits : beValue bytes / 256 ^ (m + 4 - (n + 1)) < 256 ^ (n + 1) :=
      Nat.div_lt_of_lt_mul below
    have size : 256 ^ (n + 1) ≤ 256 ^ 4 := Nat.pow_le_pow_right (by decide) early
    rw [one, two, ← Nat.div_div_eq_div_mul]
    generalize beValue bytes / 256 ^ (m + 4 - (n + 1)) = front at digits ⊢
    simp only [Nat.shiftLeft_eq]
    congr 1
    omega

theorem new_follows {bytes : Bytes} {m : Nat} (length : bytes.length = m + 4) :
    Follows bytes m .new (.new bytes) := by
  have start : Decoder.new bytes = ⟨beValue bytes / 256 ^ m, 2 ^ 32 - 1, bytes, 4⟩ :=
    iterate_shiftIn length (2 ^ 32 - 1) 4 (Nat.le_refl 4)
  rw [start]
  exact ⟨rfl, rfl, rfl, rfl⟩

/-! ## The round trip -/

section RoundTrip

variable {κ τ : Type} [DecidableEq κ] [DecidableEq τ]

/-- The encoder and the probabilities after a script. -/
def coded (script : List (Op κ τ × Nat)) : Encoder × Probs κ τ :=
  encodeScript script .new .initial

/-- The values the same operations decode, the decoder after them and its probabilities. -/
def decoded (ops : List (Op κ τ)) (bytes : Bytes) : List Nat × Decoder × Probs κ τ :=
  decodeScript ops (.new bytes) .initial

/-- The encoder's bytes: four more than places, the digits of its lower end, which lies below the
initial range; and the decoder's run on them. -/
theorem coded_spec (script : List (Op κ τ × Nat)) (fits : ScriptFits script) :
    (coded script).1.flushed.out = 0 :: (coded script).1.finish ∧
      beValue (coded script).1.finish = (coded script).1.interval.low ∧
      (coded script).1.finish.length = (coded script).1.interval.places + 4 ∧
      (coded script).1.interval.low <
        (2 ^ 32 - 1) * 256 ^ (coded script).1.interval.places ∧
      (∃ d, decoded (script.map Prod.fst) (coded script).1.finish =
          (script.map Prod.snd, d, (coded script).2) ∧ d.finishedExactly = true) ∧
      scriptBelow (script.map Prod.fst) (.new (coded script).1.finish)
        (Probs.initial : Probs κ τ) ∧
      (coded script).2.Inner := by
  obtain ⟨step, inner⟩ := script_step script fits Encoder.valid_new inner_initial
  have shown : encodeScript script Encoder.new (Probs.initial : Probs κ τ) = coded script := rfl
  rw [shown] at step inner
  have valid := step.valid
  generalize coded script = final at step inner valid ⊢
  obtain ⟨e, probs⟩ := final
  simp only at step inner valid ⊢
  have own : e.interval.Holds 256 e.interval.places e.interval.low :=
    Interval.holds_low valid.positive
  have start : e.interval.low < (0 + (2 ^ 32 - 1)) * 256 ^ e.interval.places :=
    (step.nested _ _ own).below
  have width : (0 + (2 ^ 32 - 1)) * 256 ^ e.interval.places ≤ 2 ^ 32 * 256 ^ e.interval.places :=
    Nat.mul_le_mul_right _ (by decide)
  obtain ⟨first, value, length⟩ :=
    Encoder.finish_spec valid.toSound.carryFits (Nat.lt_of_lt_of_le start width)
  have codes : Codes e.finish e.interval.places e := ⟨length, by rw [value]; exact own⟩
  obtain ⟨d, ⟨read, below⟩, follows⟩ := step.follow codes (new_follows length)
  refine ⟨first, value, length, by rwa [Nat.zero_add] at start, ⟨d, read, ?_⟩, below, inner⟩
  have atEnd : d.pos = d.input.length := by rw [follows.pos, follows.input, length]
  have empty : d.code = 0 := by rw [follows.code, value, Interval.code_low]
  exact decide_eq_true ⟨atEnd, empty⟩

/-- **What was coded is decoded.**  For every script of operations with values that fit them, the
decoder returns the values, it has read all bytes and has nothing left, the byte left out by
`finish` is zero, and the probabilities of encoder and decoder agree and are never zero or one. -/
theorem decoded_coded (script : List (Op κ τ × Nat)) (fits : ScriptFits script) :
    ∃ d, decoded (script.map Prod.fst) (coded script).1.finish =
        (script.map Prod.snd, d, (coded script).2) ∧
      d.finishedExactly = true ∧
      (coded script).1.flushed.out.head? = some 0 ∧
      (∀ name, 0 < (coded script).2.bits name ∧ (coded script).2.bits name < 2048) ∧
      ∀ name node, 0 < (coded script).2.trees name node ∧
        (coded script).2.trees name node < 2048 := by
  obtain ⟨first, -, -, -, ⟨d, read, finished⟩, -, inner⟩ := coded_spec script fits
  exact ⟨d, read, finished, by rw [first]; rfl, inner.bits, inner.trees⟩

/-- A bit, a leaf and a raw value. -/
theorem decoded_coded_three :
    ∃ d, decoded [.bit (), .tree () 2, .direct 32]
        (coded [(.bit (), 1), (.tree () 2, 3), (.direct 32, 4294967295)]).1.finish =
          ([1, 3, 4294967295], d,
            (coded [(.bit (), 1), (.tree () 2, 3), (.direct 32, 4294967295)]).2) ∧
      d.finishedExactly = true := by
  obtain ⟨d, read, finished, -⟩ :=
    @decoded_coded Unit Unit _ _ [(.bit (), 1), (.tree () 2, 3), (.direct 32, 4294967295)]
      (by decide)
  exact ⟨d, read, finished⟩

end RoundTrip

end OneLink.Compress
