/-
# Library.StreamHeader -- a header of fixed length that is wrapped in a stream and shifted

`xorFrom ρ k` adds the stream `ρ` from position `k` on; it is its own inverse.  A header of
`size` bytes is wrapped by pushing a slot in front, dropping as much at the end, and adding
the stream (`wrap`).  Unwrapping adds the stream to the header and to zeros behind it, and
splits the slot off: what was dropped is replaced by the stream itself.

So a header survives only if it ends in the stream (`unwrap_wrap`).  `grow` builds an end
that does so under one stream after another: a header that ends in a grown filler ends in
the filler itself after wrapping (`suffix_wrap`).
-/
import OneLink.Library.ByteReader

namespace OneLink.Library

set_option autoImplicit false

variable (ρ : Nat → UInt8)

/-- Add the stream from position `k` on. -/
def xorFrom : (k : Nat) → Bytes → Bytes
  | _, [] => []
  | k, b :: bytes => (b ^^^ ρ k) :: xorFrom (k + 1) bytes

def zeros (n : Nat) : Bytes := List.replicate n 0

@[simp] theorem length_zeros (n : Nat) : (zeros n).length = n := List.length_replicate

@[simp] theorem length_xorFrom (k : Nat) (bytes : Bytes) : (xorFrom ρ k bytes).length = bytes.length := by
  induction bytes generalizing k with
  | nil => rfl
  | cons b bytes ih => rw [xorFrom, List.length_cons, List.length_cons, ih]

theorem xorFrom_append (k : Nat) (front back : Bytes) :
    xorFrom ρ k (front ++ back) = xorFrom ρ k front ++ xorFrom ρ (k + front.length) back := by
  induction front generalizing k with
  | nil => rfl
  | cons b front ih =>
    rw [List.cons_append, xorFrom, xorFrom, ih, List.cons_append, List.length_cons,
      Nat.add_assoc, Nat.add_comm 1]

theorem xorFrom_xorFrom (k : Nat) (bytes : Bytes) : xorFrom ρ k (xorFrom ρ k bytes) = bytes := by
  induction bytes generalizing k with
  | nil => rfl
  | cons b bytes ih =>
    rw [xorFrom, xorFrom, ih, UInt8.xor_assoc, UInt8.xor_self, UInt8.xor_zero]

theorem xorFrom_take (k n : Nat) (bytes : Bytes) :
    xorFrom ρ k (bytes.take n) = (xorFrom ρ k bytes).take n := by
  induction bytes generalizing k n with
  | nil => rw [List.take_nil, xorFrom, List.take_nil]
  | cons b bytes ih =>
    cases n with
    | zero => rfl
    | succ n => rw [List.take_succ_cons, xorFrom, xorFrom, List.take_succ_cons, ih]

theorem xorFrom_drop (k n : Nat) (bytes : Bytes) :
    xorFrom ρ (k + n) (bytes.drop n) = (xorFrom ρ k bytes).drop n := by
  induction bytes generalizing k n with
  | nil => rw [List.drop_nil, xorFrom, xorFrom, List.drop_nil]
  | cons b bytes ih =>
    cases n with
    | zero => rfl
    | succ n =>
      rw [List.drop_succ_cons, xorFrom, List.drop_succ_cons, ← ih, Nat.add_assoc,
        Nat.add_comm 1]

/-- A part of the stream that has been written out. -/
theorem slice_stream (start : Nat) {stop n : Nat} (inside : stop ≤ n) :
    slice (xorFrom ρ 0 (zeros n)) start stop = xorFrom ρ start (zeros (stop - start)) := by
  have part := xorFrom_drop ρ 0 start ((zeros n).take stop)
  rw [Nat.zero_add] at part
  rw [slice, ← xorFrom_take, ← part, zeros, zeros, List.take_replicate, List.drop_replicate,
    Nat.min_eq_left inside]

/-- Adding bytes of the stream that have been written out. -/
theorem zipWith_xor_stream (k : Nat) (bytes : Bytes) {n : Nat} (enough : bytes.length ≤ n) :
    List.zipWith (· ^^^ ·) bytes (xorFrom ρ k (zeros n)) = xorFrom ρ k bytes := by
  induction bytes generalizing k n with
  | nil => rfl
  | cons b bytes ih =>
    cases n with
    | zero => cases enough
    | succ n =>
      rw [zeros, List.replicate_succ, xorFrom, List.zipWith_cons_cons, xorFrom,
        UInt8.zero_xor]
      exact congrArg _ (ih (k + 1) (Nat.le_of_succ_le_succ enough))

/-! ## Wrapping -/

/-- Push `slot` in front, keep `size` bytes, add the stream. -/
def wrap (size : Nat) (slot header : Bytes) : Bytes :=
  xorFrom ρ 0 (slot ++ header.take (size - slot.length))

/-- Add the stream, and split the slot off; the stream goes on behind the header. -/
def unwrap (size slotLen : Nat) (header : Bytes) : Bytes × Bytes :=
  ((xorFrom ρ 0 header).take slotLen,
    (xorFrom ρ 0 header).drop slotLen ++ xorFrom ρ size (zeros slotLen))

/-- One more slot of filler under the stream of a header of `size` bytes. -/
def grow (size slotLen : Nat) (filler : Bytes) : Bytes :=
  xorFrom ρ (size - filler.length) (filler ++ zeros slotLen)

variable {ρ} {size slotLen : Nat} {slot header filler : Bytes}

theorem length_wrap (full : header.length = size) (fits : slot.length ≤ size) :
    (wrap ρ size slot header).length = size := by
  rw [wrap, length_xorFrom, List.length_append, List.length_take, full]
  omega

theorem length_grow : (grow ρ size slotLen filler).length = filler.length + slotLen := by
  rw [grow, length_xorFrom, List.length_append, length_zeros]

/-- The filler in the stream, and the stream behind the header. -/
theorem grow_eq (fits : filler.length ≤ size) : grow ρ size slotLen filler =
    xorFrom ρ (size - filler.length) filler ++ xorFrom ρ size (zeros slotLen) := by
  rw [grow, xorFrom_append, Nat.sub_add_cancel fits]

/-- The part of a header that is kept when a slot is pushed in front of it. -/
theorem take_of_suffix (full : header.length = size) (width : slot.length = slotLen)
    (room : filler.length + slotLen ≤ size) (ends : grow ρ size slotLen filler <:+ header) :
    ∃ front, slot.length + front.length = size - filler.length ∧
      header.take (size - slot.length) = front ++ xorFrom ρ (size - filler.length) filler ∧
      header = header.take (size - slot.length) ++ xorFrom ρ size (zeros slotLen) := by
  obtain ⟨front, rfl⟩ := ends
  rw [List.length_append, length_grow] at full
  have kept : (front ++ xorFrom ρ (size - filler.length) filler).length = size - slot.length := by
    rw [List.length_append, length_xorFrom]
    omega
  have taken : (front ++ grow ρ size slotLen filler).take (size - slot.length) =
      front ++ xorFrom ρ (size - filler.length) filler := by
    rw [grow_eq (by omega), ← List.append_assoc, List.take_left' kept]
  refine ⟨front, by omega, taken, ?_⟩
  rw [taken, grow_eq (by omega), List.append_assoc]

/-- **A header that ends in the stream is unwrapped to itself.** -/
theorem unwrap_wrap (full : header.length = size) (width : slot.length = slotLen)
    (room : filler.length + slotLen ≤ size) (ends : grow ρ size slotLen filler <:+ header) :
    unwrap ρ size slotLen (wrap ρ size slot header) = (slot, header) := by
  obtain ⟨front, -, -, whole⟩ := take_of_suffix full width room ends
  rw [unwrap, wrap, xorFrom_xorFrom, List.take_left' width, List.drop_left' width, ← whole]

/-- Wrapping undoes one step of the filler. -/
theorem suffix_wrap (full : header.length = size) (width : slot.length = slotLen)
    (room : filler.length + slotLen ≤ size) (ends : grow ρ size slotLen filler <:+ header) :
    filler <:+ wrap ρ size slot header := by
  obtain ⟨front, aligned, taken, -⟩ := take_of_suffix full width room ends
  refine ⟨xorFrom ρ 0 (slot ++ front), ?_⟩
  have position : 0 + (slot ++ front).length = size - filler.length := by
    rw [List.length_append]
    omega
  rw [wrap, taken, ← List.append_assoc, xorFrom_append ρ 0 (slot ++ front), position,
    xorFrom_xorFrom]

end OneLink.Library
