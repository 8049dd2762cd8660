/-
# Compress.RangeCoder -- the adaptive binary range coder

`Encoder` narrows a range of numbers by one decision at a time and writes the leading byte
of `low` when the range has become small; a byte that a carry may still change waits in
`cache`, with the `0xFF` bytes behind it counted in `cacheSize`.  `Decoder` follows with
`code`, the offset of the coded number in the range.

The machine integers are numbers; a shift that can drop bits says so.  A tree is the
function of its nodes, of which the loop meets those from one to its length (`tree_outside`).
-/
import OneLink.Library.Framing
import Mathlib.Logic.Function.Basic

namespace OneLink.Compress

open Library

set_option autoImplicit false

def TOP : Nat := 1 <<< 24

def BITS : Nat := 11

def ONE : Nat := 1 <<< BITS

def MOVE : Nat := 3

/-- The initial probability of a zero bit: one half. -/
def HALF : Nat := ONE / 2

/-! ## Probabilities -/

/-- The probability of a zero bit after a one. -/
def lowered (prob : Nat) : Nat := prob - prob >>> MOVE

/-- The probability of a zero bit after a zero. -/
def raised (prob : Nat) : Nat := prob + (ONE - prob) >>> MOVE

/-! ## `Encoder` -/

structure Encoder where
  low : Nat
  range : Nat
  cache : UInt8
  cacheSize : Nat
  out : Bytes
  deriving DecidableEq, Repr

namespace Encoder

def new : Encoder := ⟨0, 2 ^ 32 - 1, 0, 1, []⟩

/-- The loop of `shift_low`: the cached byte, then the pending ones, each with the carry. -/
def pushCarry (carry : UInt8) : Nat → UInt8 → Bytes → Bytes
  | 0, _, out => out
  | cacheSize + 1, temp, out => pushCarry carry cacheSize 0xFF (out ++ [temp + carry])

/-- The first half of `shift_low`: what waits is written once no carry can reach it any more. -/
def settle (e : Encoder) : Encoder :=
  if e.low < 0xFF000000 ∨ e.low ≥ 1 <<< 32 then
    { e with
      out := pushCarry (if e.low ≥ 1 <<< 32 then 1 else 0) e.cacheSize e.cache e.out
      cacheSize := 0
      cache := UInt8.ofNat ((e.low >>> 24) % 256) }
  else e

def shiftLow (e : Encoder) : Encoder :=
  { e.settle with cacheSize := e.settle.cacheSize + 1, low := (e.low % 2 ^ 24) <<< 8 }

@[simp] theorem shiftLow_range (e : Encoder) : e.shiftLow.range = e.range := by
  unfold shiftLow settle
  split <;> rfl

/-- `while self.range < TOP`.  Of a range of zero the loop would find no end; it never is zero
(`Encoder.Valid`). -/
def renorm (e : Encoder) : Encoder :=
  if 0 < e.range ∧ e.range < TOP then
    renorm ({ e with range := e.range <<< 8 } : Encoder).shiftLow
  else e
termination_by TOP - e.range
decreasing_by
  rename_i small
  rw [shiftLow_range]
  simp only [Nat.shiftLeft_eq]
  omega

/-- One bit against an adaptive probability. -/
def bit (e : Encoder) (prob : Nat) (bit : Bool) : Encoder × Nat :=
  let bound := e.range >>> BITS * prob
  if bit then
    (renorm { e with low := e.low + bound, range := e.range - bound }, lowered prob)
  else (renorm { e with range := bound }, raised prob)

/-- `direct`: the `count` lowest bits of `value`, highest first. -/
def direct (e : Encoder) (value : Nat) : (count : Nat) → Encoder
  | 0 => e
  | i + 1 =>
    let range := e.range >>> 1
    let low := if value.testBit i then e.low + range else e.low
    direct (renorm { e with low, range }) value i

/-- The loop of `tree`, at a node. -/
def treeLoop (e : Encoder) (tree : Nat → Nat) (value node : Nat) :
    (depth : Nat) → Encoder × (Nat → Nat)
  | 0 => (e, tree)
  | i + 1 =>
    let bit := value.testBit i
    let (e, prob) := e.bit (tree node) bit
    treeLoop e (Function.update tree node prob) value (node <<< 1 + bit.toNat) i

def tree (e : Encoder) (tree : Nat → Nat) (depth value : Nat) : Encoder × (Nat → Nat) :=
  treeLoop e tree value 1 depth

/-- The five last bytes of `low`. -/
def flushed (e : Encoder) : Encoder := shiftLow^[5] e

/-- `finish`: the first byte is left out. -/
def finish (e : Encoder) : Bytes := e.flushed.out.tail

end Encoder

/-! ## `Decoder` -/

structure Decoder where
  code : Nat
  range : Nat
  input : Bytes
  pos : Nat
  deriving DecidableEq, Repr

namespace Decoder

/-- `self.code = (self.code << 8) | self.next()` in 32 bits; past the end a byte is zero. -/
def shiftIn (d : Decoder) : Decoder :=
  { d with code := d.code <<< 8 % 2 ^ 32 + (d.input.getD d.pos 0).toNat, pos := d.pos + 1 }

@[simp] theorem shiftIn_range (d : Decoder) : d.shiftIn.range = d.range := rfl

def new (input : Bytes) : Decoder := shiftIn^[4] ⟨0, 2 ^ 32 - 1, input, 0⟩

def finishedExactly (d : Decoder) : Bool := d.pos = d.input.length ∧ d.code = 0

/-- `while self.range < TOP` -/
def renorm (d : Decoder) : Decoder :=
  if 0 < d.range ∧ d.range < TOP then
    renorm ({ d with range := d.range <<< 8 } : Decoder).shiftIn
  else d
termination_by TOP - d.range
decreasing_by
  rename_i small
  simp only [shiftIn_range, Nat.shiftLeft_eq]
  omega

def bit (d : Decoder) (prob : Nat) : Bool × Nat × Decoder :=
  let bound := d.range >>> BITS * prob
  if d.code < bound then (false, raised prob, renorm { d with range := bound })
  else (true, lowered prob, renorm { d with code := d.code - bound, range := d.range - bound })

/-- The loop of `direct`; `value` has 32 bits. -/
def directLoop (d : Decoder) (value : Nat) : (count : Nat) → Nat × Decoder
  | 0 => (value, d)
  | i + 1 =>
    let range := d.range >>> 1
    let bit := decide (d.code ≥ range)
    let code := if bit then d.code - range else d.code
    directLoop (renorm { d with code, range }) (value <<< 1 % 2 ^ 32 + bit.toNat) i

def direct (d : Decoder) (count : Nat) : Nat × Decoder := d.directLoop 0 count

/-- The loop of `tree`: the leaf it ends at. -/
def treeLoop (d : Decoder) (tree : Nat → Nat) (node : Nat) :
    (depth : Nat) → Nat × (Nat → Nat) × Decoder
  | 0 => (node, tree, d)
  | i + 1 =>
    let (bit, prob, d) := d.bit (tree node)
    treeLoop d (Function.update tree node prob) (node <<< 1 + bit.toNat) i

def tree (d : Decoder) (tree : Nat → Nat) (depth : Nat) : Nat × (Nat → Nat) × Decoder :=
  let (node, tree, d) := d.treeLoop tree 1 depth
  let leaf := node - 1 <<< depth
  (if leaf < 2 ^ 32 then leaf else 2 ^ 32 - 1, tree, d)

end Decoder

/-! ## Scripts -/

section Scripts

variable (κ τ : Type)

/-- One operation; `κ` names the probabilities of single bits, `τ` the trees. -/
inductive Op where
  | bit (name : κ)
  | tree (name : τ) (depth : Nat)
  | direct (count : Nat)
  deriving DecidableEq

/-- Every adaptive probability. -/
structure Probs where
  bits : κ → Nat
  trees : τ → Nat → Nat

variable {κ τ}

def Probs.initial : Probs κ τ := ⟨fun _ => HALF, fun _ _ => HALF⟩

/-- The value can be coded by the operation. -/
def Op.Fits : Op κ τ → Nat → Prop
  | bit _, value => value < 2
  | tree _ depth, value => depth ≤ 8 ∧ value < 2 ^ depth
  | direct count, value => count ≤ 32 ∧ value < 2 ^ count

instance (op : Op κ τ) (value : Nat) : Decidable (op.Fits value) := by
  cases op <;> unfold Op.Fits <;> infer_instance

variable [DecidableEq κ] [DecidableEq τ]

def Op.encode (op : Op κ τ) (value : Nat) (e : Encoder) (probs : Probs κ τ) :
    Encoder × Probs κ τ :=
  match op with
  | bit name =>
    let (e, prob) := e.bit (probs.bits name) (value = 1)
    (e, { probs with bits := Function.update probs.bits name prob })
  | tree name depth =>
    let (e, nodes) := e.tree (probs.trees name) depth value
    (e, { probs with trees := Function.update probs.trees name nodes })
  | direct count => (e.direct value count, probs)

def Op.decode (op : Op κ τ) (d : Decoder) (probs : Probs κ τ) : Nat × Decoder × Probs κ τ :=
  match op with
  | bit name =>
    let (one, prob, d) := d.bit (probs.bits name)
    (one.toNat, d, { probs with bits := Function.update probs.bits name prob })
  | tree name depth =>
    let (value, nodes, d) := d.tree (probs.trees name) depth
    (value, d, { probs with trees := Function.update probs.trees name nodes })
  | direct count =>
    let (value, d) := d.direct count
    (value, d, probs)

/-- A script with its values, on the encoder. -/
def encodeScript : List (Op κ τ × Nat) → Encoder → Probs κ τ → Encoder × Probs κ τ
  | [], e, probs => (e, probs)
  | (op, value) :: rest, e, probs =>
    let (e, probs) := op.encode value e probs
    encodeScript rest e probs

/-- The same operations on the decoder. -/
def decodeScript : List (Op κ τ) → Decoder → Probs κ τ → List Nat × Decoder × Probs κ τ
  | [], d, probs => ([], d, probs)
  | op :: rest, d, probs =>
    let (value, d, probs) := op.decode d probs
    let (values, d, probs) := decodeScript rest d probs
    (value :: values, d, probs)

end Scripts

end OneLink.Compress
