/-
# Library.ByteOrder — bytes and byte strings in order

Bytes are ordered as numbers; `List UInt8` then carries the lexicographic order.
-/
import Mathlib.Data.List.Lex

namespace OneLink.Library

set_option autoImplicit false

instance byteOrder : LinearOrder UInt8 where
  le_refl _ := UInt8.le_refl _
  le_trans _ _ _ := UInt8.le_trans
  le_antisymm _ _ := UInt8.le_antisymm
  le_total := UInt8.le_total
  lt_iff_le_not_ge a b := by
    rw [UInt8.lt_iff_toNat_lt, UInt8.le_iff_toNat_le, UInt8.le_iff_toNat_le]
    omega
  toDecidableLE := inferInstance
  toDecidableLT := inferInstance

end OneLink.Library
