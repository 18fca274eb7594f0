import Mathlib.Data.List.Lex

/-!
# Go strings

A Go string is an arbitrary finite byte sequence; nothing requires it to be
valid UTF-8. Comparison with `<` is byte-wise lexicographic, which is the order
of lists of bytes.
-/

namespace Lbsync

instance instLinearOrderUInt8 : LinearOrder UInt8 where
  le_refl _ := UInt8.le_refl _
  le_trans _ _ _ := UInt8.le_trans
  lt_iff_le_not_ge a b := by
    rw [UInt8.not_le]
    exact ⟨fun h => ⟨UInt8.le_of_lt h, h⟩, fun h => h.2⟩
  le_antisymm _ _ := UInt8.le_antisymm
  le_total := UInt8.le_total
  toDecidableLE := inferInstance

/-- A Go `[]byte` by its contents. -/
abbrev Bytes := List UInt8

/-- A Go `string`. -/
abbrev GoString := List UInt8

instance instLawfulBEqGoString : LawfulBEq GoString := inferInstance

/-- The bytes of an ASCII literal. -/
def ascii (s : String) : GoString := s.toList.map fun c => UInt8.ofNat c.toNat

end Lbsync
