/-!
This module contains the surrogates: the 16-bit units that stand for the code points from `0x10000`
on, taken in pairs of a high and a low one.
-/

namespace Lookahead

namespace Utf16

/--
The unit opens a surrogate pair.
-/
def IsHigh (u : UInt16) : Prop := 0xD800 ≤ u ∧ u ≤ 0xDBFF

/--
The unit closes a surrogate pair.
-/
def IsLow (u : UInt16) : Prop := 0xDC00 ≤ u ∧ u ≤ 0xDFFF

instance (u : UInt16) : Decidable (IsHigh u) := inferInstanceAs (Decidable (_ ∧ _))

instance (u : UInt16) : Decidable (IsLow u) := inferInstanceAs (Decidable (_ ∧ _))

def combine (high low : UInt16) : UInt32 :=
  0x10000 + (high.toUInt32 - 0xD800) * 0x400 + (low.toUInt32 - 0xDC00)

def highOf (c : UInt32) : UInt16 := 0xD800 + ((c - 0x10000) / 0x400).toUInt16

def lowOf (c : UInt32) : UInt16 := 0xDC00 + ((c - 0x10000) % 0x400).toUInt16

theorem isHigh_iff {u : UInt16} : IsHigh u ↔ 0xD800 ≤ u.toNat ∧ u.toNat ≤ 0xDBFF := by
  simp [IsHigh, UInt16.le_iff_toNat_le]

theorem isLow_iff {u : UInt16} : IsLow u ↔ 0xDC00 ≤ u.toNat ∧ u.toNat ≤ 0xDFFF := by
  simp [IsLow, UInt16.le_iff_toNat_le]

theorem not_isLow_of_isHigh {u : UInt16} (h : IsHigh u) : ¬IsLow u := by
  rw [isHigh_iff] at h
  rw [isLow_iff]
  omega

end Utf16

end Lookahead
