import Lookahead.Proofs.Utf16.RoundTrip

/-!
This module contains the reading of units as characters. Only whole pairs of surrogates are
characters; a surrogate without its partner gives way to the replacement character. Characters that
are written as units are read as themselves.
-/

namespace Lookahead

namespace Utf16

def lossyUnit (u : UInt16) : Char :=
  if IsHigh u ∨ IsLow u then replacement else Char.ofNat u.toNat

/--
The characters of a sequence of units, with a replacement character for each surrogate that has no
partner.
-/
def lossy : List UInt16 → List Char
  | [] => []
  | [u] => [lossyUnit u]
  | u :: v :: rest =>
    if IsHigh u ∧ IsLow v then
      Char.ofNat (0x10000 + (u.toNat - 0xD800) * 0x400 + (v.toNat - 0xDC00)) :: lossy rest
    else
      lossyUnit u :: lossy (v :: rest)

theorem charOf_of_isValidChar {c : UInt32} (h : c.isValidChar) :
    charOf c = Char.ofNat c.toNat := by
  unfold charOf
  rw [dif_pos h]
  exact (Char.ofNat_toNat ⟨c, h⟩).symm

theorem charOf_toUInt32 (u : UInt16) : charOf u.toUInt32 = lossyUnit u := by
  have hu := u.toNat_lt
  unfold lossyUnit
  split
  . next h =>
    rw [isHigh_iff, isLow_iff] at h
    unfold charOf
    rw [dif_neg]
    simp only [UInt32.isValidChar, Nat.isValidChar, UInt16.toNat_toUInt32]
    omega
  . next h =>
    rw [isHigh_iff, isLow_iff] at h
    rw [charOf_of_isValidChar]
    . rw [UInt16.toNat_toUInt32]
    . simp only [UInt32.isValidChar, Nat.isValidChar, UInt16.toNat_toUInt32]
      omega

theorem charOf_combine {high low : UInt16} (hh : IsHigh high) (hl : IsLow low) :
    charOf (combine high low) =
      Char.ofNat (0x10000 + (high.toNat - 0xD800) * 0x400 + (low.toNat - 0xDC00)) := by
  have hc := toNat_combine hh hl
  rw [isHigh_iff] at hh
  rw [isLow_iff] at hl
  rw [charOf_of_isValidChar]
  . rw [hc]
  . simp only [UInt32.isValidChar, Nat.isValidChar]
    omega

theorem map_charOf_decode (units : List UInt16) : (decode units).map charOf = lossy units := by
  induction units using decode.induct with
  | case1 => rfl
  | case2 u => simp [decode, lossy, charOf_toUInt32]
  | case3 u v rest h ih => simp [decode, lossy, h, charOf_combine h.1 h.2, ih]
  | case4 u v rest h ih => simp only [decode, lossy, if_neg h, List.map_cons, charOf_toUInt32, ih]

theorem text_decode (units : List UInt16) : text (decode units) = String.ofList (lossy units) := by
  unfold text
  rw [map_charOf_decode]

theorem decode_eq_map_of_not_isHigh {units : List UInt16} (h : ∀ u ∈ units, ¬IsHigh u) :
    decode units = units.map UInt16.toUInt32 := by
  induction units with
  | nil => rfl
  | cons u rest ih =>
    rw [decode_cons_of_not_isHigh (h u List.mem_cons_self)]
    rw [ih fun v hv => h v (List.mem_cons_of_mem u hv)]
    rfl

section Encode

variable {c : UInt32}

theorem toNat_highOf (h : 0x10000 ≤ c.toNat) (h' : c.toNat < 0x110000) :
    (highOf c).toNat = 0xD800 + (c.toNat - 0x10000) / 0x400 := by
  have hle : (0x10000 : UInt32) ≤ c := by
    rw [UInt32.le_iff_toNat_le]
    exact h
  simp only [highOf, UInt16.toNat_add, UInt32.toNat_toUInt16, UInt32.toNat_div]
  rw [UInt32.toNat_sub_of_le _ _ hle]
  simp
  omega

theorem toNat_lowOf (h : 0x10000 ≤ c.toNat) :
    (lowOf c).toNat = 0xDC00 + (c.toNat - 0x10000) % 0x400 := by
  have hle : (0x10000 : UInt32) ≤ c := by
    rw [UInt32.le_iff_toNat_le]
    exact h
  simp only [lowOf, UInt16.toNat_add, UInt32.toNat_toUInt16, UInt32.toNat_mod]
  rw [UInt32.toNat_sub_of_le _ _ hle]
  simp
  omega

theorem isHigh_highOf (h : 0x10000 ≤ c.toNat) (h' : c.toNat < 0x110000) : IsHigh (highOf c) := by
  rw [isHigh_iff]
  rw [toNat_highOf h h']
  omega

theorem isLow_lowOf (h : 0x10000 ≤ c.toNat) : IsLow (lowOf c) := by
  rw [isLow_iff]
  rw [toNat_lowOf h]
  omega

theorem combine_highOf_lowOf (h : 0x10000 ≤ c.toNat) (h' : c.toNat < 0x110000) :
    combine (highOf c) (lowOf c) = c := by
  apply UInt32.toNat_inj.mp
  rw [toNat_combine]
  . rw [toNat_highOf h h']
    rw [toNat_lowOf h]
    omega
  . exact isHigh_highOf h h'
  . exact isLow_lowOf h

/--
A character is no surrogate, so what it is written as cannot be taken for anything else.
-/
theorem decode_encodePoint_append (hc : c.isValidChar) (rest : List UInt16) :
    decode (encodePoint c ++ rest) = c :: decode rest := by
  unfold UInt32.isValidChar Nat.isValidChar at hc
  unfold encodePoint
  split
  . next h =>
    have hlt : c.toNat < 0x10000 := UInt32.lt_iff_toNat_lt.mp h
    have hunit : c.toUInt16.toNat = c.toNat := by
      rw [UInt32.toNat_toUInt16]
      omega
    rw [List.singleton_append]
    rw [decode_cons_of_not_isHigh]
    . congr 1
      apply UInt32.toNat_inj.mp
      rw [UInt16.toNat_toUInt32]
      exact hunit
    . rw [isHigh_iff]
      rw [hunit]
      omega
  . next h =>
    have hle : 0x10000 ≤ c.toNat := UInt32.le_iff_toNat_le.mp (UInt32.not_lt.mp h)
    have hlt : c.toNat < 0x110000 := by omega
    rw [List.cons_append]
    rw [List.singleton_append]
    rw [decode_cons_cons_of_isLow]
    . rw [combine_highOf_lowOf hle hlt]
    . exact isHigh_highOf hle hlt
    . exact isLow_lowOf hle

theorem decode_ofString (s : String) : decode (ofString s) = s.toList.map Char.val := by
  unfold ofString encode
  induction s.toList with
  | nil => rfl
  | cons c rest ih =>
    rw [List.map_cons]
    rw [List.flatMap_cons]
    rw [decode_encodePoint_append c.valid]
    rw [ih]

end Encode

end Utf16

end Lookahead
