import Lookahead.Utf16.Decoding

/-!
This module contains the reading of units as code points and the way back. Reading loses nothing,
and what it leaves as bare surrogates are no pairs.
-/

namespace Lookahead

namespace Utf16

theorem toNat_combine {high low : UInt16} (hh : IsHigh high) (hl : IsLow low) :
    (combine high low).toNat = 0x10000 + (high.toNat - 0xD800) * 0x400 + (low.toNat - 0xDC00) := by
  rw [isHigh_iff] at hh
  rw [isLow_iff] at hl
  simp only [combine, UInt32.toNat_add, UInt32.toNat_mul]
  rw [UInt32.toNat_sub_of_le, UInt32.toNat_sub_of_le]
  . simp
    omega
  . simp [UInt32.le_iff_toNat_le, hl.1]
  . simp [UInt32.le_iff_toNat_le, hh.1]

theorem le_combine {high low : UInt16} (hh : IsHigh high) (hl : IsLow low) :
    0x10000 ≤ combine high low := by
  rw [UInt32.le_iff_toNat_le]
  rw [toNat_combine hh hl]
  simp
  omega

theorem toNat_combine_sub {high low : UInt16} (hh : IsHigh high) (hl : IsLow low) :
    (combine high low - 0x10000).toNat =
      (high.toNat - 0xD800) * 0x400 + (low.toNat - 0xDC00) := by
  rw [UInt32.toNat_sub_of_le _ _ (le_combine hh hl)]
  rw [toNat_combine hh hl]
  simp
  omega

theorem highOf_combine {high low : UInt16} (hh : IsHigh high) (hl : IsLow low) :
    highOf (combine high low) = high := by
  have hsub := toNat_combine_sub hh hl
  rw [isHigh_iff] at hh
  rw [isLow_iff] at hl
  apply UInt16.toNat_inj.mp
  simp only [highOf, UInt16.toNat_add, UInt32.toNat_toUInt16, UInt32.toNat_div]
  rw [hsub]
  simp
  omega

theorem lowOf_combine {high low : UInt16} (hh : IsHigh high) (hl : IsLow low) :
    lowOf (combine high low) = low := by
  have hsub := toNat_combine_sub hh hl
  rw [isHigh_iff] at hh
  rw [isLow_iff] at hl
  apply UInt16.toNat_inj.mp
  simp only [lowOf, UInt16.toNat_add, UInt32.toNat_toUInt16, UInt32.toNat_mod]
  rw [hsub]
  simp
  omega

theorem encodePoint_combine {high low : UInt16} (hh : IsHigh high) (hl : IsLow low) :
    encodePoint (combine high low) = [high, low] := by
  unfold encodePoint
  rw [if_neg]
  . rw [highOf_combine hh hl]
    rw [lowOf_combine hh hl]
  . rw [UInt32.not_lt]
    exact le_combine hh hl

theorem encodePoint_toUInt32 (u : UInt16) : encodePoint u.toUInt32 = [u] := by
  unfold encodePoint
  rw [if_pos]
  . simp
  . rw [UInt32.lt_iff_toNat_lt]
    simpa using u.toNat_lt

theorem encode_decode (units : List UInt16) : encode (decode units) = units := by
  induction units using decode.induct with
  | case1 => rfl
  | case2 u => simp [decode, encode, encodePoint_toUInt32]
  | case3 u v rest h ih =>
    simp only [decode, if_pos h, encode, List.flatMap_cons]
    rw [encodePoint_combine h.1 h.2]
    simpa [encode] using ih
  | case4 u v rest h ih =>
    simp only [decode, if_neg h, encode, List.flatMap_cons]
    rw [encodePoint_toUInt32]
    simpa [encode] using ih

/--
Units are read as Unicode code points, bare surrogates among them.
-/
theorem toNat_lt_of_mem_decode {units : List UInt16} {c : UInt32} (h : c ∈ decode units) :
    c.toNat < 0x110000 := by
  have hunit : ∀ u : UInt16, u.toUInt32.toNat < 0x110000 := by
    intro u
    have := u.toNat_lt
    rw [UInt16.toNat_toUInt32]
    omega
  induction units using decode.induct with
  | case1 => simp [decode] at h
  | case2 u =>
    rw [decode, List.mem_singleton] at h
    rw [h]
    exact hunit u
  | case3 u v rest hp ih =>
    simp only [decode, if_pos hp] at h
    rcases List.mem_cons.mp h with rfl | h
    . have hhigh := isHigh_iff.mp hp.1
      have hlow := isLow_iff.mp hp.2
      rw [toNat_combine hp.1 hp.2]
      omega
    . exact ih h
  | case4 u v rest hp ih =>
    simp only [decode, if_neg hp] at h
    rcases List.mem_cons.mp h with rfl | h
    . exact hunit u
    . exact ih h

theorem decode_injective {us vs : List UInt16} (h : decode us = decode vs) : us = vs := by
  rw [← encode_decode us]
  rw [h]
  rw [encode_decode]

theorem decode_cons_of_not_isHigh {u : UInt16} (h : ¬IsHigh u) (rest : List UInt16) :
    decode (u :: rest) = u.toUInt32 :: decode rest := by
  cases rest <;> simp [decode, h]

theorem decode_cons_cons_of_isLow {u v : UInt16} (hu : IsHigh u) (hv : IsLow v)
    (rest : List UInt16) : decode (u :: v :: rest) = combine u v :: decode rest := by
  simp [decode, hu, hv]

theorem decode_cons_cons_of_not_isLow {v : UInt16} (h : ¬IsLow v) (u : UInt16)
    (rest : List UInt16) : decode (u :: v :: rest) = u.toUInt32 :: decode (v :: rest) := by
  simp [decode, h]

theorem combine_ne_toUInt32 {high low : UInt16} (hh : IsHigh high) (hl : IsLow low) (u : UInt16) :
    combine high low ≠ u.toUInt32 := by
  intro h
  have hc := toNat_combine hh hl
  rw [h] at hc
  have hu := u.toNat_lt
  simp only [UInt16.toNat_toUInt32] at hc
  omega

theorem eq_of_toUInt32_isPrefix_decode {low u : UInt16} {rest : List UInt16}
    (h : [low.toUInt32] <+: decode (u :: rest)) : low = u := by
  cases rest with
  | nil => simpa [decode, UInt16.toUInt32_inj] using h
  | cons v rest =>
    by_cases hp : IsHigh u ∧ IsLow v
    . rw [decode_cons_cons_of_isLow hp.1 hp.2] at h
      rw [List.cons_prefix_cons] at h
      exact absurd h.1.symm (combine_ne_toUInt32 hp.1 hp.2 low)
    . simp only [decode, if_neg hp] at h
      rw [List.cons_prefix_cons] at h
      exact UInt16.toUInt32_inj.mp h.1

/--
Among the code points read there is no bare high surrogate with a bare low one right behind it.
-/
theorem not_isInfix_decode {high low : UInt16} (hh : IsHigh high) (hl : IsLow low)
    (units : List UInt16) : ¬[high.toUInt32, low.toUInt32] <:+: decode units := by
  induction units using decode.induct with
  | case1 => simp [decode]
  | case2 u => simp [decode, List.infix_cons_iff]
  | case3 u v rest h ih =>
    simp only [decode, if_pos h]
    rw [List.infix_cons_iff]
    rintro (h' | h')
    . rw [List.cons_prefix_cons] at h'
      exact combine_ne_toUInt32 h.1 h.2 high h'.1.symm
    . exact ih h'
  | case4 u v rest h ih =>
    simp only [decode, if_neg h]
    rw [List.infix_cons_iff]
    rintro (h' | h')
    -- The code point after a bare `u` starts with `v`, so `u` and `v` would be a pair.
    . rw [List.cons_prefix_cons] at h'
      have hu := UInt16.toUInt32_inj.mp h'.1
      have hv := eq_of_toUInt32_isPrefix_decode h'.2
      subst hu hv
      exact h ⟨hh, hl⟩
    . exact ih h'

end Utf16

end Lookahead
