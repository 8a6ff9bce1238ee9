import Lookahead.Proofs.CodeBuffer.Refusal

/-!
This module contains the width of builders and the surrogate that waits in them, told by the units
that have come so far. How the units were spread over chunks makes no difference, nor do chunks that
were refused. A surrogate waits only at full width, where closing the builder stores it, so none is
ever lost.
-/

namespace Lookahead

namespace Width

/--
The width of a text: the full one if a unit opens a surrogate pair, and otherwise the narrowest that
holds each unit.
-/
def ofUnits (units : List UInt16) : Width :=
  if ∃ u ∈ units, Utf16.IsHigh u then point else if ∃ u ∈ units, 0xFF < u then unit else byte

theorem le_refl (w : Width) : w ≤ w := Nat.le_refl _

theorem le_point (w : Width) : w ≤ point := by
  cases w <;> decide

theorem eq_of_le_of_le {v w : Width} (h : v ≤ w) (h' : w ≤ v) : v = w := by
  rw [le_iff_bits_le] at h h'
  cases v <;> cases w <;> simp [bits] at h h' ⊢

theorem not_isHigh_of_needed_le {u : UInt16} {w : Width} (h : needed u ≤ w) (hw : w ≠ point) :
    ¬Utf16.IsHigh u := by
  rw [← needed_le_unit_iff]
  cases w with
  | point => contradiction
  | unit => exact h
  | byte => exact Nat.le_trans h (by decide)

theorem not_point_lt (w : Width) : ¬point < w := by
  cases w <;> decide

theorem lt_of_isHigh {u : UInt16} (h : Utf16.IsHigh u) : 0xFF < u := by
  rw [Utf16.isHigh_iff] at h
  rw [UInt16.lt_iff_toNat_lt]
  exact Nat.lt_of_lt_of_le (by decide) h.1

theorem needed_of_isHigh {u : UInt16} (h : Utf16.IsHigh u) : needed u = point := if_pos h

theorem needed_of_not_isHigh {u : UInt16} (h : ¬Utf16.IsHigh u) :
    needed u = if 0xFF < u then unit else byte := by
  unfold needed
  rw [if_neg h]
  by_cases hu : u ≤ 0xFF
  . rw [if_pos hu]
    rw [if_neg (UInt16.not_lt.mpr hu)]
  . rw [if_neg hu]
    rw [if_pos (UInt16.not_le.mp hu)]

theorem ofUnits_le_iff {units : List UInt16} {w : Width} :
    ofUnits units ≤ w ↔ ∀ u ∈ units, needed u ≤ w := by
  unfold ofUnits
  cases w with
  | point => simp [le_point]
  | unit =>
    simp only [needed_le_unit_iff]
    split
    . next hhigh => simpa [le_iff_bits_le, bits] using hhigh
    . next hhigh =>
      have hle : (if ∃ u ∈ units, 0xFF < u then unit else byte) ≤ unit := by
        split <;> decide
      simpa [hle] using hhigh
  | byte =>
    simp only [needed_le_byte_iff]
    split
    . next hhigh =>
      obtain ⟨u, hu, hhigh⟩ := hhigh
      constructor
      . intro h
        contradiction
      . intro h
        exact absurd hhigh (h u hu).1
    . next hhigh =>
      split
      . next hlarge =>
        obtain ⟨u, hu, hlarge⟩ := hlarge
        constructor
        . intro h
          contradiction
        . intro h
          exact absurd (h u hu).2 (UInt16.not_le.mpr hlarge)
      . next hlarge =>
        constructor
        . intro _ u hu
          exact ⟨fun h => hhigh ⟨u, hu, h⟩, UInt16.not_lt.mp fun h => hlarge ⟨u, hu, h⟩⟩
        . intro _
          apply le_refl

end Width

namespace CodeBuffer

namespace Builder

open Utf16 (Chunk)

section Width

theorem width_push_le_iff {b : Builder} {u : UInt16} {w : Width} :
    (b.push u).width ≤ w ↔ b.width ≤ w ∧ Width.needed u ≤ w := by
  unfold push
  rw [width_store]
  rw [width_widen]
  simp only [Width.le_iff_bits_le, Width.lt_iff_bits_lt]
  split <;> omega

theorem width_pushAll_le_iff {b : Builder} {units : List UInt16} {w : Width} :
    (b.pushAll units).width ≤ w ↔ b.width ≤ w ∧ ∀ u ∈ units, Width.needed u ≤ w := by
  induction units generalizing b with
  | nil => simp [pushAll]
  | cons u rest ih =>
    change ((b.push u).pushAll rest).width ≤ w ↔ _
    rw [ih]
    rw [width_push_le_iff]
    rw [and_assoc]
    rw [List.forall_mem_cons]

theorem le_width_pushAll (b : Builder) (units : List UInt16) :
    b.width ≤ (b.pushAll units).width :=
  (width_pushAll_le_iff.mp (Width.le_refl _)).1

theorem width_pushAll_empty (units : List UInt16) :
    (pushAll {} units).width = Width.ofUnits units := by
  have hiff : ∀ w, (pushAll {} units).width ≤ w ↔ Width.ofUnits units ≤ w := by
    intro w
    rw [width_pushAll_le_iff]
    rw [Width.ofUnits_le_iff]
    have hempty : ({} : Builder).width ≤ w := by
      cases w <;> decide
    simp [hempty]
  apply Width.eq_of_le_of_le
  . rw [hiff]
    apply Width.le_refl
  . rw [← hiff]
    apply Width.le_refl

end Width

section Pending

theorem snd_pushMerging (points : Array UInt32) (pending : Option UInt16) (u : UInt16) :
    (pushMerging points pending u).2 = if Utf16.IsHigh u then some u else none := by
  have hfresh : ∀ points, (pushMerging.pushFresh points u).2 =
      if Utf16.IsHigh u then some u else none := by
    intro points
    unfold pushMerging.pushFresh
    split <;> rfl
  unfold pushMerging
  split
  . split
    . next hlow =>
      rw [if_neg]
      exact fun hhigh => Utf16.not_isLow_of_isHigh hhigh hlow
    . apply hfresh
  . apply hfresh

theorem pending_store (b : Builder) (u : UInt16) :
    (b.store u).pending =
      if b.width = .point then (if Utf16.IsHigh u then some u else none) else b.pending := by
  unfold store width
  split
  . next hb => simp [hb, Cells.width]
  . next hb => simp [hb, Cells.width]
  . next a hb =>
    rw [hb]
    exact snd_pushMerging a b.pending u

/--
After a unit a surrogate waits just if that unit is one. At a narrow width none has waited before,
and the unit is none either.
-/
theorem Holds.pending_push {b : Builder} {units : List UInt16} (h : b.Holds units) (u : UInt16) :
    (b.push u).pending = if Utf16.IsHigh u then some u else none := by
  unfold Builder.push
  rw [pending_store]
  split
  . rfl
  . next hw =>
    rw [(h.widen _).pending_eq_none hw]
    rw [if_neg (Width.not_isHigh_of_needed_le (b.le_width_widen _) hw)]

theorem pending_pushAll_eq_some_iff {units : List UInt16} {u : UInt16} :
    (pushAll {} units).pending = some u ↔ units.getLast? = some u ∧ Utf16.IsHigh u := by
  rcases List.eq_nil_or_concat units with rfl | ⟨init, v, rfl⟩
  . simp [pushAll]
  . rw [List.concat_eq_append]
    have hpush : pushAll {} (init ++ [v]) = (pushAll {} init).push v := pushAll_append ..
    rw [hpush]
    rw [(holds_empty.pushAll init).pending_push]
    rw [List.getLast?_concat]
    split
    . next hhigh =>
      constructor
      . intro h
        cases h
        exact ⟨rfl, hhigh⟩
      . exact And.left
    . next hhigh =>
      constructor
      . intro h
        contradiction
      . rintro ⟨h, hu⟩
        cases h
        contradiction

end Pending

theorem Holds.toNat_lt_of_mem {b : Builder} {units : List UInt16} (h : b.Holds units) {c : UInt32}
    (hc : c ∈ b.cells.toList) : c.toNat < 0x110000 := by
  have hdecode := h.decode_append []
  rw [List.append_nil] at hdecode
  have hmem : c ∈ Utf16.decode units := by
    rw [hdecode]
    exact List.mem_append_left _ hc
  exact Utf16.toNat_lt_of_mem_decode hmem

theorem width_build (b : Builder) : b.build.width = b.width := by
  change b.close.cells.width = b.cells.width
  unfold close
  split
  . next hb hp =>
    rw [hb]
    rfl
  . rfl

/--
A builder that has been given chunks has the width of the units received, and never goes back to a
narrower one. The last of the units waits just if it opens a surrogate pair, and then the width is
the full one. No unit stored opens a pair, and whatever is stored is a Unicode code point. Closing
the builder keeps the width and stores the surrogate that waits.
-/
theorem width_pending_appendEach (chunks : List Chunk) :
    let b := appendEach {} chunks
    let units := received chunks
    b.width = Width.ofUnits units ∧
      (∀ more, b.width ≤ (b.appendEach more).width) ∧
      (∀ u, b.pending = some u ↔ units.getLast? = some u ∧ Utf16.IsHigh u) ∧
      (b.pending.isSome → b.width = .point) ∧
      b.cells.IsPlain ∧
      (∀ c ∈ b.cells.toList, c.toNat ≤ 0x10FFFF) ∧
      b.build.width = b.width ∧
      b.build.cells.toList = b.cells.toList ++ b.pending.toList.map UInt16.toUInt32 := by
  intro b units
  have hb : b = pushAll {} units := appendEach_eq_pushAll ..
  have hholds : b.Holds units := holds_appendEach chunks
  refine ⟨?_, ?_, ?_, ?_, ?_, ?_, ?_, ?_⟩
  . rw [hb]
    apply width_pushAll_empty
  . intro more
    rw [b.appendEach_eq_pushAll]
    apply le_width_pushAll
  . intro u
    rw [hb]
    apply pending_pushAll_eq_some_iff
  . intro hpending
    obtain ⟨u, hu⟩ := Option.isSome_iff_exists.mp hpending
    exact hholds.width_of_pending u hu
  . rw [hb]
    apply isPlain_pushAll
    trivial
  . intro c hc
    exact Nat.le_of_lt_succ (hholds.toNat_lt_of_mem hc)
  . apply width_build
  . exact hholds.toList_build_eq_append

end Builder

end CodeBuffer

end Lookahead
