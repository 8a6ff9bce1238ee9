import Lookahead.Proofs.Interval.Overlap

/-!
This module contains what the hull of two intervals covers. Its bounds are always the tightest around the
bounds of both. Its members are the fewest that take in the members of both only as long as neither of
the two is empty: an empty interval has no members to take in, but the hull reaches for its bounds all
the same.
-/

namespace Lookahead

namespace Interval

instance : HasSubset Interval where
  Subset x y := ∀ i, i ∈ x → i ∈ y

/--
The interval `z` has the members of both `x` and `y`, and every other one that does has those of `z`.
-/
structure IsJoin (x y z : Interval) : Prop where
  left : x ⊆ z
  right : y ⊆ z
  least : ∀ w : Interval, x ⊆ w → y ⊆ w → z ⊆ w

section Bounds

variable {x y z : Interval}

theorem covers_iff_toInt :
    x.Covers y ↔ x.lo.toInt ≤ y.lo.toInt ∧ y.hi.toInt ≤ x.hi.toInt := by
  simp only [Covers, Int32.le_iff_toInt_le]

theorem Covers.refl (x : Interval) : x.Covers x := by
  rw [covers_iff_toInt]
  omega

theorem Covers.trans (h : x.Covers y) (h' : y.Covers z) : x.Covers z := by
  rw [covers_iff_toInt] at *
  omega

theorem covers_hull_iff : z.Covers (x.hull y) ↔ z.Covers x ∧ z.Covers y := by
  simp only [covers_iff_toInt, hull, toInt_min, toInt_max]
  omega

theorem hull_covers (x y : Interval) : (x.hull y).Covers x ∧ (x.hull y).Covers y :=
  covers_hull_iff.mp (Covers.refl _)

theorem Covers.length_eq_zero (h : x.Covers y) (hx : x.length = 0) : y.length = 0 := by
  rw [covers_iff_toInt] at h
  rw [length_eq_zero_iff_toInt] at *
  omega

end Bounds

section Members

variable {x y z : Interval}

theorem subset_refl (x : Interval) : x ⊆ x := fun _ h => h

theorem subset_of_length_eq_zero (h : x.length = 0) (y : Interval) : x ⊆ y := by
  intro i hi
  exact absurd hi (length_eq_zero_iff_forall.mp h i)

theorem subset_iff : x ⊆ y ↔ x.length = 0 ∨ y.Covers x := by
  constructor
  . intro h
    rw [Classical.or_iff_not_imp_left]
    intro hx
    rw [length_eq_zero_iff_toInt] at hx
    -- An interval that is not empty has both of its bounds as members.
    have hlo := h x.lo (mem_iff.mpr (by omega))
    have hhi := h x.hi (mem_iff.mpr (by omega))
    rw [mem_iff] at hlo hhi
    rw [covers_iff_toInt]
    exact ⟨hlo.1, hhi.2⟩
  . rintro (h | h)
    . exact subset_of_length_eq_zero h y
    . intro i hi
      rw [covers_iff_toInt] at h
      rw [mem_iff] at *
      omega

theorem subset_hull (x y : Interval) : x ⊆ x.hull y ∧ y ⊆ x.hull y :=
  ⟨subset_iff.mpr (Or.inr (hull_covers x y).1), subset_iff.mpr (Or.inr (hull_covers x y).2)⟩

theorem IsJoin.symm (h : IsJoin x y z) : IsJoin y x z :=
  ⟨h.right, h.left, fun w hy hx => h.least w hx hy⟩

/--
There is nothing to take in of an empty interval.
-/
theorem isJoin_iff_of_length_eq_zero (h : x.length = 0) : IsJoin x y z ↔ ∀ i, i ∈ z ↔ i ∈ y := by
  have hx := subset_of_length_eq_zero h
  constructor
  . intro hz i
    exact ⟨hz.least y (hx y) (subset_refl y) i, hz.right i⟩
  . intro hz
    exact ⟨hx z, fun i => (hz i).mpr, fun w _ hy i hi => hy i ((hz i).mp hi)⟩

/--
If the first interval is empty, only the second one has members for a join to take in.
-/
theorem IsJoin.covers_of_length_eq_zero (h : IsJoin x y z) (hz : z.length ≠ 0) (hx : x.length = 0) :
    y.Covers z := by
  have hsubset := h.least y (subset_of_length_eq_zero hx y) (subset_refl y)
  exact (subset_iff.mp hsubset).resolve_left hz

theorem isJoin_hull_of_covers (hx : x.length = 0 → y.Covers x) (hy : y.length = 0 → x.Covers y) :
    IsJoin x y (x.hull y) := by
  obtain ⟨hleft, hright⟩ := subset_hull x y
  refine ⟨hleft, hright, ?_⟩
  intro w hxw hyw
  rw [subset_iff] at *
  rcases hxw with hxw | hxw
  . rcases hyw with hyw | hyw
    . -- Two empty intervals that cover each other have the same bounds, and so has their hull.
      have hcovers := covers_hull_iff.mpr ⟨Covers.refl x, hy hyw⟩
      exact Or.inl (hcovers.length_eq_zero hxw)
    . exact Or.inr (covers_hull_iff.mpr ⟨hyw.trans (hx hxw), hyw⟩)
  . rcases hyw with hyw | hyw
    . exact Or.inr (covers_hull_iff.mpr ⟨hxw, hxw.trans (hy hyw)⟩)
    . exact Or.inr (covers_hull_iff.mpr ⟨hxw, hyw⟩)

theorem isJoin_hull_iff :
    IsJoin x y (x.hull y) ↔
      (x.hull y).length = 0 ∨ (x.length = 0 → y.Covers x) ∧ (y.length = 0 → x.Covers y) := by
  constructor
  . intro h
    rw [Classical.or_iff_not_imp_left]
    intro hhull
    constructor
    . intro hx
      exact (covers_hull_iff.mp (h.covers_of_length_eq_zero hhull hx)).1
    . intro hy
      exact (covers_hull_iff.mp (h.symm.covers_of_length_eq_zero hhull hy)).2
  . rintro (h | ⟨hx, hy⟩)
    . obtain ⟨hleft, hright⟩ := subset_hull x y
      exact ⟨hleft, hright, fun w _ _ => subset_of_length_eq_zero h w⟩
    . exact isJoin_hull_of_covers hx hy

end Members

/--
The hull has the members of both intervals, and an interval covers the hull just if it covers both. So
for intervals that are not empty, no interval with the members of both has less than the hull. If one
of the two is empty, what would be least is to have the members of the other one and no more. The hull
has no more just if it is empty itself or every empty one of the two has its bounds covered by the other.
-/
theorem hull_least_cover (x y : Interval) :
    x ⊆ x.hull y ∧ y ⊆ x.hull y ∧
      (∀ z : Interval, z.Covers (x.hull y) ↔ z.Covers x ∧ z.Covers y) ∧
      (x.length ≠ 0 → y.length ≠ 0 → IsJoin x y (x.hull y)) ∧
      (IsJoin x y (x.hull y) ↔
        (x.hull y).length = 0 ∨ (x.length = 0 → y.Covers x) ∧ (y.length = 0 → x.Covers y)) ∧
      (x.length = 0 → (IsJoin x y (x.hull y) ↔ ∀ i, i ∈ x.hull y ↔ i ∈ y)) ∧
      (y.length = 0 → (IsJoin x y (x.hull y) ↔ ∀ i, i ∈ x.hull y ↔ i ∈ x)) := by
  obtain ⟨hleft, hright⟩ := subset_hull x y
  refine ⟨hleft, hright, fun z => covers_hull_iff, ?_, isJoin_hull_iff, ?_, ?_⟩
  . intro hx hy
    exact isJoin_hull_of_covers (fun h => absurd h hx) (fun h => absurd h hy)
  . intro hx
    exact isJoin_iff_of_length_eq_zero hx
  . intro hy
    have hswap : IsJoin x y (x.hull y) ↔ IsJoin y x (x.hull y) := ⟨IsJoin.symm, IsJoin.symm⟩
    rw [hswap]
    exact isJoin_iff_of_length_eq_zero hy

/--
With the empty interval that stands for none, the hull has members that the other interval lacks.
-/
theorem not_isJoin_hull_invalid :
    let y : Interval := ⟨5, 9⟩
    invalid.length = 0 ∧ invalid.hull y = ⟨-1, 9⟩ ∧ 0 ∈ invalid.hull y ∧ 0 ∉ y ∧
      ¬IsJoin invalid y (invalid.hull y) := by
  intro y
  have hempty : invalid.length = 0 := by decide
  have hmem : 0 ∈ invalid.hull y := by decide
  have hmem' : 0 ∉ y := by decide
  refine ⟨hempty, by decide, hmem, hmem', ?_⟩
  intro h
  exact hmem' (h.least y (subset_of_length_eq_zero hempty y) (subset_refl y) 0 hmem)

end Interval

end Lookahead
