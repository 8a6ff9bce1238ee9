import Lookahead.Interval.Basic

/-!
This module contains when two intervals have members in common. Their overlap always tells. Whether they
are disjoint is told by their bounds alone, which is the same as long as neither of them is empty. The
bounds of an empty interval may lie within another one all the same, so disjointness misses some pairs
that have no members in common, and for some it depends on the order of the two.
-/

namespace Lookahead

namespace Interval

/--
No integer is a member of both intervals.
-/
def Apart (x y : Interval) : Prop := ∀ i, ¬(i ∈ x ∧ i ∈ y)

theorem toInt_max (a b : Int32) : (max a b).toInt = max a.toInt b.toInt := by
  change (if a ≤ b then b else a).toInt = _
  split
  . next h =>
    rw [Int32.le_iff_toInt_le] at h
    omega
  . next h =>
    rw [Int32.le_iff_toInt_le] at h
    omega

theorem toInt_min (a b : Int32) : (min a b).toInt = min a.toInt b.toInt := by
  change (if a ≤ b then a else b).toInt = _
  split
  . next h =>
    rw [Int32.le_iff_toInt_le] at h
    omega
  . next h =>
    rw [Int32.le_iff_toInt_le] at h
    omega

section Members

variable {x y : Interval}

theorem mem_overlap_iff {i : Int32} : i ∈ x.overlap y ↔ i ∈ x ∧ i ∈ y := by
  simp only [mem_iff, overlap, toInt_max, toInt_min]
  omega

theorem length_eq_zero_iff_toInt : x.length = 0 ↔ x.hi.toInt < x.lo.toInt := by
  rw [length_eq_zero_iff]
  rw [Int32.lt_iff_toInt_lt]

theorem length_eq_zero_iff_forall : x.length = 0 ↔ ∀ i, i ∉ x := by
  rw [length_eq_zero_iff_toInt]
  constructor
  . intro h i hi
    rw [mem_iff] at hi
    omega
  . intro h
    have hlo := h x.lo
    rw [mem_iff] at hlo
    omega

theorem apart_iff_length_overlap : x.Apart y ↔ (x.overlap y).length = 0 := by
  rw [length_eq_zero_iff_forall]
  unfold Apart
  simp only [mem_overlap_iff]

theorem disjoint_iff_toInt :
    x.Disjoint y ↔
      x.lo.toInt < y.lo.toInt ∧ x.hi.toInt < y.lo.toInt ∨ y.hi.toInt < x.lo.toInt := by
  unfold Disjoint Precedes Follows
  simp only [Int32.lt_iff_toInt_lt]

theorem length_overlap_iff :
    (x.overlap y).length = 0 ↔ x.length = 0 ∨ y.length = 0 ∨ x.Disjoint y := by
  simp only [length_eq_zero_iff_toInt, disjoint_iff_toInt, overlap, toInt_max, toInt_min]
  omega

/--
What is missed: an empty interval that starts within the second one, or has both bounds in the first.
-/
theorem disjoint_iff :
    x.Disjoint y ↔
      x.Apart y ∧ ¬(x.length = 0 ∧ x.lo ∈ y) ∧ ¬(y.length = 0 ∧ y.lo ∈ x ∧ y.hi ∈ x) := by
  rw [apart_iff_length_overlap]
  rw [length_overlap_iff]
  simp only [length_eq_zero_iff_toInt, disjoint_iff_toInt, mem_iff]
  omega

theorem disjoint_comm_iff :
    (x.Disjoint y ↔ y.Disjoint x) ↔
      ¬(x.length = 0 ∧ x.lo ∈ y ∧ x.hi ∉ y) ∧ ¬(y.length = 0 ∧ y.lo ∈ x ∧ y.hi ∉ x) := by
  simp only [length_eq_zero_iff_toInt, disjoint_iff_toInt, mem_iff]
  omega

end Members

/--
Two intervals have no member in common just if their overlap is empty, and that is so just if one of
them is empty or the first is disjoint from the second. So for intervals that are not empty being
disjoint is having no member in common, in either order. If one is empty, disjointness misses that
they have no member in common when the first is the empty one and starts within the second, and when
the second is the empty one and has both bounds in the first. It depends on the order when the empty
one starts within the other but does not stop there.
-/
theorem apart_iff (x y : Interval) :
    (x.Apart y ↔ (x.overlap y).length = 0) ∧
      (x.Apart y ↔ x.length = 0 ∨ y.length = 0 ∨ x.Disjoint y) ∧
      (x.length ≠ 0 → y.length ≠ 0 →
        (x.Disjoint y ↔ x.Apart y) ∧ (x.Disjoint y ↔ y.Disjoint x)) ∧
      (x.Disjoint y ↔
        x.Apart y ∧ ¬(x.length = 0 ∧ x.lo ∈ y) ∧ ¬(y.length = 0 ∧ y.lo ∈ x ∧ y.hi ∈ x)) ∧
      ((x.Disjoint y ↔ y.Disjoint x) ↔
        ¬(x.length = 0 ∧ x.lo ∈ y ∧ x.hi ∉ y) ∧ ¬(y.length = 0 ∧ y.lo ∈ x ∧ y.hi ∉ x)) := by
  refine ⟨apart_iff_length_overlap, ?_, ?_, disjoint_iff, disjoint_comm_iff⟩
  . rw [apart_iff_length_overlap]
    apply length_overlap_iff
  . intro hx hy
    constructor
    . rw [disjoint_iff]
      simp [hx, hy]
    . rw [disjoint_comm_iff]
      simp [hx, hy]

/--
Neither has a member in common with the other, but only the second is disjoint from the first.
-/
theorem not_disjoint_apart :
    let x : Interval := ⟨5, 2⟩
    let y : Interval := ⟨3, 9⟩
    ¬x.Disjoint y ∧ y.Disjoint x ∧ x.Apart y ∧ (x.overlap y).length = 0 := by
  intro x y
  have hlength : (x.overlap y).length = 0 := by decide
  exact ⟨by decide, by decide, apart_iff_length_overlap.mpr hlength, hlength⟩

end Interval

end Lookahead
