import Mathlib
import Lookahead.Proofs.Interval.Overlap
import Lookahead.Proofs.Position.Checked

/-!
This module contains what the length of an interval counts, and how the lengths of two intervals, of
their hull and of their overlap are tied together. Bounds are measured in 64 bits: with every step
checked, the lengths and the adjacency of 32-bit bounds come out the same.
-/

namespace Lookahead

namespace Interval

section Operations

variable (x y : Interval)

def checkedLength : Option Nat :=
  if x.hi < x.lo then
    some 0
  else
    do
      let reach ← Position.checkedDistance (x.hi.toInt - x.lo.toInt)
      let count ← Position.checkedDistance (reach + 1)
      Position.offset? 0 count

def checkedAdjacent : Option Bool := do
  let next ← Position.checkedDistance (y.hi.toInt + 1)
  if x.lo.toInt = next then
    return true
  else
    let last ← Position.checkedDistance (y.lo.toInt - 1)
    return x.hi.toInt = last

/--
How many integers lie between two intervals that are not empty, after the one and before the other.
-/
def gap : Nat := (max x.lo.toInt y.lo.toInt - min x.hi.toInt y.hi.toInt - 1).toNat

end Operations

section Checks

variable (x y : Interval)

theorem checkedLength_eq : x.checkedLength = some x.length := by
  have hlo := x.lo.le_toInt
  have hlo' := x.lo.toInt_lt
  have hhi := x.hi.le_toInt
  have hhi' := x.hi.toInt_lt
  unfold checkedLength
  split
  . next h =>
    rw [length_eq_zero_iff.mpr h]
  . next h =>
    rw [Int32.lt_iff_toInt_lt] at h
    rw [Position.checkedDistance_of_narrow (by omega) (by omega)]
    dsimp only [bind, Option.bind]
    rw [Position.checkedDistance_of_narrow (by omega) (by omega)]
    dsimp only
    rw [Position.offset?_eq_some_iff]
    unfold length Position.limit
    omega

theorem checkedAdjacent_eq : x.checkedAdjacent y = some (decide (x.Adjacent y)) := by
  have hlo := y.lo.le_toInt
  have hlo' := y.lo.toInt_lt
  have hhi := y.hi.le_toInt
  have hhi' := y.hi.toInt_lt
  unfold checkedAdjacent
  rw [Position.checkedDistance_of_narrow (by omega) (by omega)]
  dsimp only [bind, Option.bind]
  split
  . next h =>
    have hadjacent : x.Adjacent y := Or.inl h
    rw [decide_eq_true hadjacent]
    rfl
  . next h =>
    have hadjacent : x.Adjacent y ↔ x.hi.toInt = y.lo.toInt - 1 := or_iff_right h
    rw [Position.checkedDistance_of_narrow (by omega) (by omega)]
    rw [decide_eq_decide.mpr hadjacent]
    rfl

end Checks

section Counting

variable {x y : Interval}

/--
The members of an interval, as integers, are those from one bound to the other.
-/
theorem image_toInt_members (x : Interval) :
    Int32.toInt '' {i | i ∈ x} = (Finset.Icc x.lo.toInt x.hi.toInt : Set Int) := by
  ext n
  rw [Finset.mem_coe]
  rw [Finset.mem_Icc]
  constructor
  . rintro ⟨i, hi, rfl⟩
    exact mem_iff.mp hi
  . intro hn
    have hlo := x.lo.le_toInt
    have hhi := x.hi.toInt_lt
    have hround : (Int32.ofInt n).toInt = n := by
      apply Int32.toInt_ofInt_of_le <;> omega
    refine ⟨Int32.ofInt n, ?_, hround⟩
    apply mem_iff.mpr
    rw [hround]
    exact hn

theorem encard_members (x : Interval) : Set.encard {i | i ∈ x} = x.length := by
  have hinj : Function.Injective Int32.toInt := fun _ _ => Int32.toInt.inj
  rw [← hinj.encard_image]
  rw [image_toInt_members]
  rw [Set.encard_coe_eq_coe_finsetCard]
  rw [Int.card_Icc]
  unfold length
  congr 2
  omega

theorem length_le (x : Interval) : x.length ≤ 2 ^ 32 := by
  have hlo := x.lo.le_toInt
  have hhi := x.hi.toInt_lt
  unfold length
  omega

theorem length_eq_two_pow_iff : x.length = 2 ^ 32 ↔ x = ⟨Int32.minValue, Int32.maxValue⟩ := by
  have hlo := x.lo.le_toInt
  have hhi := x.hi.toInt_lt
  rw [Interval.mk.injEq]
  rw [← Int32.toInt_inj]
  rw [← Int32.toInt_inj]
  rw [Int32.toInt_minValue]
  rw [Int32.toInt_maxValue]
  unfold length
  omega

theorem adjacent_comm : x.Adjacent y ↔ y.Adjacent x := by
  unfold Adjacent
  omega

theorem length_hull_add_length_overlap (hx : x.length ≠ 0) (hy : y.length ≠ 0) :
    (x.hull y).length + (x.overlap y).length = x.length + y.length + x.gap y := by
  rw [Ne, length_eq_zero_iff_toInt] at hx hy
  simp only [length, gap, hull, overlap, toInt_max, toInt_min]
  omega

theorem gap_eq_zero_iff (hx : x.length ≠ 0) (hy : y.length ≠ 0) :
    x.gap y = 0 ↔ x.Adjacent y ∨ ¬x.Disjoint y := by
  rw [Ne, length_eq_zero_iff_toInt] at hx hy
  rw [disjoint_iff_toInt]
  unfold gap Adjacent
  omega

end Counting

/--
The length of an interval is the number of its members: none if its bounds are in descending order, all
of the 32-bit integers if its bounds are the outermost ones, and never too many to be worked out. The
members of the overlap are those that the two have in common, and being adjacent does not depend on the
order of the two. The lengths of the hull and of the overlap of two intervals that are not empty add up
to the lengths of the two just if there is nothing between them, and to more if there is.
-/
theorem length_counts (x y : Interval) :
    (Set.encard {i | i ∈ x} = x.length ∧ (x.length = 0 ↔ x.hi < x.lo) ∧ x.length ≤ 2 ^ 32 ∧
        (x.length = 2 ^ 32 ↔ x = ⟨Int32.minValue, Int32.maxValue⟩) ∧
        x.checkedLength = some x.length) ∧
      (∀ i, i ∈ x.overlap y ↔ i ∈ x ∧ i ∈ y) ∧
      ((x.Adjacent y ↔ y.Adjacent x) ∧ x.checkedAdjacent y = some (decide (x.Adjacent y))) ∧
      (x.length ≠ 0 → y.length ≠ 0 →
        ((x.hull y).length + (x.overlap y).length = x.length + y.length ↔
            x.Adjacent y ∨ ¬x.Disjoint y) ∧
          (¬(x.Adjacent y ∨ ¬x.Disjoint y) →
            x.length + y.length < (x.hull y).length + (x.overlap y).length)) := by
  refine ⟨?_, fun i => mem_overlap_iff, ⟨adjacent_comm, x.checkedAdjacent_eq y⟩, ?_⟩
  . exact ⟨encard_members x, length_eq_zero_iff, length_le x, length_eq_two_pow_iff, x.checkedLength_eq⟩
  . intro hx hy
    rw [length_hull_add_length_overlap hx hy]
    rw [← gap_eq_zero_iff hx hy]
    omega

/--
The negative integers and the others: adjacent halves of all there are. Without the integer in between,
the two lengths fall short of the hull by one.
-/
theorem length_counts_halves :
    let x : Interval := ⟨Int32.minValue, -1⟩
    let y : Interval := ⟨0, Int32.maxValue⟩
    let z : Interval := ⟨1, Int32.maxValue⟩
    x.length ≠ 0 ∧ y.length ≠ 0 ∧ z.length ≠ 0 ∧ Set.encard {i | i ∈ x.hull y} = (2 ^ 32 : Nat) ∧
      (x.hull y).length + (x.overlap y).length = x.length + y.length ∧
      x.length + z.length < (x.hull z).length + (x.overlap z).length := by
  intro x y z
  have hx : x.length ≠ 0 := by decide
  have hy : y.length ≠ 0 := by decide
  have hz : z.length ≠ 0 := by decide
  have hwhole : (x.hull y).length = 2 ^ 32 := by decide
  obtain ⟨⟨hcount, -⟩, -⟩ := length_counts (x.hull y) y
  obtain ⟨-, -, -, hadjacent⟩ := length_counts x y
  obtain ⟨-, -, -, happart⟩ := length_counts x z
  refine ⟨hx, hy, hz, ?_, ?_, ?_⟩
  . rw [hcount]
    rw [hwhole]
  . exact (hadjacent hx hy).1.mpr (by decide)
  . exact (happart hx hz).2 (by decide)

end Interval

end Lookahead
