/-!
This module contains closed intervals of 32-bit integers, which address the symbols of a stream.
An interval whose bounds are in descending order has no members.
-/

namespace Lookahead

/--
The integers from `lo` to `hi`, both included; there are none if `hi < lo`.
-/
structure Interval where
  lo : Int32
  hi : Int32
  deriving DecidableEq, Repr, Hashable

namespace Interval

def invalid : Interval := ⟨-1, -2⟩

instance : Inhabited Interval := ⟨invalid⟩

def Contains (x : Interval) (i : Int32) : Prop := x.lo ≤ i ∧ i ≤ x.hi

instance : Membership Int32 Interval where
  mem := Contains

instance (x : Interval) (i : Int32) : Decidable (i ∈ x) :=
  inferInstanceAs (Decidable (x.lo ≤ i ∧ i ≤ x.hi))

def length (x : Interval) : Nat := (x.hi.toInt - x.lo.toInt + 1).toNat

/--
The interval `x` lies before `y`: both of its bounds lie before `y` starts.
-/
def Precedes (x y : Interval) : Prop := x.lo < y.lo ∧ x.hi < y.lo

/--
The interval `x` starts after `y` stops.
-/
def Follows (x y : Interval) : Prop := y.hi < x.lo

def Disjoint (x y : Interval) : Prop := x.Precedes y ∨ x.Follows y

/--
One interval starts right where the other stops, without gap or overlap.
-/
def Adjacent (x y : Interval) : Prop :=
  x.lo.toInt = y.hi.toInt + 1 ∨ x.hi.toInt = y.lo.toInt - 1

/--
The bounds of `y` lie between the bounds of `x`.
-/
def Covers (x y : Interval) : Prop := x.lo ≤ y.lo ∧ y.hi ≤ x.hi

instance (x y : Interval) : Decidable (x.Precedes y) :=
  inferInstanceAs (Decidable (_ ∧ _))

instance (x y : Interval) : Decidable (x.Follows y) :=
  inferInstanceAs (Decidable (_ < _))

instance (x y : Interval) : Decidable (x.Disjoint y) :=
  inferInstanceAs (Decidable (_ ∨ _))

instance (x y : Interval) : Decidable (x.Adjacent y) :=
  inferInstanceAs (Decidable (_ ∨ _))

instance (x y : Interval) : Decidable (x.Covers y) :=
  inferInstanceAs (Decidable (_ ∧ _))

def hull (x y : Interval) : Interval := ⟨min x.lo y.lo, max x.hi y.hi⟩

def overlap (x y : Interval) : Interval := ⟨max x.lo y.lo, min x.hi y.hi⟩

def display (x : Interval) : String := s!"{x.lo.toInt}..{x.hi.toInt}"

theorem mem_iff {x : Interval} {i : Int32} :
    i ∈ x ↔ x.lo.toInt ≤ i.toInt ∧ i.toInt ≤ x.hi.toInt := by
  simp [Membership.mem, Contains, Int32.le_iff_toInt_le]

theorem length_eq_zero_iff {x : Interval} : x.length = 0 ↔ x.hi < x.lo := by
  simp only [length, Int32.lt_iff_toInt_lt]
  omega

end Interval

end Lookahead
