import Lookahead.Position

/-!
This module contains the arithmetic of positions and of the distances between them, with every step
checked that is not defined everywhere. A step has no result if there is no such position or distance.
-/

namespace Lookahead

namespace Position

/--
The position after `p`, if there is one.
-/
def checkedSucc (p : Nat) : Option Nat := if p < limit then some (p + 1) else none

/--
The position before `p`, if there is one.
-/
def checkedPred (p : Nat) : Option Nat := if 0 < p then some (p - 1) else none

/--
The position `n` after `p`, if there is one.
-/
def checkedAdd (p n : Nat) : Option Nat := if p + n ≤ limit then some (p + n) else none

/--
The position `n` before `p`, if there is one.
-/
def checkedSub (p n : Nat) : Option Nat := if n ≤ p then some (p - n) else none

/--
The distance `d`, if it is one that can be asked for.
-/
def checkedDistance (d : Int) : Option Int :=
  if -offsetLimit - 1 ≤ d ∧ d ≤ offsetLimit then some d else none

/--
The distance before `d`, if there is one.
-/
def checkedPredDistance (d : Int) : Option Int :=
  if -offsetLimit - 1 < d then some (d - 1) else none

theorem checkedSucc_of_lt {p : Nat} (h : p < limit) : checkedSucc p = some (p + 1) := if_pos h

theorem checkedPred_of_pos {p : Nat} (h : 0 < p) : checkedPred p = some (p - 1) := if_pos h

theorem checkedAdd_of_le {p n : Nat} (h : p + n ≤ limit) : checkedAdd p n = some (p + n) := if_pos h

theorem checkedDistance_of_le {d : Int} (h : -offsetLimit - 1 ≤ d) (h' : d ≤ offsetLimit) :
    checkedDistance d = some d := if_pos ⟨h, h'⟩

/--
Bounds of 32 bits are never too far apart.
-/
theorem checkedDistance_of_narrow {d : Int} (h : -0x100000000 ≤ d) (h' : d ≤ 0x100000000) :
    checkedDistance d = some d := by
  apply checkedDistance_of_le <;>
  . unfold offsetLimit
    omega

theorem checkedPredDistance_of_pos {d : Int} (h : 0 < d) : checkedPredDistance d = some (d - 1) :=
  if_pos (Int.lt_trans (by decide) h)

theorem checkedSub_of_le {p n : Nat} (h : n ≤ p) : checkedSub p n = some (p - n) := if_pos h

end Position

end Lookahead
