/-!
This module contains the arithmetic of stream positions. Positions are natural numbers up to
`Position.limit`; a sum that would pass the limit stops at it, so no position ever wraps around.
-/

namespace Lookahead

namespace Position

/--
The largest position, `2 ^ 64 - 1`.
-/
def limit : Nat := 18446744073709551615

/--
The largest distance between two positions that can be asked for, `2 ^ 63 - 1`.
-/
def offsetLimit : Nat := 9223372036854775807

/--
The position `n` after `p`, or the largest position if there is no such position.
-/
def add (p n : Nat) : Nat := min (p + n) limit

def succ (p : Nat) : Nat := add p 1

def offset? (p : Nat) (d : Int) : Option Nat :=
  let q := (p : Int) + d
  if 0 ≤ q ∧ q ≤ limit then some q.toNat else none

theorem add_le_limit (p n : Nat) : add p n ≤ limit := Nat.min_le_right ..

theorem succ_le_limit (p : Nat) : succ p ≤ limit := add_le_limit ..

theorem add_eq_of_le {p n : Nat} (h : p + n ≤ limit) : add p n = p + n := Nat.min_eq_left h

theorem succ_eq_of_lt {p : Nat} (h : p < limit) : succ p = p + 1 := add_eq_of_le h

theorem offset?_eq_some_iff {p q : Nat} {d : Int} :
    offset? p d = some q ↔ (p : Int) + d = q ∧ q ≤ limit := by
  simp only [offset?]
  split
  . simp only [Option.some.injEq]
    omega
  . simp only [reduceCtorEq, false_iff]
    omega

end Position

end Lookahead
