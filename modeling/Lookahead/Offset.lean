/-!
This module contains the arithmetic of the signed 32-bit offsets and indices that tokens carry. A
result that does not fit stops at the nearest offset that does.
-/

namespace Lookahead

namespace Offset

/--
The offset of a position, or the largest offset if the position has none.
-/
def ofPosition (p : Nat) : Int32 := Int32.ofIntClamp p

/--
The offset after `o`; the largest offset is its own.
-/
def succ (o : Int32) : Int32 := Int32.ofIntClamp (o.toInt + 1)

def pred (o : Int32) : Int32 := Int32.ofIntClamp (o.toInt - 1)

theorem toInt_ofPosition {p : Nat} (h : p ≤ Int32.maxValue.toInt) : (ofPosition p).toInt = p := by
  apply Int32.toInt_ofIntClamp
  . exact Int.le_trans (by decide) (Int.natCast_nonneg p)
  . exact h

end Offset

end Lookahead
