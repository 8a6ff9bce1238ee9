import Lookahead.CodeBuffer.Cells

/-!
This module contains finished buffers of code points. A buffer has a read position, which never
lies past its end.
-/

namespace Lookahead

/--
Code points with a read position among them.
-/
structure CodeBuffer where
  cells : Cells
  position : Nat := 0
  position_le_size : position ≤ cells.size := by exact Nat.zero_le _
  deriving DecidableEq

namespace CodeBuffer

def size (b : CodeBuffer) : Nat := b.cells.size

def width (b : CodeBuffer) : Width := b.cells.width

def remaining (b : CodeBuffer) : Nat := b.size - b.position

/--
Move the read position to `position`, or to the end if that comes first.
-/
def setPosition (b : CodeBuffer) (position : Nat) : CodeBuffer where
  cells := b.cells
  position := min position b.cells.size
  position_le_size := Nat.min_le_right ..

def unread (b : CodeBuffer) : Cells := b.cells.extract b.position b.size

theorem position_add_remaining (b : CodeBuffer) : b.position + b.remaining = b.size := by
  have := b.position_le_size
  simp only [remaining, size]
  omega

@[simp]
theorem size_setPosition (b : CodeBuffer) (p : Nat) : (b.setPosition p).size = b.size := rfl

@[simp]
theorem position_setPosition (b : CodeBuffer) (p : Nat) :
    (b.setPosition p).position = min p b.size := rfl

end CodeBuffer

end Lookahead
