import Lookahead.Fault
import Lookahead.Symbol

/-!
This module contains what character streams and token streams have in common: a cursor over a
sequence of symbols that can look around itself and move anywhere. Positions count from 0. Lookahead
counts from 1, the symbol under the cursor, and backwards from -1, the symbol before it; 0 names no
position.
-/

namespace Lookahead

/--
A cursor over a sequence of symbols. A cursor over input that arrives on demand may fetch more of it
in any operation that returns a new cursor.
-/
class SymbolCursor (α : Type) where
  consume : α → Except Fault Unit × α
  look : α → Int → Int32 × α
  /-- A marker for the present position. Nothing is ever forgotten, so markers have no content. -/
  mark : α → Int := fun _ => 0
  release : α → Int → α := fun s _ => s
  index : α → Nat
  seek : α → Nat → α
  size : α → Nat
  sourceName : α → String

end Lookahead
