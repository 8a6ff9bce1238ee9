import Lookahead.Utf16.Decoding
import Lookahead.Utf16.Ring

/-!
This module contains the chunks in which text arrives. Text can be taken from a chunk only if its
units lie in one piece.
-/

namespace Lookahead

namespace Utf16

inductive Chunk where
  | flat (units : List UInt16)
  | ring (ring : Ring)
  /-- Units that never lie in one piece. -/
  | scattered
  deriving DecidableEq, Repr

namespace Chunk

/--
The units of a chunk, if they lie in one piece.
-/
def units? : Chunk → Option (List UInt16)
  | flat units => some units
  | ring r => r.flat?
  | scattered => none

def ofString (s : String) : Chunk := flat (Utf16.ofString s)

end Chunk

end Utf16

end Lookahead
