/-!
This module contains the settings of character streams and token streams.
-/

namespace Lookahead

structure CharSettings where
  sourceName : Option String := none
  /--
  How many code points to make room for at first. No answer of a stream depends on it, but there is no
  stream if an array cannot have that much room.
  -/
  initialCapacity : Option Nat := none
  deriving DecidableEq, Repr, Inhabited

def defaultFillChunk : Nat := 1000

structure TokenSettings where
  /-- How many tokens a round of draining asks for; none counts as one. -/
  fillChunk : Nat := defaultFillChunk
  deriving DecidableEq, Repr, Inhabited

end Lookahead
