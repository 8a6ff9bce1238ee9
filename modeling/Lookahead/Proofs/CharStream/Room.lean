import Lookahead.Proofs.CharStream.Opening
import Lookahead.Proofs.CodeBuffer.Width

/-!
This module contains how much room a string takes. All of its units come at once, so after that there
is no need to grow, and the room asked for is known from the room at first, the number of units and the
width that they need.
-/

namespace Lookahead

namespace CodeBuffer

namespace Allotment

section Units

variable {a : Allotment} (hroom : a.capacity * a.builder.width.bytes ≤ byteLimit)

include hroom

end Units

section Empty

variable (capacity count : Nat)

end Empty

end Allotment

end CodeBuffer

namespace CharStream

open CodeBuffer (Allotment Builder byteLimit)

end CharStream

end Lookahead
