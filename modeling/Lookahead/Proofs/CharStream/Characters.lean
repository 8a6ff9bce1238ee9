import Lookahead.Proofs.CharStream.Checked
import Lookahead.Proofs.CharStream.Pieces
import Lookahead.Proofs.CharStream.Room

/-!
This module contains streams on strings as a view of their characters. Each character is found under
its scalar value from wherever the cursor is, and one by one by those who look and consume.
-/

namespace Lookahead

namespace CharStream

open CodeBuffer (Allotment Builder byteLimit)
open SymbolCursor (place symbolAt)

section String

variable (s : String) (settings : CharSettings)

variable {s} (h : s.length ≤ Position.limit)

include h

end String

end CharStream

end Lookahead
