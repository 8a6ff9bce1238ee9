/-!
This module contains the symbols that streams hand out in place of input, and the name of a source
that was given none.
-/

namespace Lookahead

namespace Symbol

/--
The symbol that lookahead finds outside the input.
-/
def eof : Int32 := -1

/--
The answer to a lookahead that names no position, and the kind of a token that is not there.
-/
def invalid : Int32 := 0

end Symbol

def unknownSource : String := "<unknown>"

/--
The name to report for a source called `name`; an empty name counts as none.
-/
def reportedName (name : String) : String :=
  if name.isEmpty then unknownSource else name

end Lookahead
