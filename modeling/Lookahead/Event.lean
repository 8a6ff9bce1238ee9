import Lookahead.CodeBuffer.Width

/-!
This module contains the events that buffers and streams record in their journals, in the order in
which they happen.
-/

namespace Lookahead

inductive Level where
  | trace
  | debug
  deriving DecidableEq, Repr

def Level.name : Level → String
  | trace => "TRACE"
  | debug => "DEBUG"

/--
Something worth recording.
-/
inductive Event where
  /-- A builder that held `size` code points went from one width to a wider one. -/
  | promoted (source target : Width) (size : Nat)
  /-- A builder was closed; `dangling` says that its text ended within a surrogate pair. -/
  | built (width : Width) (size : Nat) (dangling : Bool)
  /-- One round of draining a token source brought `fetched` tokens, which makes `size` in all. -/
  | drained (fetched size : Nat)
  /-- The end of the token source called `source` was reached as the last of `size` tokens. -/
  | exhausted (size : Nat) (source : String)
  deriving DecidableEq, Repr

namespace Event

def level : Event → Level
  | promoted .. => .trace
  | built .. => .debug
  | drained .. => .trace
  | exhausted .. => .debug

def message : Event → String
  | promoted .. => "promoting code point buffer"
  | built .. => "built code point buffer"
  | drained .. => "fill round"
  | exhausted .. => "token source exhausted"

end Event

end Lookahead
