/-!
This module contains the ways in which a request to a buffer or a stream can fail. A request that
merely runs past the end of the input is answered with less and is no fault.
-/

namespace Lookahead

inductive Fault where
  /-- The next symbol is the end of the input, which cannot be consumed. -/
  | consumeEof
  /-- A token was asked for by an index outside the `size` tokens fetched so far. -/
  | indexOutOfRange (index : Int) (size : Nat)
  /-- A range of tokens has a bound outside the `size` tokens fetched so far. -/
  | rangeOutOfRange (start stop size : Nat)
  /-- A token stream was set up without a source. -/
  | missingSource
  /-- A chunk of text does not lie in one piece. -/
  | notContiguous
  deriving DecidableEq, Repr

namespace Fault

def message : Fault → String
  | consumeEof => "cannot consume EOF"
  | indexOutOfRange index size => s!"token index {index} out of range 0..{size}"
  | rangeOutOfRange start stop size => s!"token range {start}..={stop} out of range 0..{size}"
  | missingSource => "token source cannot be absent"
  | notContiguous => "UTF-16 input is not contiguous"

end Fault

end Lookahead
