import Lookahead.CharStream.Basic
import Lookahead.Interval.Shared

/-!
This module contains the requests that a character stream answers, as data, and the answers to a
whole sequence of them.
-/

namespace Lookahead

namespace CharStream

inductive Request where
  | consume
  | look (i : Int)
  | mark
  | release (marker : Int)
  | seek (p : Nat)
  | size
  | textIn (interval : Interval)
  | text
  deriving DecidableEq, Repr

inductive Answer where
  | done
  | refused (fault : Fault)
  | symbol (symbol : Int32)
  | marker (marker : Int)
  | count (n : Nat)
  | text (text : String)
  deriving DecidableEq, Repr

def answer (s : CharStream) : Request → Answer × CharStream
  | .consume =>
    match SymbolCursor.consume s with
    | (.ok (), s) => (.done, s)
    | (.error fault, s) => (.refused fault, s)
  | .look i => (.symbol (s.look i), s)
  | .mark => (.marker (SymbolCursor.mark s), s)
  | .release marker => (.done, SymbolCursor.release s marker)
  | .seek p => (.done, s.seek p)
  | .size => (.count s.size, s)
  | .textIn interval => (.text (s.textIn interval), s)
  | .text => (.text s.text, s)

/--
Answer a sequence of requests, each with the position of the cursor afterwards.
-/
def answers (s : CharStream) : List Request → List (Answer × Nat)
  | [] => []
  | request :: rest =>
    let (a, s) := s.answer request
    (a, s.cursor) :: s.answers rest

end CharStream

end Lookahead
