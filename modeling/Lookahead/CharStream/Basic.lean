import Lookahead.CodeBuffer.Builder
import Lookahead.Interval.Basic
import Lookahead.Position
import Lookahead.SymbolCursor

/-!
This module contains streams of code points. All of the text is there from the start, at a fixed
width, and only the cursor moves. The cursor may be put anywhere, also past the end, where all that
it finds is the end of the input.
-/

namespace Lookahead

structure CharStream where
  cells : Cells
  cursor : Nat := 0
  name : String := ""
  deriving DecidableEq, Repr

namespace CharStream

/--
The unread part of a buffer as a text of its own.
-/
def ofBuffer (b : CodeBuffer) (name : String) : CharStream where
  cells := b.unread
  name := name

def size (s : CharStream) : Nat := s.cells.size

def width (s : CharStream) : Width := s.cells.width

def sourceName (s : CharStream) : String := reportedName s.name

/--
A code point as a symbol. Symbols are signed, so the upper half of the 32-bit numbers has none.
-/
def symbol? (c : UInt32) : Option Int32 :=
  if c < 0x80000000 then some c.toInt32 else none

def symbolAt? (s : CharStream) (p : Nat) : Option Int32 := (s.cells.get? p).bind symbol?

def look (s : CharStream) (i : Int) : Int32 :=
  if i = 0 then
    Symbol.invalid
  else
    let distance := if 0 < i then i - 1 else i
    ((Position.offset? s.cursor distance).bind s.symbolAt?).getD Symbol.eof

def consume (s : CharStream) : Except Fault Unit × CharStream :=
  if s.size ≤ s.cursor then
    (.error .consumeEof, s)
  else
    (.ok (), { s with cursor := s.cursor + 1 })

def seek (s : CharStream) (p : Nat) : CharStream := { s with cursor := p }

def textIn (s : CharStream) (x : Interval) : String :=
  let requested := x.hi.toInt - x.lo.toInt + 1
  if x.lo < 0 ∨ requested < 0 then
    ""
  else
    let start := min x.lo.toInt.toNat s.size
    let length := min requested.toNat (s.size - start)
    (s.cells.extract start (start + length)).text

def text (s : CharStream) : String := (s.cells.extract 0 s.size).text

instance : SymbolCursor CharStream where
  consume := consume
  look s i := (s.look i, s)
  index s := s.cursor
  seek := seek
  size := size
  sourceName := sourceName

end CharStream

end Lookahead
