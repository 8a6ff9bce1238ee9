import Lookahead.CharStream.Basic
import Lookahead.Offset
import Lookahead.Text.Blank
import Lookahead.TokenSource.Basic

/-!
This module contains a lexer that cuts a text into words and the blanks between them. Words are on
the standard channel and blanks on the hidden one, and together they are all of the text.
-/

namespace Lookahead

/--
A text that is cut into words.
-/
structure Words where
  input : CharStream
  count : Nat := 0
  deriving DecidableEq, Repr

namespace Words

def wordKind : Int32 := 1

def blankKind : Int32 := 2

/--
How many code points in a row, from position `p` on, are blank or are not, as `blank` says. At most
`room` code points are looked at.
-/
def runLength (cells : Cells) (blank : Bool) : Nat → Nat → Nat
  | 0, _ => 0
  | room + 1, p =>
    if (cells.get? p).any (isBlank · == blank) then runLength cells blank room (p + 1) + 1 else 0

theorem runLength_le (cells : Cells) (blank : Bool) (room p : Nat) :
    runLength cells blank room p ≤ room := by
  induction room generalizing p with
  | zero => exact Nat.le_refl 0
  | succ room ih =>
    unfold runLength
    split
    . exact Nat.succ_le_succ (ih _)
    . exact Nat.zero_le _

instance : TokenSource Words PlainToken where
  next s :=
    let start := s.input.cursor
    match s.input.cells.get? start with
    | none =>
      let t := { PlainToken.eof with
        index := Offset.ofPosition s.count
        start := Offset.ofPosition s.input.size
        stop := Offset.pred (Offset.ofPosition s.input.size) }
      (t, s)
    | some c =>
      let stop := start + runLength s.input.cells (isBlank c) (s.input.size - start) start
      let interval : Interval := ⟨Offset.ofPosition start, Offset.ofPosition (stop - 1)⟩
      let t : PlainToken :=
        { kind := if isBlank c then blankKind else wordKind
          text := s.input.textIn interval
          channel := if isBlank c then Channel.hidden else Channel.standard
          index := Offset.ofPosition s.count
          start := interval.lo
          stop := interval.hi }
      (t, { input := s.input.seek stop, count := s.count + 1 })
  name s := s.input.sourceName

end Words

end Lookahead
