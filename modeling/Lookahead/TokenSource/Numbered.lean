import Lookahead.TokenSource.Basic

/-!
This module contains the source that makes up a given number of tokens, all alike but for their
number.
-/

namespace Lookahead

structure Numbered where
  total : Nat
  position : Nat := 0
  deriving DecidableEq, Repr

instance : TokenSource Numbered PlainToken where
  next s :=
    if s.position < s.total then
      let t : PlainToken :=
        { kind := Int32.ofNat (s.position + 1)
          text := "t" ++ toString s.position ++ " "
          index := Int32.ofNat s.position }
      (t, { s with position := s.position + 1 })
    else
      ({ PlainToken.eof with index := Int32.ofNat s.total }, s)

end Lookahead
