import Lookahead.Offset
import Lookahead.TokenSource.Basic

/-!
This module contains the source that gives out listed tokens just as they are, and then the end of
the input.
-/

namespace Lookahead

/--
A source of listed tokens, which may say themselves whether they are the end of the input.
-/
structure Listed where
  tokens : Array FlaggedToken
  position : Nat := 0
  deriving DecidableEq, Repr

instance : TokenSource Listed FlaggedToken where
  next s :=
    match s.tokens[s.position]? with
    | some t => (t, { s with position := s.position + 1 })
    | none =>
      let t : FlaggedToken :=
        { kind := Symbol.eof, text := "<EOF>", index := Offset.ofPosition s.tokens.size }
      (t, s)

end Lookahead
