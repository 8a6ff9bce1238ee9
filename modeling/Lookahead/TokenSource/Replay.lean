import Lookahead.Offset
import Lookahead.TokenSource.Basic

/-!
This module contains the source that replays a list of tokens. It numbers the tokens as it goes, and
closes with the end of the input, placed after the last token of the list. A token of the list that
is itself the end of the input ends the replay early.
-/

namespace Lookahead

structure Replay where
  tokens : Array PlainToken
  position : Nat := 0
  name : String := ""
  deriving DecidableEq, Repr

namespace Replay

/--
The end of the input as the source gives it out.
-/
def endToken (s : Replay) : PlainToken :=
  let start := match s.tokens.back? with
    | some t => Offset.succ t.stop
    | none => 0
  { PlainToken.eof with
    index := Offset.ofPosition s.tokens.size
    start
    stop := Offset.pred start }

/--
The token to be replayed next, unless the replay is over.
-/
def current? (s : Replay) : Option PlainToken :=
  s.tokens[s.position]?.filter fun t => !Token.isEof t

instance : TokenSource Replay PlainToken where
  next s :=
    match s.current? with
    | some t =>
      ({ t with index := Offset.ofPosition s.position }, { s with position := s.position + 1 })
    | none => (s.endToken, s)
  name s := reportedName s.name

end Replay

end Lookahead
