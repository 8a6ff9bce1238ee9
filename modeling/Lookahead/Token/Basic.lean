import Lookahead.Symbol

/-!
This module contains tokens: what a stream asks of them, and two kinds of them. Whether a token is
the end of the input is up to the token. Usually its kind tells, but a token may say otherwise.
-/

namespace Lookahead

namespace Channel

def standard : UInt32 := 0

def hidden : UInt32 := 1

end Channel

/--
What a stream asks of its tokens. Indices and offsets are -1 where they are not known.
-/
class Token (τ : Type) where
  kind : τ → Int32
  text : τ → String
  channel : τ → UInt32 := fun _ => Channel.standard
  index : τ → Int32
  start : τ → Int32 := fun _ => -1
  stop : τ → Int32 := fun _ => -1
  /-- The token is the end of the input. -/
  isEof : τ → Bool := fun t => kind t == Symbol.eof

structure PlainToken where
  kind : Int32
  text : String
  channel : UInt32 := Channel.standard
  index : Int32 := -1
  start : Int32 := -1
  stop : Int32 := -1
  deriving DecidableEq, Repr

namespace PlainToken

def eof : PlainToken where
  kind := Symbol.eof
  text := "<EOF>"

instance : Inhabited PlainToken := ⟨eof⟩

instance : Token PlainToken where
  kind := kind
  text := text
  channel := channel
  index := index
  start := start
  stop := stop

end PlainToken

structure FlaggedToken where
  kind : Int32
  text : String
  index : Int32 := -1
  /-- The token is the end of the input; if not given, its kind tells. -/
  eof? : Option Bool := none
  channel? : Option UInt32 := none
  deriving DecidableEq, Repr

namespace FlaggedToken

instance : Token FlaggedToken where
  kind := kind
  text := text
  channel t := t.channel?.getD Channel.standard
  index := index
  isEof t := t.eof?.getD (t.kind == Symbol.eof)

instance : ToString FlaggedToken := ⟨text⟩

end FlaggedToken

end Lookahead
