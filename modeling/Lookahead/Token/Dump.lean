import Lookahead.Token.Basic

/-!
This module contains the written form of tokens for people to read: index, offsets, text and kind in
one line, with the channel if it is not the standard one.
-/

namespace Lookahead

namespace PlainToken

/--
A character of a token's text in the written form, where the text must stay within one line.
-/
def escape : Char → List Char
  | '\n' => ['\\', 'n']
  | '\r' => ['\\', 'r']
  | '\t' => ['\\', 't']
  | c => [c]

/--
The text of a token in the written form.
-/
def escapedText (text : String) : String := String.ofList (text.toList.flatMap escape)

def channelPart (channel : UInt32) : String :=
  if channel = Channel.standard then "" else ",channel=" ++ toString channel.toNat

def dump (t : PlainToken) : String :=
  "[@" ++ toString t.index.toInt ++ "," ++ toString t.start.toInt ++ ":" ++ toString t.stop.toInt
    ++ "='" ++ escapedText t.text ++ "',<" ++ toString t.kind.toInt ++ ">" ++ channelPart t.channel
    ++ "]"

instance : ToString PlainToken := ⟨dump⟩

end PlainToken

end Lookahead
