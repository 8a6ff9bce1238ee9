import Lookahead.Text.Quoted
import Lookahead.TokenStream.Basic

/-!
This module contains the inner state of a token stream in the form in which developers look at it:
records with named fields in braces, two points for what is left out.
-/

namespace Lookahead

namespace Inspection

/--
A record with the given fields in order. An open record has further fields that are not shown.
-/
def record (name : String) (fields : List (String × String)) (isOpen : Bool) : String :=
  let shown := fields.map fun (field, value) => field ++ ": " ++ value
  let all := if isOpen then shown ++ [".."] else shown
  name ++ " \x7b " ++ String.intercalate ", " all ++ " \x7d"

def list (values : List String) : String := "[" ++ String.intercalate ", " values ++ "]"

def option : Option String → String
  | some value => "Some(" ++ value ++ ")"
  | none => "None"

def truth : Bool → String
  | true => "true"
  | false => "false"

end Inspection

open Inspection

def PlainToken.inspect (t : PlainToken) : String :=
  record "CommonToken"
    [("token_type", toString t.kind.toInt), ("text", quoted t.text),
      ("channel", toString t.channel.toNat), ("token_index", toString t.index.toInt),
      ("start", toString t.start.toInt), ("stop", toString t.stop.toInt)]
    false

def Tape.inspect {σ τ : Type} (shown : τ → String) (c : Tape σ τ) : String :=
  record "TokenCache"
    [("tokens", list (c.tokens.toList.map shown)), ("fetched_eof", truth c.exhausted)]
    true

def TokenSettings.inspect (settings : TokenSettings) : String :=
  record "TokenStreamOptions" [("fill_chunk_size", toString settings.fillChunk)] false

def TokenStream.inspect {σ τ μ : Type} [Token τ] [TokenSource σ τ] {rule : LandingRule σ τ μ}
    (shown : τ → String) (s : TokenStream rule) : String :=
  record "BufferedTokenStream"
    [("cache", s.tape.inspect shown), ("p", option (s.cursor.map toString)),
      ("options", s.settings.inspect)]
    true

end Lookahead
