import Lookahead.LandingRule.Basic
import Lookahead.Settings
import Lookahead.SymbolCursor
import Lookahead.Tape.Drain

/-!
This module contains streams of tokens for a parser that may look ahead as far as it likes. Tokens
are pulled from their source only when they are needed, and kept, so the cursor can move anywhere. A
new stream has no cursor; the first operation that needs one primes the stream. Where the cursor
lands when it moves is up to a landing rule.
-/

namespace Lookahead

/--
A tape of tokens with a cursor that lands by `rule`.
-/
structure TokenStream {σ τ μ : Type} [Token τ] [TokenSource σ τ] (rule : LandingRule σ τ μ) where
  tape : Tape σ τ
  /-- The index of the token that the stream is on, once it is primed. -/
  cursor : Option Nat := none
  memory : μ
  settings : TokenSettings := {}

namespace TokenStream

variable {σ τ μ : Type} [Token τ] [TokenSource σ τ] {rule : LandingRule σ τ μ}

def ofSource (rule : LandingRule σ τ μ) (memory : μ) (source : σ) (settings : TokenSettings) :
    TokenStream rule where
  tape := { source }
  memory := memory
  settings := settings

def ofSource? (rule : LandingRule σ τ μ) (memory : μ) (source : Option σ)
    (settings : TokenSettings) : Except Fault (TokenStream rule) :=
  match source with
  | some source => .ok (ofSource rule memory source settings)
  | none => .error .missingSource

def size (s : TokenStream rule) : Nat := s.tape.size

def index (s : TokenStream rule) : Nat := s.cursor.getD 0

def sourceName (s : TokenStream rule) : String := TokenSource.name s.tape.source

def withTape (s : TokenStream rule) (tape : Tape σ τ) : TokenStream rule := { s with tape }

def moveTo (s : TokenStream rule) (i : Nat) : TokenStream rule :=
  let landing := rule.land s.memory s.tape i
  { s with tape := landing.tape, cursor := some landing.index, memory := landing.memory }

/--
Make sure that the stream has a cursor: a new one moves to the start of the tape.
-/
def prime (s : TokenStream rule) : TokenStream rule :=
  match s.cursor with
  | some _ => s
  | none => (s.withTape (s.tape.ensure 0)).moveTo 0

def seek (s : TokenStream rule) (i : Nat) : TokenStream rule := s.prime.moveTo i

def reach (s : TokenStream rule) (i : Nat) : Bool × TokenStream rule :=
  let (found, tape) := s.tape.reach i
  (found, s.withTape tape)

def pull (s : TokenStream rule) (n : Nat) : Nat × TokenStream rule :=
  let (fetched, tape) := s.tape.pull n
  (fetched, s.withTape tape)

def drain (s : TokenStream rule) : TokenStream rule :=
  let s := s.prime
  s.withTape (s.tape.drain (max s.settings.fillChunk 1))

def behind (s : TokenStream rule) (k : Nat) : Option τ × TokenStream rule :=
  let s := s.prime
  (if k = 0 ∨ s.index < k then none else s.tape.tokens[s.index - k]?, s)

/--
The token at a distance from the cursor: 1 is the one that the stream is on, -1 the one before it.
Past the end of the input there is nothing but the end of the input.
-/
def peek (s : TokenStream rule) (k : Int) : Option τ × TokenStream rule :=
  if 0 < k then
    let s := s.prime
    let i := Position.add s.index (k.toNat - 1)
    let tape := s.tape.ensure i
    (tape.tokens[i]?.or tape.tokens.back?, s.withTape tape)
  else
    s.behind k.natAbs

def look (s : TokenStream rule) (k : Int) : Int32 × TokenStream rule :=
  let (t, s) := s.peek k
  (match t with
    | some t => Token.kind t
    | none => Symbol.invalid, s)

/--
The tape shows that the stream is not on the end of the input. Once the end is on the tape it is the
last token; before that, no token on the tape is.
-/
def canStep (s : TokenStream rule) : Bool :=
  match s.cursor with
  | none => false
  | some p =>
    if s.tape.exhausted then decide (Position.succ p < s.size) else decide (p < s.size)

def step (s : TokenStream rule) : TokenStream rule :=
  let s := s.prime
  let (found, s) := s.reach (Position.succ s.index)
  if found then s.moveTo (Position.succ s.index) else s

/--
Step over the token that the stream is on, unless its kind is that of the end of the input.
-/
def consume (s : TokenStream rule) : Except Fault Unit × TokenStream rule :=
  if s.canStep then
    (.ok (), s.step)
  else
    let (symbol, s) := s.look 1
    if symbol = Symbol.eof then (.error .consumeEof, s) else (.ok (), s.step)

instance : SymbolCursor (TokenStream rule) where
  consume := consume
  look := look
  index := index
  seek := seek
  size := size
  sourceName := sourceName

end TokenStream

end Lookahead
