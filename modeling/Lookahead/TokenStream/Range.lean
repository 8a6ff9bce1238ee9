import Lookahead.Interval.Basic
import Lookahead.TokenStream.Basic

/-!
This module contains the questions about ranges of tokens: the tokens themselves, the trivia next to
a token, and the text. Trivia are the tokens that are not on the standard channel. Texts and ranges
stop before the end of the input.
-/

namespace Lookahead

/--
What covers an interval of tokens.
-/
class Spanned (κ : Type) where
  span : κ → Interval

instance : Spanned Interval where
  span x := x

namespace TokenStream

variable {σ τ μ : Type} [Token τ] [TokenSource σ τ] {rule : LandingRule σ τ μ}

/--
The tokens before the first that is the end of the input.
-/
def beforeEof (ts : List τ) : List τ := ts.takeWhile fun t => !Token.isEof t

def joinText (ts : List τ) : String := String.join ((beforeEof ts).map Token.text)

/--
The token is on the channel asked for or, if none is, on any but the standard channel.
-/
def isTrivia (channel : Option UInt32) (t : τ) : Bool :=
  match channel with
  | some channel => Token.channel t == channel
  | none => Token.channel t != Channel.standard

/--
The token at index `i`, if it is on the tape already.
-/
def get (s : TokenStream rule) (i : Int) : Except Fault τ :=
  match i.toNat?.bind fun i => s.tape.tokens[i]? with
  | some t => .ok t
  | none => .error (.indexOutOfRange i s.size)

/--
The tokens on the tape from index `start` to index `stop`, if neither is negative.
-/
def range (s : TokenStream rule) (start stop : Int) : Option (List τ) × TokenStream rule :=
  match start.toNat?, stop.toNat? with
  | some start, some stop =>
    let s := s.prime
    (if s.size = 0 then none
      else some (beforeEof (s.tape.slice start (min stop (s.size - 1)))), s)
  | _, _ => (none, s)

/--
The tokens on the tape from index `start` to index `stop` whose kind is one of `kinds`, or all of
them if no kinds are given.
-/
def select (s : TokenStream rule) (start stop : Nat) (kinds : Option (List Int32)) :
    Except Fault (List τ) × TokenStream rule :=
  let s := s.prime
  if s.size ≤ start ∨ s.size ≤ stop then
    (.error (.rangeOutOfRange start stop s.size), s)
  else
    let wanted (t : τ) : Bool :=
      match kinds with
      | some kinds => kinds.contains (Token.kind t)
      | none => true
    (.ok ((s.tape.slice start stop).filter wanted), s)

def nextOn (s : TokenStream rule) (i : Nat) (channel : UInt32) : Nat × TokenStream rule :=
  let (j, tape) := s.tape.nextOn i channel
  (j, s.withTape tape)

def prevOn (s : TokenStream rule) (i : Nat) (channel : UInt32) : Option Nat × TokenStream rule :=
  let (j, tape) := s.tape.prevOn i channel
  (j, s.withTape tape)

def outOfRange (s : TokenStream rule) (i : Nat) : Fault :=
  .indexOutOfRange (min i Position.offsetLimit : Nat) s.size

/--
The trivia after the token at index `i`, up to the next token on the standard channel.
-/
def triviaAfter (s : TokenStream rule) (i : Nat) (channel : Option UInt32) :
    Except Fault (List τ) × TokenStream rule :=
  let s := s.prime
  if s.size ≤ i then
    (.error (s.outOfRange i), s)
  else
    let (stop, s) := s.nextOn (i + 1) Channel.standard
    (.ok ((s.tape.slice (i + 1) stop).filter (isTrivia channel)), s)

/--
The trivia before the token at index `i`, back to the last token on the standard channel.
-/
def triviaBefore (s : TokenStream rule) (i : Nat) (channel : Option UInt32) :
    Except Fault (List τ) × TokenStream rule :=
  let s := s.prime
  if s.size ≤ i then
    (.error (s.outOfRange i), s)
  else if i = 0 then
    (.ok [], s)
  else
    let stop := i - 1
    let (previous, s) := s.prevOn stop Channel.standard
    if previous = some stop then
      (.ok [], s)
    else
      let start := match previous with
        | some p => p + 1
        | none => 0
      (.ok ((s.tape.slice start stop).filter (isTrivia channel)), s)

def text (s : TokenStream rule) : String × TokenStream rule :=
  let s := s.drain
  (joinText s.tape.tokens.toList, s)

def textIn (s : TokenStream rule) (x : Interval) : String × TokenStream rule :=
  match x.lo.toInt.toNat?, x.hi.toInt.toNat? with
  | some start, some stop =>
    let s := s.prime
    let s := s.withTape (s.tape.ensure stop)
    (joinText (s.tape.slice start (min stop (s.size - 1))), s)
  | _, _ => ("", s)

def textBetween (s : TokenStream rule) (start stop : Option τ) : String × TokenStream rule :=
  match start, stop with
  | some start, some stop => s.textIn ⟨Token.index start, Token.index stop⟩
  | _, _ => ("", s)

def textOf {κ : Type} [Spanned κ] (s : TokenStream rule) (context : κ) :
    String × TokenStream rule :=
  s.textIn (Spanned.span context)

end TokenStream

end Lookahead
