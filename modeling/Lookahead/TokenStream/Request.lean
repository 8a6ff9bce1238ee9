import Lookahead.TokenStream.Range

/-!
This module contains the requests that a token stream answers, as data, and the answers to a whole
sequence of them.
-/

namespace Lookahead

namespace TokenStream

inductive Request (τ : Type) where
  | consume
  | look (k : Int)
  | peek (k : Int)
  | behind (k : Nat)
  | mark
  | release (marker : Int)
  | seek (i : Nat)
  | reach (i : Nat)
  | pull (n : Nat)
  | drain
  | get (i : Int)
  | range (start stop : Int)
  | select (start stop : Nat) (kinds : Option (List Int32))
  | nextOn (i : Nat) (channel : UInt32)
  | prevOn (i : Nat) (channel : UInt32)
  | triviaAfter (i : Nat) (channel : Option UInt32)
  | triviaBefore (i : Nat) (channel : Option UInt32)
  | text
  | textIn (interval : Interval)
  | textBetween (start stop : Option τ)
  deriving DecidableEq, Repr

inductive Answer (τ : Type) where
  | done
  | refused (fault : Fault)
  | symbol (symbol : Int32)
  | token (token : Option τ)
  | tokens (tokens : Option (List τ))
  | marker (marker : Int)
  | truth (b : Bool)
  | count (n : Nat)
  | index (i : Option Nat)
  | text (text : String)
  deriving DecidableEq, Repr

def Answer.ofExcept {τ α : Type} (granted : α → Answer τ) : Except Fault α → Answer τ
  | .ok a => granted a
  | .error fault => .refused fault

variable {σ τ μ : Type} [Token τ] [TokenSource σ τ] {rule : LandingRule σ τ μ}

def answer (s : TokenStream rule) : Request τ → Answer τ × TokenStream rule
  | .consume => s.consume.map (.ofExcept fun _ => .done) id
  | .look k => (s.look k).map .symbol id
  | .peek k => (s.peek k).map .token id
  | .behind k => (s.behind k).map .token id
  | .mark => (.marker (SymbolCursor.mark s), s)
  | .release marker => (.done, SymbolCursor.release s marker)
  | .seek i => (.done, s.seek i)
  | .reach i => (s.reach i).map .truth id
  | .pull n => (s.pull n).map .count id
  | .drain => (.done, s.drain)
  | .get i => (.ofExcept (.token ∘ some) (s.get i), s)
  | .range start stop => (s.range start stop).map .tokens id
  | .select start stop kinds => (s.select start stop kinds).map (.ofExcept (.tokens ∘ some)) id
  | .nextOn i channel => (s.nextOn i channel).map (.index ∘ some) id
  | .prevOn i channel => (s.prevOn i channel).map .index id
  | .triviaAfter i channel => (s.triviaAfter i channel).map (.ofExcept (.tokens ∘ some)) id
  | .triviaBefore i channel => (s.triviaBefore i channel).map (.ofExcept (.tokens ∘ some)) id
  | .text => s.text.map .text id
  | .textIn interval => (s.textIn interval).map .text id
  | .textBetween start stop => (s.textBetween start stop).map .text id

def answers (s : TokenStream rule) : List (Request τ) → List (Answer τ) × TokenStream rule
  | [] => ([], s)
  | request :: rest =>
    let (a, s) := s.answer request
    let (as, s) := s.answers rest
    (a :: as, s)

end TokenStream

end Lookahead
