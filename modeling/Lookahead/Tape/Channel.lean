import Lookahead.Tape.Basic

/-!
This module contains the search for tokens on a channel, in both directions. The end of the input
counts as being on every channel, so a search forward always ends.
-/

namespace Lookahead

namespace Tape

variable {σ τ : Type} [Token τ]

/--
The token is on the channel or is the end of the input.
-/
def isOn (channel : UInt32) (t : τ) : Bool := Token.channel t == channel || Token.isEof t

def lastOn? (c : Tape σ τ) (channel : UInt32) : Nat → Option Nat
  | 0 => if c.tokens[0]?.any (isOn channel) then some 0 else none
  | i + 1 => if c.tokens[i + 1]?.any (isOn channel) then some (i + 1) else c.lastOn? channel i

variable [TokenSource σ τ]

/--
The first index from `i` on with a token on the channel, or the index of the end of the input if `i`
lies past it. The tape advances as the search does.
-/
def nextOn (c : Tape σ τ) (i : Nat) (channel : UInt32) : Nat × Tape σ τ :=
  go (Position.limit - i) i (c.ensure i)
where
  go : Nat → Nat → Tape σ τ → Nat × Tape σ τ
    | room, i, c =>
      match c.tokens[i]? with
      | none => (c.size - 1, c)
      | some t =>
        if isOn channel t then
          (i, c)
        else
          match room with
          | 0 => (i, c)
          | room + 1 => go room (i + 1) (c.ensure (i + 1))

/--
The last index up to `i` with a token on the channel, if there is one, or the index of the end of
the input if `i` lies past it.
-/
def prevOn (c : Tape σ τ) (i : Nat) (channel : UInt32) : Option Nat × Tape σ τ :=
  let c := c.ensure i
  if i < c.size then (c.lastOn? channel i, c)
  else (if c.size = 0 then none else some (c.size - 1), c)

theorem nextOn.reaches_go (channel : UInt32) (room i : Nat) (c : Tape σ τ) :
    c.Reaches (go channel room i c).2 := by
  induction room generalizing i c with
  | zero =>
    unfold go
    split
    . exact .refl c
    . split <;> exact .refl c
  | succ room ih =>
    unfold go
    split
    . exact .refl c
    . split
      . exact .refl c
      . exact (c.reaches_ensure (i + 1)).trans (ih ..)

theorem reaches_nextOn (c : Tape σ τ) (i : Nat) (channel : UInt32) :
    c.Reaches (c.nextOn i channel).2 :=
  (c.reaches_ensure i).trans (nextOn.reaches_go ..)

theorem reaches_prevOn (c : Tape σ τ) (i : Nat) (channel : UInt32) :
    c.Reaches (c.prevOn i channel).2 := by
  unfold prevOn
  dsimp only
  split <;> exact c.reaches_ensure i

end Tape

end Lookahead
