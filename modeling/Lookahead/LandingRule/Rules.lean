import Lookahead.LandingRule.Basic

/-!
This module contains further rules for moves: some that only reckon with the index, and some that
search the tape.
-/

namespace Lookahead

namespace LandingRule

variable {σ τ : Type} [Token τ] [TokenSource σ τ]

def reckon (f : Nat → Nat) : LandingRule σ τ Unit where
  land m c i := ⟨f i, c, m⟩
  reaches_land _ c _ := .refl c

def skipOdd : LandingRule σ τ Unit := reckon fun i => if i % 2 = 1 then Position.succ i else i

def cap (n : Nat) : LandingRule σ τ Unit := reckon fun i => min i n

def add (n : Nat) : LandingRule σ τ Unit := reckon fun i => Position.add i n

/--
The tape after asking for `n` tokens again and again, until none comes or `room` is used up.
-/
def pullDry (n : Nat) : Nat → Tape σ τ → Tape σ τ
  | 0, c => c
  | room + 1, c =>
    let (fetched, c) := c.pull n
    if fetched = 0 then c else pullDry n room c

theorem reaches_pullDry (n room : Nat) (c : Tape σ τ) : c.Reaches (pullDry n room c) := by
  induction room generalizing c with
  | zero => exact .refl c
  | succ room ih =>
    unfold pullDry
    dsimp only
    split
    . exact Tape.reaches_advance n c
    . exact (Tape.reaches_advance n c).trans (ih _)

/--
The rule to land on the end of the input, for which it asks for `n` tokens at a time.
-/
def last (n : Nat) : LandingRule σ τ Unit where
  land m c _ :=
    let c := pullDry (max n 1) Position.limit c
    ⟨c.size - 1, c, m⟩
  reaches_land _ _ _ := reaches_pullDry ..

/--
The rule to go back to the last token on the channel, and nowhere if there is none.
-/
def previous (channel : UInt32) : LandingRule σ τ Unit where
  land m c i :=
    let (index, c) := c.prevOn i channel
    ⟨index.getD i, c, m⟩
  reaches_land _ c i := c.reaches_prevOn i channel

/--
The first index from `i` on whose token is not of the given kind, or the index after the last token.
The search makes at most `room` steps.
-/
def pastKind (kind : Int32) : Nat → Nat → Tape σ τ → Nat × Tape σ τ
  | room, i, c =>
    let (found, c) := c.reach i
    if found ∧ c.tokens[i]?.any (Token.kind · == kind) then
      match room with
      | 0 => (i, c)
      | room + 1 => pastKind kind room (i + 1) c
    else
      (i, c)

theorem reaches_pastKind (kind : Int32) (room i : Nat) (c : Tape σ τ) :
    c.Reaches (pastKind kind room i c).2 := by
  induction room generalizing i c with
  | zero =>
    unfold pastKind
    dsimp only
    split <;> exact c.reaches_ensure i
  | succ room ih =>
    unfold pastKind
    dsimp only
    split
    . exact (c.reaches_ensure i).trans (ih ..)
    . exact c.reaches_ensure i

def skipKind (kind : Int32) : LandingRule σ τ Unit where
  land m c i :=
    let (index, c) := pastKind kind (Position.limit - i) i c
    ⟨index, c, m⟩
  reaches_land _ _ _ := reaches_pastKind ..

end LandingRule

end Lookahead
