import Lookahead.Tape.Channel

/-!
This module contains the rules that decide where a token stream lands when it moves to an index. A
rule may advance the tape to find out, and do nothing else to it. It may also keep a memory of its
own from one move to the next.
-/

namespace Lookahead

structure Landing (σ τ μ : Type) where
  index : Nat
  tape : Tape σ τ
  memory : μ

/--
A rule for moves, with memory of type `μ`.
-/
structure LandingRule (σ τ μ : Type) [Token τ] [TokenSource σ τ] where
  land : μ → Tape σ τ → Nat → Landing σ τ μ
  /-- All that a rule does to the tape is to advance it. -/
  reaches_land : ∀ (m : μ) (c : Tape σ τ) (i : Nat), c.Reaches (land m c i).tape

namespace LandingRule

variable {σ τ μ : Type} [Token τ] [TokenSource σ τ]

def exact : LandingRule σ τ Unit where
  land m c i := ⟨i, c, m⟩
  reaches_land _ c _ := .refl c

/--
The rule to go on to the next token on the channel.
-/
def onChannel (channel : UInt32) : LandingRule σ τ Unit where
  land m c i :=
    let (index, tape) := c.nextOn i channel
    ⟨index, tape, m⟩
  reaches_land _ c i := c.reaches_nextOn i channel

/--
The rule that does what `rule` does and remembers every index it is asked for, oldest first.
-/
def logged (rule : LandingRule σ τ μ) : LandingRule σ τ (μ × Array Nat) where
  land m c i :=
    let landing := rule.land m.1 c i
    ⟨landing.index, landing.tape, landing.memory, m.2.push i⟩
  reaches_land m c i := rule.reaches_land m.1 c i

end LandingRule

end Lookahead
