import Lookahead.Event
import Lookahead.Position
import Lookahead.TokenSource.Basic

/-!
This module contains tapes: the tokens pulled from a source so far, kept in order and never dropped,
together with the source. Tokens are pulled only on demand, and never past the first one that is the
end of the input. All that ever happens to a tape is that it advances, which is what `Tape.Reaches`
says.
-/

namespace Lookahead

/--
The tokens pulled from a source.
-/
structure Tape (σ τ : Type) where
  source : σ
  tokens : Array τ := #[]
  exhausted : Bool := false
  journal : Array Event := #[]

namespace Tape

variable {σ τ : Type}

def size (c : Tape σ τ) : Nat := c.tokens.size

def note (c : Tape σ τ) (e : Event) : Tape σ τ := { c with journal := c.journal.push e }

/--
The tokens from index `start` to index `stop`, both included. There are none if `stop` is not on the
tape.
-/
def slice (c : Tape σ τ) (start stop : Nat) : List τ :=
  if stop < c.size then (c.tokens.extract start (stop + 1)).toList else []

variable [Token τ] [TokenSource σ τ]

def pullNext (c : Tape σ τ) : Tape σ τ :=
  let (t, source) := TokenSource.next c.source
  let tokens := c.tokens.push t
  if Token.isEof t then
    { source
      tokens
      exhausted := true
      journal := c.journal.push (.exhausted tokens.size (TokenSource.name source)) }
  else
    { c with source, tokens }

/--
The tape with the next `n` tokens of the source, or with all up to the end of the input if that
comes first.
-/
def advance : Nat → Tape σ τ → Tape σ τ
  | 0, c => c
  | n + 1, c => if c.exhausted then c else advance n c.pullNext

def pull (c : Tape σ τ) (n : Nat) : Nat × Tape σ τ :=
  let size := c.size
  let c := c.advance n
  (c.size - size, c)

def ensure (c : Tape σ τ) (i : Nat) : Tape σ τ := c.advance (Position.succ i - c.size)

def reach (c : Tape σ τ) (i : Nat) : Bool × Tape σ τ :=
  let c := c.ensure i
  (decide (Position.succ i ≤ c.size), c)

/--
The tape `d` comes from `c` by advancing.
-/
def Reaches (c d : Tape σ τ) : Prop := ∃ n, d = c.advance n

theorem tokens_pullNext (c : Tape σ τ) :
    c.pullNext.tokens = c.tokens.push (TokenSource.next c.source).1 := by
  unfold pullNext
  dsimp only
  split <;> rfl

theorem source_pullNext (c : Tape σ τ) :
    c.pullNext.source = (TokenSource.next c.source).2 := by
  unfold pullNext
  dsimp only
  split <;> rfl

theorem exhausted_pullNext (c : Tape σ τ) :
    c.pullNext.exhausted = (Token.isEof (TokenSource.next c.source).1 || c.exhausted) := by
  unfold pullNext
  dsimp only
  split <;> simp_all

theorem advance_of_exhausted {c : Tape σ τ} (h : c.exhausted) (n : Nat) : c.advance n = c := by
  cases n with
  | zero => rfl
  | succ n => simp [advance, h]

theorem advance_add (m n : Nat) (c : Tape σ τ) : c.advance (m + n) = (c.advance m).advance n := by
  induction m generalizing c with
  | zero => simp [advance]
  | succ m ih =>
    rw [Nat.add_right_comm]
    by_cases h : c.exhausted
    . simp only [advance_of_exhausted h]
    . simp only [advance, h, if_neg, Bool.false_eq_true, not_false_eq_true, ih]

theorem Reaches.refl (c : Tape σ τ) : c.Reaches c := ⟨0, rfl⟩

theorem Reaches.trans {c d e : Tape σ τ} (h₁ : c.Reaches d) (h₂ : d.Reaches e) : c.Reaches e := by
  obtain ⟨m, rfl⟩ := h₁
  obtain ⟨n, rfl⟩ := h₂
  exact ⟨m + n, (advance_add m n c).symm⟩

theorem reaches_advance (n : Nat) (c : Tape σ τ) : c.Reaches (c.advance n) := ⟨n, rfl⟩

theorem reaches_ensure (c : Tape σ τ) (i : Nat) : c.Reaches (c.ensure i) := reaches_advance ..

end Tape

end Lookahead
