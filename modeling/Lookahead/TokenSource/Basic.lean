import Lookahead.Token.Basic

/-!
This module contains the sources of tokens, such as lexers. A source is pulled for one token at a
time and never runs dry: after the end of the input it goes on giving out tokens for the end.
`TokenSource.nth` is the view of a source as the endless sequence of its tokens.
-/

namespace Lookahead

/--
A source of tokens.
-/
class TokenSource (σ : Type) (τ : outParam Type) where
  next : σ → τ × σ
  name : σ → String := fun _ => unknownSource

namespace TokenSource

variable {σ τ : Type} [TokenSource σ τ]

/--
The source after `n` pulls.
-/
def after : Nat → σ → σ
  | 0, s => s
  | n + 1, s => after n (next s).2

def nth (s : σ) (n : Nat) : τ := (next (after n s)).1

def take : Nat → σ → List τ
  | 0, _ => []
  | n + 1, s => (next s).1 :: take n (next s).2

theorem after_add (m n : Nat) (s : σ) : after (m + n) s = after n (after m s) := by
  induction m generalizing s with
  | zero => simp [after]
  | succ m ih => rw [Nat.add_right_comm]; exact ih _

theorem length_take (n : Nat) (s : σ) : (take n s).length = n := by
  induction n generalizing s with
  | zero => rfl
  | succ n ih => simp [take, ih]

end TokenSource

/--
A source that counts how often it is pulled.
-/
structure Counted (σ : Type) where
  source : σ
  pulls : Nat := 0

instance {σ τ : Type} [TokenSource σ τ] : TokenSource (Counted σ) τ where
  next s :=
    let (t, source) := TokenSource.next s.source
    (t, ⟨source, s.pulls + 1⟩)
  name s := TokenSource.name s.source

end Lookahead
