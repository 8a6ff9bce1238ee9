import Lookahead.Tape.Basic

/-!
This module contains the draining of a source: asking for chunks of tokens until one comes short.
-/

namespace Lookahead

namespace Tape

variable {σ τ : Type} [Token τ] [TokenSource σ τ]

/--
The tape with all that is left of the source, asked for in chunks of `chunk` tokens. Every round is
recorded; the first that brings less than asked for is the last.
-/
def drain (c : Tape σ τ) (chunk : Nat) : Tape σ τ := go Position.limit c
where
  go : Nat → Tape σ τ → Tape σ τ
    | 0, c => c
    | room + 1, c =>
      let (fetched, c) := c.pull chunk
      let c := c.note (.drained fetched c.size)
      if fetched < chunk then c else go room c

end Tape

end Lookahead
