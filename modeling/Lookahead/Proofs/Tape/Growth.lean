import Lookahead.Proofs.TokenSource.Sequence
import Lookahead.Tape.Channel
import Lookahead.Tape.Drain

/-!
This module contains the growth of tapes. All that ever happens to a tape is that the next token of
its source comes to it, as long as the end of the input has not, and that an event is noted. So a
tape always holds the first tokens of its source, and the source has been pulled once for each.
-/

namespace Lookahead

namespace Tape

variable {σ τ : Type} [Token τ] [TokenSource σ τ]

/--
The tape `d` is what becomes of `c` when tokens are pulled and events are noted.
-/
inductive Grows (c : Tape σ τ) : Tape σ τ → Prop where
  | refl : Grows c c
  | pullNext {d : Tape σ τ} : Grows c d → d.exhausted = false → Grows c d.pullNext
  | note {d : Tape σ τ} (e : Event) : Grows c d → Grows c (d.note e)

theorem Grows.trans {c d e : Tape σ τ} (h₁ : c.Grows d) (h₂ : d.Grows e) : c.Grows e := by
  induction h₂ with
  | refl => exact h₁
  | pullNext _ h ih => exact ih.pullNext h
  | note e _ ih => exact ih.note e

theorem grows_advance (n : Nat) (c : Tape σ τ) : c.Grows (c.advance n) := by
  induction n generalizing c with
  | zero => exact .refl
  | succ n ih =>
    unfold advance
    split
    . exact .refl
    . next h =>
      apply Grows.trans
      . apply Grows.pullNext .refl
        simpa using h
      . apply ih

theorem Reaches.grows {c d : Tape σ τ} (h : c.Reaches d) : c.Grows d := by
  obtain ⟨n, rfl⟩ := h
  exact grows_advance n c

theorem grows_ensure (c : Tape σ τ) (i : Nat) : c.Grows (c.ensure i) := grows_advance ..

theorem drain.grows_go (chunk room : Nat) (c : Tape σ τ) : c.Grows (drain.go chunk room c) := by
  induction room generalizing c with
  | zero => exact .refl
  | succ room ih =>
    unfold drain.go
    dsimp only [pull]
    have h := (grows_advance chunk c).note
      (.drained ((c.advance chunk).size - c.size) (c.advance chunk).size)
    split
    . exact h
    . exact h.trans (ih _)

theorem grows_drain (c : Tape σ τ) (chunk : Nat) : c.Grows (c.drain chunk) := drain.grows_go ..

/--
The tape `d` goes on where `c` stops, and not at all if `c` stops at the end of the input.
-/
structure Extends (c d : Tape σ τ) : Prop where
  isPrefix : c.tokens.toList <+: d.tokens.toList
  tokens_eq_of_exhausted : c.exhausted = true → d.tokens = c.tokens
  source_eq_of_exhausted : c.exhausted = true → d.source = c.source
  exhausted_of_exhausted : c.exhausted = true → d.exhausted = true

theorem Grows.extends {c d : Tape σ τ} (h : c.Grows d) : c.Extends d := by
  induction h with
  | refl => exact ⟨List.prefix_refl _, fun _ => rfl, fun _ => rfl, id⟩
  | @pullNext d _ hd ih =>
    -- An exhausted `c` has an exhausted `d`, from which nothing is pulled.
    have hc : c.exhausted ≠ true := by
      intro hc
      have := ih.exhausted_of_exhausted hc
      simp [hd] at this
    constructor
    . rw [tokens_pullNext]
      rw [Array.toList_push]
      exact ih.isPrefix.trans (List.prefix_append _ _)
    . exact fun h => absurd h hc
    . exact fun h => absurd h hc
    . exact fun h => absurd h hc
  | note _ _ ih => exact ⟨ih.1, ih.2, ih.3, ih.4⟩

/--
The tape holds the first tokens of `source` and nothing else, and has pulled no more. The end of the
input can only be the last of them, and the tape knows whether it is.
-/
structure Records (source : σ) (c : Tape σ τ) : Prop where
  tokens_eq : c.tokens.toList = TokenSource.take c.size source
  source_eq : c.source = TokenSource.after c.size source
  isEof_eq_false : ∀ t ∈ c.tokens.toList.dropLast, Token.isEof t = false
  exhausted_eq : c.exhausted = c.tokens.toList.getLast?.any Token.isEof

theorem records_new (source : σ) : Records source ({ source } : Tape σ τ) := by
  constructor <;> simp [size, TokenSource.take, TokenSource.after]

theorem size_pullNext (c : Tape σ τ) : c.pullNext.size = c.size + 1 := by
  unfold size
  rw [tokens_pullNext]
  rw [Array.size_push]

theorem Grows.size_le {c d : Tape σ τ} (h : c.Grows d) : c.size ≤ d.size := by
  have hprefix := h.extends.isPrefix.length_le
  simpa [size] using hprefix

theorem Records.isEof_of_mem {source : σ} {c : Tape σ τ} (h : Records source c)
    (he : c.exhausted = false) : ∀ t ∈ c.tokens.toList, Token.isEof t = false := by
  intro t ht
  have hne := List.ne_nil_of_mem ht
  have hlast := h.exhausted_eq
  rw [he] at hlast
  rw [List.getLast?_eq_some_getLast hne] at hlast
  rw [← List.dropLast_concat_getLast hne] at ht
  rcases List.mem_append.mp ht with ht | ht
  . exact h.isEof_eq_false t ht
  . rw [List.mem_singleton] at ht
    rw [ht]
    simpa using hlast.symm

theorem Records.pullNext {source : σ} {c : Tape σ τ} (h : Records source c)
    (he : c.exhausted = false) : Records source c.pullNext := by
  have hnext : (TokenSource.next c.source).1 = TokenSource.nth source c.size := by
    rw [h.source_eq]
    rfl
  constructor
  . rw [size_pullNext]
    rw [tokens_pullNext]
    rw [Array.toList_push]
    rw [h.tokens_eq]
    rw [hnext]
    rw [TokenSource.take_succ]
  . rw [size_pullNext]
    rw [source_pullNext]
    rw [h.source_eq]
    rw [TokenSource.after_succ]
  . rw [tokens_pullNext]
    rw [Array.toList_push]
    rw [List.dropLast_concat]
    exact h.isEof_of_mem he
  . rw [exhausted_pullNext]
    rw [tokens_pullNext]
    simp [he]

theorem Records.grows {source : σ} {c d : Tape σ τ} (h : Records source c) (hg : c.Grows d) :
    Records source d := by
  induction hg with
  | refl => exact h
  | pullNext _ he ih => exact ih.pullNext he
  | note _ _ ih => exact ⟨ih.1, ih.2, ih.3, ih.4⟩

end Tape

end Lookahead
