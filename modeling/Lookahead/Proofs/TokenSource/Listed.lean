import Lookahead.Proofs.TokenSource.Sequence
import Lookahead.TokenSource.Listed

/-!
This module contains the sequence of tokens that a source of listed tokens gives out: those of the
list, and from then on one and the same end of the input.
-/

namespace Lookahead

namespace Listed

open TokenSource (nth next)

/--
The end of the input that follows the list.
-/
def endToken (s : Listed) : FlaggedToken :=
  { kind := Symbol.eof, text := "<EOF>", index := Offset.ofPosition s.tokens.size }

theorem next_of_some {s : Listed} {t : FlaggedToken} (h : s.tokens[s.position]? = some t) :
    next s = (t, { s with position := s.position + 1 }) := by
  simp only [next]
  rw [h]

theorem next_of_none {s : Listed} (h : s.tokens[s.position]? = none) :
    next s = (s.endToken, s) := by
  simp only [next]
  rw [h]
  rfl

theorem nth_eq (s : Listed) (n : Nat) :
    nth s n = (s.tokens[s.position + n]?).getD s.endToken := by
  induction n generalizing s with
  | zero =>
    change (next s).1 = _
    cases h : s.tokens[s.position]? with
    | some t =>
      rw [next_of_some h]
      rfl
    | none =>
      rw [next_of_none h]
      rfl
  | succ n ih =>
    change nth (next s).2 n = _
    rw [ih]
    cases h : s.tokens[s.position]? with
    | some t =>
      rw [next_of_some h]
      dsimp only [endToken]
      rw [Nat.add_right_comm]
      rfl
    | none =>
      have hsize := Array.getElem?_eq_none_iff.mp h
      rw [next_of_none h]
      dsimp only
      rw [Array.getElem?_eq_none (by omega)]
      rw [Array.getElem?_eq_none (by omega)]

/--
The kinds of the tokens in the list decide on the whole source.
-/
theorem kindOfEof {s : Listed}
    (h : ∀ t ∈ s.tokens.toList, Token.isEof t = true → Token.kind t = Symbol.eof) :
    TokenSource.KindOfEof s := by
  intro n
  rw [nth_eq]
  cases ht : s.tokens[s.position + n]? with
  | some t => exact h t (Array.mem_toList_iff.mpr (Array.mem_of_getElem? ht))
  | none => exact fun _ => rfl

end Listed

end Lookahead
