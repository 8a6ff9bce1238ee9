import Lookahead.Position
import Lookahead.TokenSource.Basic

/-!
This module contains the view of a source as the endless sequence of its tokens: how the first
tokens, the source after them and the next token hang together, where the input of a source ends,
and when the kinds of its tokens tell the end.
-/

namespace Lookahead

namespace TokenSource

section Sequence

variable {σ τ : Type} [TokenSource σ τ]

theorem after_succ (n : Nat) (s : σ) : after (n + 1) s = (next (after n s)).2 := by
  rw [after_add]
  rfl

theorem take_succ (n : Nat) (s : σ) : take (n + 1) s = take n s ++ [nth s n] := by
  induction n generalizing s with
  | zero => rfl
  | succ n ih =>
    rw [take, ih]
    rfl

theorem getElem?_take (i n : Nat) (s : σ) :
    (take n s)[i]? = if i < n then some (nth s i) else none := by
  induction n with
  | zero => simp [take]
  | succ n ih =>
    rw [take_succ]
    rw [List.getElem?_append]
    rw [length_take]
    split
    . next h =>
      rw [ih]
      rw [if_pos h]
      rw [if_pos (by omega)]
    . next h =>
      by_cases hi : i = n
      . simp [hi]
      . rw [if_neg (by omega)]
        rw [List.getElem?_eq_none]
        simp only [List.length_singleton]
        omega

theorem drop_take {i n : Nat} (h : i < n) (s : σ) :
    (take n s).drop i = nth s i :: (take n s).drop (i + 1) := by
  rw [List.drop_eq_getElem?_toList_append]
  rw [getElem?_take]
  rw [if_pos h]
  rfl

theorem take_eq_map_range' (n : Nat) (s : σ) : take n s = (List.range' 0 n).map (nth s) := by
  induction n with
  | zero => rfl
  | succ n ih =>
    rw [take_succ]
    rw [ih]
    rw [List.range'_1_concat]
    simp

/--
A source that a pull leaves as it is gives out the same token for ever.
-/
theorem nth_of_next_eq_self {n : Nat} {s : σ} (h : (next (after n s)).2 = after n s) {i : Nat}
    (hi : n ≤ i) : nth s i = nth s n := by
  obtain ⟨k, rfl⟩ := Nat.exists_eq_add_of_le hi
  have hafter : after (n + k) s = after n s := by
    induction k with
    | zero => rfl
    | succ k ih =>
      rw [← Nat.add_assoc]
      rw [after_succ]
      rw [ih (Nat.le_add_right n k)]
      exact h
  unfold nth
  rw [hafter]

/--
Anything about a source that goes up by one with every pull has gone up by `n` after `n` pulls.
-/
theorem count_after {count : σ → Nat} (h : ∀ s, count (next s).2 = count s + 1) (n : Nat) (s : σ) :
    count (after n s) = count s + n := by
  induction n with
  | zero => rfl
  | succ n ih =>
    rw [after_succ]
    rw [h]
    omega

end Sequence

variable {σ τ : Type} [Token τ] [TokenSource σ τ]

/--
The token at position `n` is the first of the source that is the end of the input. The tokens up to
it, which a tape has to hold, are fewer than there are positions.
-/
structure EndsAt (s : σ) (n : Nat) : Prop where
  isEof_nth : Token.isEof (nth s n) = true
  isEof_nth_of_lt : ∀ i < n, Token.isEof (nth s i) = false
  lt_limit : n + 1 < Position.limit

/--
A token of the source is the end of the input just if its kind says so.
-/
def KindTells (s : σ) : Prop := ∀ n, Token.isEof (nth s n) ↔ Token.kind (nth s n) = Symbol.eof

/--
A token of the source that has the kind of the end of the input is the end.
-/
def EofOfKind (s : σ) : Prop :=
  ∀ n, Token.kind (nth s n) = Symbol.eof → Token.isEof (nth s n) = true

/--
A token of the source that is the end of the input has the kind of it.
-/
def KindOfEof (s : σ) : Prop :=
  ∀ n, Token.isEof (nth s n) = true → Token.kind (nth s n) = Symbol.eof

theorem kindTells_of_plain {σ : Type} [TokenSource σ PlainToken] (s : σ) : KindTells s := by
  intro n
  simp [Token.isEof, Token.kind]

theorem EndsAt.isEof_nth_min {s : σ} {n : Nat} (h : EndsAt s n) (i : Nat) :
    Token.isEof (nth s (min i n)) = decide (n ≤ i) := by
  by_cases hi : n ≤ i
  . rw [Nat.min_eq_right hi]
    rw [h.isEof_nth]
    simp [hi]
  . rw [Nat.min_eq_left (by omega)]
    rw [h.isEof_nth_of_lt i (by omega)]
    simp [hi]

theorem exists_endsAt {s : σ} {n : Nat} (h : Token.isEof (nth s n) = true)
    (hn : n + 1 < Position.limit) : ∃ m ≤ n, EndsAt s m := by
  induction n using Nat.strongRecOn with
  | ind n ih =>
    by_cases hfirst : ∃ i < n, Token.isEof (nth s i) = true
    . obtain ⟨i, hi, heof⟩ := hfirst
      obtain ⟨m, hm, hends⟩ := ih i hi heof (by omega)
      exact ⟨m, by omega, hends⟩
    . refine ⟨n, Nat.le_refl n, h, ?_, hn⟩
      intro i hi
      rw [← Bool.not_eq_true]
      exact fun heof => hfirst ⟨i, hi, heof⟩

/--
Whether a source has ended by a position is settled, unless the position is so far on that no source
without an end gets there.
-/
theorem endsAt_le_or {s : σ} {p : Nat} (h : p + 1 < Position.limit ∨ ∃ n, EndsAt s n) :
    (∃ n ≤ p, EndsAt s n) ∨
      p + 1 < Position.limit ∧ ∀ i ≤ p, Token.isEof (nth s i) = false := by
  by_cases hp : p + 1 < Position.limit
  . by_cases heof : ∃ i ≤ p, Token.isEof (nth s i) = true
    . obtain ⟨i, hi, heof⟩ := heof
      obtain ⟨n, hn, hends⟩ := exists_endsAt heof (by omega)
      exact .inl ⟨n, by omega, hends⟩
    . refine .inr ⟨hp, ?_⟩
      intro i hi
      rw [← Bool.not_eq_true]
      exact fun h => heof ⟨i, hi, h⟩
  . obtain ⟨n, hends⟩ := h.resolve_left hp
    have hlimit := hends.lt_limit
    exact .inl ⟨n, by omega, hends⟩

end TokenSource

end Lookahead
