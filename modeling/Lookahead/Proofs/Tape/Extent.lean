import Lookahead.Proofs.Tape.Growth

/-!
This module contains how far tapes reach when the source ends: how many tokens are on a tape after a
request for some, which they are, and what there is past the last of them.
-/

namespace Lookahead

namespace Tape

variable {σ τ : Type} [Token τ] [TokenSource σ τ]

theorem size_advance_le (n : Nat) (c : Tape σ τ) : (c.advance n).size ≤ c.size + n := by
  induction n generalizing c with
  | zero => exact Nat.le_refl _
  | succ n ih =>
    unfold advance
    split
    . omega
    . have := ih c.pullNext
      rw [size_pullNext] at this
      omega

theorem size_advance_of_not_exhausted {c : Tape σ τ} {n : Nat}
    (h : (c.advance n).exhausted = false) : (c.advance n).size = c.size + n := by
  induction n generalizing c with
  | zero => rfl
  | succ n ih =>
    unfold advance at h ⊢
    split at h
    . simp_all
    . next he =>
      rw [if_neg he]
      rw [ih h]
      rw [size_pullNext]
      omega

/--
Asking for a token and then for one further on is asking for the latter.
-/
theorem ensure_ensure {i j : Nat} (h : i ≤ j) (c : Tape σ τ) : (c.ensure i).ensure j = c.ensure j := by
  have hij : Position.succ i ≤ Position.succ j := by
    simp only [Position.succ, Position.add]
    omega
  generalize hm : Position.succ i - c.size = m
  have hc : c.ensure i = c.advance m := by
    rw [ensure]
    rw [hm]
  have hj : Position.succ j - c.size = m + (Position.succ j - c.size - m) := by omega
  unfold ensure at hc ⊢
  rw [hc]
  rw [hj]
  rw [advance_add]
  -- At the end of the input neither request pulls, before it the first has got all it asked for.
  cases he : (c.advance m).exhausted with
  | true =>
    rw [advance_of_exhausted he]
    rw [advance_of_exhausted he]
  | false =>
    rw [size_advance_of_not_exhausted he]
    congr 1
    omega

theorem reach_ensure {i j : Nat} (h : i ≤ j) (c : Tape σ τ) : (c.ensure i).reach j = c.reach j := by
  unfold reach
  rw [ensure_ensure h]

theorem ensure_of_lt {c : Tape σ τ} {i : Nat} (h : i < c.size) : c.ensure i = c := by
  have hmissing : Position.succ i - c.size = 0 := by
    simp only [Position.succ, Position.add]
    omega
  unfold ensure
  rw [hmissing]
  rfl

/--
The tape has a token at index `i`, or there are no more to come.
-/
def Covers (c : Tape σ τ) (i : Nat) : Prop := i < c.size ∨ c.exhausted = true

theorem covers_ensure (c : Tape σ τ) {i : Nat} (hlimit : i < Position.limit) :
    (c.ensure i).Covers i := by
  cases he : (c.ensure i).exhausted with
  | true => exact .inr he
  | false =>
    have hsize : (c.ensure i).size = c.size + (Position.succ i - c.size) :=
      size_advance_of_not_exhausted he
    rw [Position.succ_eq_of_lt hlimit] at hsize
    apply Or.inl
    omega

theorem Covers.grows {c d : Tape σ τ} {i : Nat} (h : c.Covers i) (hg : c.Grows d) : d.Covers i := by
  rcases h with h | h
  . exact .inl (Nat.lt_of_lt_of_le h hg.size_le)
  . exact .inr (hg.extends.exhausted_of_exhausted h)

namespace Records

section Contents

variable {source : σ} {c : Tape σ τ}

theorem getElem?_tokens (h : Records source c) (i : Nat) :
    c.tokens[i]? = if i < c.size then some (TokenSource.nth source i) else none := by
  rw [← Array.getElem?_toList]
  rw [h.tokens_eq]
  rw [TokenSource.getElem?_take]

theorem getElem?_of_lt (h : Records source c) {i : Nat} (hi : i < c.size) :
    c.tokens[i]? = some (TokenSource.nth source i) := by
  rw [h.getElem?_tokens]
  exact if_pos hi

theorem back?_tokens (h : Records source c) (hc : 0 < c.size) :
    c.tokens.back? = some (TokenSource.nth source (c.size - 1)) := by
  rw [Array.back?_eq_getElem?]
  rw [h.getElem?_tokens]
  rw [if_pos]
  . rfl
  . unfold size at hc ⊢
    omega

theorem slice_eq (h : Records source c) {start stop : Nat} (hstop : stop < c.size) :
    c.slice start stop =
      (List.range' start (stop + 1 - start)).map (TokenSource.nth source) := by
  unfold slice
  rw [if_pos hstop]
  apply List.ext_getElem?
  intro i
  rw [Array.getElem?_toList]
  rw [Array.getElem?_extract]
  rw [h.getElem?_tokens]
  rw [List.getElem?_map]
  unfold size at hstop ⊢
  by_cases hi : i < stop + 1 - start
  . rw [if_pos (by omega)]
    rw [if_pos (by omega)]
    rw [List.getElem?_range' hi]
    simp
  . rw [if_neg (by omega)]
    rw [List.getElem?_eq_none]
    . rfl
    . rw [List.length_range']
      omega

theorem isEof_nth_of_lt (h : Records source c) {i : Nat} (hi : i + 1 < c.size) :
    Token.isEof (TokenSource.nth source i) = false := by
  apply h.isEof_eq_false
  rw [List.mem_iff_getElem?]
  refine ⟨i, ?_⟩
  rw [List.getElem?_dropLast]
  rw [if_pos]
  . rw [Array.getElem?_toList]
    rw [h.getElem?_tokens]
    rw [if_pos (by omega)]
  . simp only [Array.length_toList]
    unfold size at hi
    omega

theorem exhausted_eq_isEof (h : Records source c) (hc : 0 < c.size) :
    c.exhausted = Token.isEof (TokenSource.nth source (c.size - 1)) := by
  rw [h.exhausted_eq]
  rw [Array.getLast?_toList]
  rw [h.back?_tokens hc]
  rfl

/--
A tape that has come to the end of the input goes further than where the end is not.
-/
theorem lt_size_of_exhausted (h : Records source c) (he : c.exhausted = true) {j : Nat}
    (hj : ∀ i < j, Token.isEof (TokenSource.nth source i) = false) : j < c.size := by
  have hc : c.size ≠ 0 := by
    intro hzero
    rw [h.exhausted_eq] at he
    rw [h.tokens_eq] at he
    simp [hzero, TokenSource.take] at he
  rw [h.exhausted_eq_isEof (by omega)] at he
  rw [← Nat.not_le]
  intro hle
  have := hj (c.size - 1) (by omega)
  rw [he] at this
  contradiction

theorem lt_size_of_covers (h : Records source c) {j : Nat} (hc : c.Covers j)
    (hj : ∀ i < j, Token.isEof (TokenSource.nth source i) = false) : j < c.size := by
  rcases hc with hc | hc
  . exact hc
  . exact h.lt_size_of_exhausted hc hj

theorem lt_size_ensure (h : Records source c) {j : Nat}
    (hj : ∀ i < j, Token.isEof (TokenSource.nth source i) = false) (hlimit : j < Position.limit) :
    j < (c.ensure j).size := by
  apply (h.grows (grows_ensure c j)).lt_size_of_covers _ hj
  apply c.covers_ensure hlimit

end Contents

variable {source : σ} {n : Nat} {c : Tape σ τ}

theorem size_le (h : Records source c) (hn : TokenSource.EndsAt source n) : c.size ≤ n + 1 := by
  rw [← Nat.not_lt]
  intro hlt
  have := h.isEof_nth_of_lt hlt
  rw [hn.isEof_nth] at this
  contradiction

theorem exhausted_eq_decide (h : Records source c) (hn : TokenSource.EndsAt source n) :
    c.exhausted = decide (c.size = n + 1) := by
  have hle := h.size_le hn
  by_cases hc : c.size = 0
  . rw [h.exhausted_eq]
    rw [h.tokens_eq]
    simp [hc, TokenSource.take]
  . rw [h.exhausted_eq_isEof (by omega)]
    by_cases hs : c.size = n + 1
    . simp [hs, hn.isEof_nth]
    . rw [hn.isEof_nth_of_lt _ (by omega)]
      simp [hs]

theorem size_of_exhausted (h : Records source c) (hn : TokenSource.EndsAt source n)
    (he : c.exhausted = true) : c.size = n + 1 := by
  rw [h.exhausted_eq_decide hn] at he
  apply of_decide_eq_true he

theorem size_advance (h : Records source c) (hn : TokenSource.EndsAt source n) (m : Nat) :
    (c.advance m).size = min (c.size + m) (n + 1) := by
  have hd := h.grows (grows_advance m c)
  have hle := hd.size_le hn
  have hadd := size_advance_le m c
  cases he : (c.advance m).exhausted with
  | false =>
    have := size_advance_of_not_exhausted he
    omega
  | true =>
    have := hd.size_of_exhausted hn he
    omega

theorem size_ensure (h : Records source c) (hn : TokenSource.EndsAt source n) (i : Nat) :
    (c.ensure i).size = max c.size (min (i + 1) (n + 1)) := by
  have hle := h.size_le hn
  have hlimit := hn.lt_limit
  unfold ensure
  rw [h.size_advance hn]
  simp only [Position.succ, Position.add]
  omega

theorem reach_fst (h : Records source c) (hn : TokenSource.EndsAt source n) (i : Nat) :
    (c.reach i).1 = decide (i ≤ n) := by
  have hlimit := hn.lt_limit
  unfold reach
  dsimp only
  rw [h.size_ensure hn]
  have hle := h.size_le hn
  rw [decide_eq_decide]
  simp only [Position.succ, Position.add]
  omega

/--
With the tape advanced towards index `i`, the token there is the one at `i` in the source, or the
end of the input if that comes first.
-/
theorem lookup_ensure (h : Records source c) (hn : TokenSource.EndsAt source n) (i : Nat) :
    (c.ensure i).tokens[i]?.or (c.ensure i).tokens.back? =
      some (TokenSource.nth source (min i n)) := by
  have hd := h.grows (grows_ensure c i)
  have hsize := h.size_ensure hn i
  have hle := hd.size_le hn
  rw [hd.getElem?_tokens]
  split
  . next hi =>
    rw [Nat.min_eq_left (by omega)]
    rfl
  . next hi =>
    have hend : (c.ensure i).size = n + 1 := by omega
    rw [hd.back?_tokens (by omega)]
    rw [hend]
    rw [Nat.min_eq_right (by omega)]
    rfl

end Records

end Tape

end Lookahead
