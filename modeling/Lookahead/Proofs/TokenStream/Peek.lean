import Lookahead.LandingRule.Rules
import Lookahead.Proofs.TokenStream.Move
import Lookahead.TokenSource.Numbered

/-!
This module contains what lookahead finds: the token of the source at the distance asked for, or the
end of the input ahead of it, and nothing behind the start. What is on the tape already makes no
difference to what lies ahead.
-/

namespace Lookahead

namespace TokenStream

variable {σ τ μ : Type} [Token τ] [TokenSource σ τ] {rule : LandingRule σ τ μ}

/--
The token at distance `k` from position `p` in a source that ends at `n`. Backwards only the first
`size` tokens count.
-/
def tokenAt (source : σ) (n p size : Nat) (k : Int) : Option τ :=
  if 0 < k then
    some (TokenSource.nth source (min (p + k - 1) n).toNat)
  else if k < 0 ∧ 0 ≤ p + k ∧ p + k < size then
    some (TokenSource.nth source (p + k).toNat)
  else
    none

section Distance

variable {source : σ} {n : Nat} {s : TokenStream rule}

theorem Reachable.peek_of_pos (hs : Reachable rule source s) (hn : TokenSource.EndsAt source n)
    {k : Int} (hk : 0 < k) :
    (s.peek k).1 = some (TokenSource.nth source (min (s.prime.index + k - 1) n).toNat) := by
  have hlimit := hn.lt_limit
  have hi : (min (s.prime.index + k - 1) n).toNat =
      min (Position.add s.prime.index (k.toNat - 1)) n := by
    simp only [Position.add]
    omega
  unfold peek
  rw [if_pos hk]
  rw [hi]
  exact hs.records_prime.lookup_ensure hn _

theorem Reachable.behind_fst (hs : Reachable rule source s) (k : Nat) :
    (s.behind k).1 =
      if 0 < k ∧ k ≤ s.prime.index ∧ s.prime.index - k < s.prime.size then
        some (TokenSource.nth source (s.prime.index - k))
      else
        none := by
  unfold behind
  dsimp only
  rw [hs.records_prime.getElem?_tokens]
  by_cases hk : k = 0 ∨ s.prime.index < k
  . rw [if_pos hk]
    rw [if_neg (by omega)]
  . rw [if_neg hk]
    unfold size
    split
    . rw [if_pos (by omega)]
    . rw [if_neg (by omega)]

theorem Reachable.peek_fst (hs : Reachable rule source s) (hn : TokenSource.EndsAt source n)
    (k : Int) : (s.peek k).1 = tokenAt source n s.prime.index s.prime.size k := by
  unfold tokenAt
  split
  . next hk => exact hs.peek_of_pos hn hk
  . next hk =>
    unfold peek
    rw [if_neg hk]
    rw [hs.behind_fst]
    have hnat : s.prime.index - k.natAbs = (s.prime.index + k).toNat := by omega
    split
    . rw [if_pos (by omega)]
      rw [hnat]
    . rw [if_neg (by omega)]

theorem Reachable.look_fst (hs : Reachable rule source s) (hn : TokenSource.EndsAt source n)
    (k : Int) :
    (s.look k).1 =
      ((tokenAt source n s.prime.index s.prime.size k).map Token.kind).getD Symbol.invalid := by
  rw [← hs.peek_fst hn]
  unfold look
  dsimp only
  cases (s.peek k).1 <;> rfl

end Distance

/--
Over a source that ends, lookahead finds the token of the source at the distance asked for in every
state of every stream. For a stream that lands exactly and never seeks, that distance counts from
the number of steps it took.
-/
theorem peek_eq_tokenAt {source : σ} {n : Nat} (hn : TokenSource.EndsAt source n) :
    (∀ (μ : Type) (rule : LandingRule σ τ μ) (s : TokenStream rule), Reachable rule source s →
      ∀ k : Int,
        (s.peek k).1 = tokenAt source n s.prime.index s.prime.size k ∧
        (s.look k).1 =
          ((tokenAt source n s.prime.index s.prime.size k).map Token.kind).getD
            Symbol.invalid) ∧
      ∀ (settings : TokenSettings) (requests : List (Request τ)), (∀ i, .seek i ∉ requests) →
        let s := ofSource .exact () source settings
        ∀ k : Int, 0 < k →
          ((s.answers requests).2.peek k).1 =
            some (TokenSource.nth source (min (s.consumed requests + k - 1) n).toNat) := by
  constructor
  . intro μ rule s hs k
    exact ⟨hs.peek_fst hn k, hs.look_fst hn k⟩
  . intro settings requests hseek s k hk
    have hs : Reachable .exact source s := .ofSource () settings
    have hindex : (s.answers requests).2.index = min (s.consumed requests) n := by
      rw [index_answers_of_exact hs hn (m := 0) (Nat.zero_min n).symm hseek]
      rw [Nat.zero_add]
    have hmin : (min ((min (s.consumed requests) n : Nat) + k - 1) (n : Int)).toNat =
        (min (s.consumed requests + k - 1) (n : Int)).toNat := by omega
    rw [(hs.answers requests).peek_of_pos hn hk]
    rw [index_prime_of_exact]
    rw [hindex]
    rw [hmin]

theorem peek_eq_tokenAt_limit :
    TokenSource.EndsAt (⟨3, 0⟩ : Numbered) 3 ∧
      ((ofSource (.add Position.limit) () (⟨3, 0⟩ : Numbered) {}).peek 2).1 =
        some { PlainToken.eof with index := 3 } ∧
      (((ofSource .exact () (⟨3, 0⟩ : Numbered) {}).answers
        [.pull 2, .consume, .look 2, .consume]).2.peek 1).1 =
        some { kind := 3, text := "t2 ", index := 2 } := by
  have hn : TokenSource.EndsAt (⟨3, 0⟩ : Numbered) 3 := by
    constructor <;> decide
  obtain ⟨hpeek, hcount⟩ := peek_eq_tokenAt hn
  refine ⟨hn, ?_, ?_⟩
  . rw [(hpeek _ _ _ (.ofSource () {}) 2).1]
    decide
  . rw [hcount {} _ (by simp) 1 (by decide)]
    decide

end TokenStream

end Lookahead
