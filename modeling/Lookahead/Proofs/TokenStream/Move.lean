import Lookahead.Proofs.TokenStream.Run

/-!
This module contains the moves of streams over a source that ends. A step goes to the next index, by
way of the rule, as long as the stream is before the end of the input, and nowhere from there on.
-/

namespace Lookahead

namespace TokenStream

variable {σ τ μ : Type} [Token τ] [TokenSource σ τ] {rule : LandingRule σ τ μ}

theorem index_moveTo (s : TokenStream rule) (i : Nat) :
    (s.moveTo i).index = (rule.land s.memory s.tape i).index := rfl

section Step

variable {source : σ} {n : Nat} {s : TokenStream rule}

theorem Reachable.step_of_open (hs : Reachable rule source s)
    (hp : s.prime.index + 1 < Position.limit)
    (hopen : ∀ i ≤ s.prime.index, Token.isEof (TokenSource.nth source i) = false) :
    s.step = (s.prime.withTape (s.prime.tape.ensure (s.prime.index + 1))).moveTo
      (s.prime.index + 1) := by
  have hsize := hs.records_prime.lt_size_ensure (j := s.prime.index + 1)
    (fun i hi => hopen i (Nat.le_of_lt_succ hi)) hp
  rw [step_eq]
  rw [Position.succ_eq_of_lt (by omega)]
  dsimp only [Tape.reach]
  rw [Position.succ_eq_of_lt hp]
  rw [if_pos (decide_eq_true (Nat.succ_le_of_lt hsize))]

theorem Reachable.step_of_lt (hs : Reachable rule source s) (hn : TokenSource.EndsAt source n)
    (h : s.prime.index < n) :
    s.step = (s.prime.withTape (s.prime.tape.ensure (s.prime.index + 1))).moveTo
      (s.prime.index + 1) := by
  have hlimit := hn.lt_limit
  apply hs.step_of_open
  . omega
  . intro i hi
    exact hn.isEof_nth_of_lt i (by omega)

theorem Reachable.grows_step_of_le (hs : Reachable rule source s)
    (hn : TokenSource.EndsAt source n) (h : n ≤ s.prime.index) : s.prime.Grows s.step := by
  have hlimit := hn.lt_limit
  have hp : n < Position.succ s.prime.index := by
    simp only [Position.succ, Position.add]
    omega
  rw [step_eq]
  dsimp only
  rw [hs.records_prime.reach_fst hn]
  rw [if_neg (by simpa using hp)]
  exact grows_withTape (s.prime.tape.grows_ensure _)

end Step

/--
How many of the requests, made one after the other, are granted steps over a token.
-/
def consumed (s : TokenStream rule) : List (Request τ) → Nat
  | [] => 0
  | request :: rest =>
    match request, (s.answer request).1 with
    | .consume, .done => (s.answer request).2.consumed rest + 1
    | _, _ => (s.answer request).2.consumed rest

theorem consumed_cons_of_ne (s : TokenStream rule) {request : Request τ} (h : request ≠ .consume)
    (rest : List (Request τ)) :
    s.consumed (request :: rest) = (s.answer request).2.consumed rest := by
  cases request with
  | consume => exact absurd rfl h
  | _ => rfl

theorem answer_consume_of_ok {s t : TokenStream rule} (h : s.consume = (.ok (), t)) :
    s.answer .consume = (.done, t) := by
  simp [answer, h, Answer.ofExcept]

theorem answer_consume_of_error {s t : TokenStream rule} {fault : Fault}
    (h : s.consume = (.error fault, t)) : s.answer .consume = (.refused fault, t) := by
  simp [answer, h, Answer.ofExcept]

section Exact

variable {source : σ} {n : Nat} {s : TokenStream (LandingRule.exact (σ := σ) (τ := τ))}

theorem index_prime_of_exact : s.prime.index = s.index := by
  unfold prime index
  split
  . rfl
  . next h =>
    rw [h]
    rfl

theorem index_answer_of_exact {request : Request τ} (hc : request ≠ .consume)
    (hseek : ∀ i, request ≠ .seek i) : (s.answer request).2.index = s.index := by
  rcases s.grows_answer hc hseek with h | h
  . exact h.index_eq
  . rw [h.index_eq]
    exact index_prime_of_exact

theorem index_step_of_exact (hs : Reachable .exact source s) (hn : TokenSource.EndsAt source n) :
    s.step.index = if s.index < n then s.index + 1 else s.index := by
  have hp := index_prime_of_exact (s := s)
  split
  . next h =>
    rw [← hp] at h
    rw [hs.step_of_lt hn h]
    rw [← hp]
    rfl
  . next h =>
    rw [← hp] at h
    rw [(hs.grows_step_of_le hn (by omega)).index_eq]
    exact hp

/--
Landing exactly, a stream that never seeks is as many tokens on as it has taken steps, up to the end
of the input.
-/
theorem index_answers_of_exact (hs : Reachable .exact source s)
    (hn : TokenSource.EndsAt source n) {m : Nat} (hm : s.index = min m n)
    {requests : List (Request τ)} (hseek : ∀ i, .seek i ∉ requests) :
    (s.answers requests).2.index = min (m + s.consumed requests) n := by
  induction requests generalizing s m with
  | nil => exact hm
  | cons request rest ih =>
    have hrest : ∀ i, .seek i ∉ rest := fun i h => hseek i (List.mem_cons_of_mem _ h)
    by_cases hc : request = .consume
    . subst hc
      -- Whether the step is granted need not agree with the end of the input: the kinds may lie.
      rcases s.consume_cases with ⟨h, -⟩ | ⟨h, -⟩
      . have hstep : s.step.index = min (m + 1) n := by
          rw [index_step_of_exact hs hn]
          split <;> omega
        have hanswer := answer_consume_of_ok h
        have hreach := hs.answer .consume
        rw [hanswer] at hreach
        simp only [answers, consumed, hanswer]
        rw [ih hreach hstep hrest]
        dsimp only
        omega
      . have hlook := (s.grows_look 1).index_eq
        have hanswer := answer_consume_of_error h
        have hreach := hs.answer .consume
        rw [hanswer] at hreach
        simp only [answers, consumed, hanswer]
        apply ih hreach
        . rw [hlook]
          rw [index_prime_of_exact]
          exact hm
        . exact hrest
    . rw [consumed_cons_of_ne s hc]
      apply ih (hs.answer request)
      . rw [index_answer_of_exact hc]
        . exact hm
        . intro i h
          exact hseek i (h ▸ List.mem_cons_self ..)
      . exact hrest

end Exact

end TokenStream

end Lookahead
