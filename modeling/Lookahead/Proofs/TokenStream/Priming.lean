import Lookahead.Proofs.TokenStream.Prefetch
import Lookahead.Proofs.TokenStream.Resting

/-!
This module contains the freedom that a stream has in when to prime itself. Steady requests have the
same answers from a stream that is primed as from the stream that is yet to be. On a token on the
tape, looking behind is among the requests that do not show how much of the source is on the tape.
-/

namespace Lookahead

open TokenSource (EndsAt KindTells)

namespace TokenStream

variable {σ τ μ : Type} [Token τ] [TokenSource σ τ] {rule : LandingRule σ τ μ}

theorem prime_prime (s : TokenStream rule) : s.prime.prime = s.prime :=
  prime_of_isSome s.isSome_cursor_prime

section Primed

variable {source : σ} {n : Nat} {s t : TokenStream rule}

/--
Pulling tokens before the stream is primed or after makes no difference to where it then stands.
-/
theorem Reachable.agrees_prime_of_grows (hs : Reachable rule source s) (hr : rule.Steady source)
    (h : s.Grows t ∨ s.prime.Grows t) : Agrees source s.prime t.prime := by
  rcases h with h | h
  . have hagrees := (Agrees.refl hs.records).grows (.refl s) h
    exact hagrees.prime hr
  . rw [h.prime_eq]
    exact (Agrees.refl hs.records_prime).grows (.refl s.prime) h

theorem Reachable.consume_prime (hs : Reachable rule source s) (hn : EndsAt source n)
    (hr : rule.Steady source) (hk : KindTells source) :
    s.prime.consume.1 = s.consume.1 ∧ Agrees source s.prime.consume.2.prime s.consume.2.prime := by
  have hs' := hs.prime
  constructor
  . rw [hs.consume_fst hn hk]
    rw [hs'.consume_fst hn hk]
    rw [prime_prime]
  . by_cases hlt : s.prime.index < n
    . have hlt' : s.prime.prime.index < n := by rwa [prime_prime]
      have hsame : s.prime.consume.2 = s.consume.2 := by
        rw [hs.consume_snd_of_lt hn hk hlt]
        rw [hs'.consume_snd_of_lt hn hk hlt']
        rw [prime_prime]
      rw [hsame]
      exact .refl hs.consume.records_prime
    . have hle := Nat.le_of_not_lt hlt
      have hle' : n ≤ s.prime.prime.index := by rwa [prime_prime]
      have hgrows := hs'.agrees_prime_of_grows hr (.inr (hs'.grows_consume_of_le hn hle'))
      rw [prime_prime] at hgrows
      exact hgrows.symm.trans (hs.agrees_prime_of_grows hr (.inr (hs.grows_consume_of_le hn hle)))

theorem textIn_prime_fst (s : TokenStream rule) (x : Interval) :
    (s.prime.textIn x).1 = (s.textIn x).1 := by
  by_cases hx : x.lo.toInt < 0 ∨ x.hi.toInt < 0
  . rw [textIn_of_neg _ hx]
    rw [textIn_of_neg _ hx]
  . rw [textIn_of_nonneg _ (by omega) (by omega)]
    rw [textIn_of_nonneg _ (by omega) (by omega)]
    rw [prime_prime]

theorem textBetween_prime_fst (s : TokenStream rule) (start stop : Option τ) :
    (s.prime.textBetween start stop).1 = (s.textBetween start stop).1 := by
  unfold textBetween
  split
  . apply textIn_prime_fst
  . rfl

theorem Reachable.answer_prime_fst (hs : Reachable rule source s) (hn : EndsAt source n)
    (hr : rule.Steady source) (hk : KindTells source) {request : Request τ}
    (hrequest : request.IsSteady) : (s.prime.answer request).1 = (s.answer request).1 := by
  have hprime := s.prime_prime
  cases request with
  | consume =>
    exact congrArg (Answer.ofExcept fun _ => .done) (hs.consume_prime hn hr hk).1
  | look k => simp only [TokenStream.answer, look, peek, behind, hprime]
  | peek k => simp only [TokenStream.answer, peek, behind, hprime]
  | mark => rfl
  | release marker => rfl
  | seek i => rfl
  | drain => rfl
  | nextOn i channel =>
    have hfst := hs.records_prime.nextOn_fst_eq hs.records hn i channel
    exact congrArg (Answer.index ∘ some) hfst
  | prevOn i channel =>
    have hfst := hs.records_prime.prevOn_fst_eq hs.records hn i channel
    exact congrArg Answer.index hfst
  | text => simp only [TokenStream.answer, text, drain, hprime]
  | textIn x => exact congrArg Answer.text (s.textIn_prime_fst x)
  | textBetween start stop => exact congrArg Answer.text (s.textBetween_prime_fst start stop)
  | _ => contradiction

theorem Reachable.agrees_answer_prime (hs : Reachable rule source s) (hn : EndsAt source n)
    (hr : rule.Steady source) (hk : KindTells source) (request : Request τ) :
    Agrees source (s.prime.answer request).2.prime (s.answer request).2.prime := by
  rcases request.moves_or_stays with rfl | ⟨i, rfl⟩ | ⟨hc, hseek⟩
  . exact (hs.consume_prime hn hr hk).2
  . have hsame : s.prime.seek i = s.seek i := by
      unfold seek
      rw [prime_prime]
    change Agrees source (s.prime.seek i).prime (s.seek i).prime
    rw [hsame]
    exact .refl (hs.answer (.seek i)).records_prime
  . have hafter := hs.prime.agrees_prime_of_grows hr (s.prime.grows_answer hc hseek)
    rw [prime_prime] at hafter
    exact hafter.symm.trans (hs.agrees_prime_of_grows hr (s.grows_answer hc hseek))

namespace Agrees

/--
Streams that agree once they are primed answer a steady request alike, primed or not.
-/
theorem answer_of_prime (h : Agrees source s.prime t.prime) (hs : Reachable rule source s)
    (ht : Reachable rule source t) (hn : EndsAt source n) (hr : rule.Steady source)
    (hk : KindTells source) {request : Request τ} (hrequest : request.IsSteady) :
    (s.answer request).1 = (t.answer request).1 ∧
      Agrees source (s.answer request).2.prime (t.answer request).2.prime := by
  obtain ⟨hanswer, hafter⟩ := h.answer hs.prime ht.prime hn hr hk hrequest
  have hleft := hs.agrees_answer_prime hn hr hk request
  have hright := ht.agrees_answer_prime hn hr hk request
  rw [hs.answer_prime_fst hn hr hk hrequest] at hanswer
  rw [ht.answer_prime_fst hn hr hk hrequest] at hanswer
  exact ⟨hanswer, (hleft.symm.trans (hafter.prime hr)).trans hright⟩

theorem answers_of_prime (h : Agrees source s.prime t.prime) (hs : Reachable rule source s)
    (ht : Reachable rule source t) (hn : EndsAt source n) (hr : rule.Steady source)
    (hk : KindTells source) {requests : List (Request τ)} (hrequests : ∀ r ∈ requests, r.IsSteady) :
    (s.answers requests).1 = (t.answers requests).1 := by
  induction requests generalizing s t with
  | nil => rfl
  | cons request rest ih =>
    rw [List.forall_mem_cons] at hrequests
    obtain ⟨hanswer, hnext⟩ := h.answer_of_prime hs ht hn hr hk hrequests.1
    unfold TokenStream.answers
    dsimp only
    rw [hanswer]
    rw [ih hnext (hs.answer request) (ht.answer request) hrequests.2]

end Agrees

end Primed

section Looks

/--
The request looks for a token at some distance from the cursor, ahead or behind.
-/
def Request.isLook : Request τ → Bool
  | .look _ => true
  | .peek _ => true
  | .behind _ => true
  | _ => false

variable {source : σ} {n : Nat} {s t : TokenStream rule}

namespace Agrees

theorem peek_fst_of_onTape (h : Agrees source s t) (hs : Reachable rule source s)
    (ht : Reachable rule source t) (hn : EndsAt source n) (hs' : s.OnTape) (ht' : t.OnTape)
    (k : Int) : (s.peek k).1 = (t.peek k).1 := by
  have hlt := ht'.index_lt_size
  rw [← h.index_eq] at hlt
  -- From a token on the tape there is nothing behind that is not on the tape.
  have hbehind (size : Nat) (hsize : s.index < size) :
      k < 0 ∧ 0 ≤ s.index + k ∧ s.index + k < size ↔ k < 0 ∧ 0 ≤ s.index + k := by omega
  rw [hs.peek_fst hn]
  rw [ht.peek_fst hn]
  rw [hs'.prime_eq]
  rw [ht'.prime_eq]
  rw [← h.index_eq]
  unfold tokenAt
  simp only [hbehind _ hs'.index_lt_size, hbehind _ hlt]

theorem answer_look (h : Agrees source s t) (hs : Reachable rule source s)
    (ht : Reachable rule source t) (hn : EndsAt source n) (hs' : s.OnTape) (ht' : t.OnTape)
    {request : Request τ} (hlook : request.isLook = true) :
    (s.answer request).1 = (t.answer request).1 ∧
      Agrees source (s.answer request).2 (t.answer request).2 := by
  have hpeek := h.peek_fst_of_onTape hs ht hn hs' ht'
  have hsgrows (k : Int) := s.grows_peek k
  have htgrows (k : Int) := t.grows_peek k
  rw [hs'.prime_eq] at hsgrows
  rw [ht'.prime_eq] at htgrows
  cases request with
  | look k =>
    refine ⟨?_, h.grows (hsgrows k) (htgrows k)⟩
    simp only [TokenStream.answer, look, Prod.map_fst, hpeek]
  | peek k => exact ⟨congrArg Answer.token (hpeek k), h.grows (hsgrows k) (htgrows k)⟩
  | behind k =>
    -- Looking behind is peeking at a distance that is not positive.
    have hbehind (u : TokenStream rule) : u.behind k = u.peek (-k) := by
      unfold peek
      rw [if_neg (by omega)]
      rw [Int.natAbs_neg]
      rfl
    simp only [TokenStream.answer, hbehind]
    exact ⟨congrArg Answer.token (hpeek _), h.grows (hsgrows _) (htgrows _)⟩
  | _ => contradiction

theorem answers_onTape (h : Agrees source s t) (hs : Reachable rule source s)
    (ht : Reachable rule source t) (hn : EndsAt source n) (hr : rule.Steady source)
    (htape : rule.StaysOnTape source) (hk : KindTells source) (hs' : s.OnTape) (ht' : t.OnTape)
    {requests : List (Request τ)}
    (hrequests : ∀ r ∈ requests, (r.IsSteady ∨ r.isLook = true) ∧ ∀ i, r ≠ .seek i) :
    (s.answers requests).1 = (t.answers requests).1 := by
  induction requests generalizing s t with
  | nil => rfl
  | cons request rest ih =>
    rw [List.forall_mem_cons] at hrequests
    obtain ⟨⟨hrequest, hseek⟩, hrest⟩ := hrequests
    obtain ⟨hanswer, hnext⟩ : (s.answer request).1 = (t.answer request).1 ∧
        Agrees source (s.answer request).2 (t.answer request).2 := by
      rcases hrequest with hsteady | hlook
      . exact h.answer hs ht hn hr hk hsteady
      . exact h.answer_look hs ht hn hs' ht' hlook
    have hsnext := hs'.answer hs hn htape hseek
    have htnext := ht'.answer ht hn htape hseek
    unfold TokenStream.answers
    dsimp only
    rw [hanswer]
    rw [ih hnext (hs.answer request) (ht.answer request) hsnext htnext hrest]

end Agrees

end Looks

end TokenStream

end Lookahead
