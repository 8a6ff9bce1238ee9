import Lookahead.Proofs.Tape.Search
import Lookahead.Proofs.TokenStream.Text
import Lookahead.Proofs.TokenStream.Move

/-!
This module contains how many tokens a stream that lands exactly pulls for each request: what the
request needs that is not on the tape yet, up to the end of the input, and not one more.
-/

namespace Lookahead

namespace TokenStream

open TokenSource (EndsAt IsFirstOn nth)

variable {σ τ μ : Type} [Token τ] [TokenSource σ τ] {rule : LandingRule σ τ μ}

/--
How many tokens the text of an interval needs.
-/
def textDemand (x : Interval) : Nat :=
  if 0 ≤ x.lo.toInt ∧ 0 ≤ x.hi.toInt then x.hi.toInt.toNat + 1 else 0

/--
How many of the first tokens of a source that ends at `n` the stream needs for a request.
-/
def demand (source : σ) (n : Nat) (s : TokenStream rule) : Request τ → Nat
  | .consume =>
    match s.consume.1 with
    | .ok _ => s.prime.index + 2
    | .error _ => s.prime.index + 1
  | .look k | .peek k => if 0 < k then s.prime.index + k.toNat else 1
  | .behind _ | .seek _ | .select .. | .triviaBefore .. => 1
  | .range start stop => if 0 ≤ start ∧ 0 ≤ stop then 1 else 0
  | .mark | .release _ | .get _ => 0
  | .reach i => i + 1
  | .pull m => s.size + m
  | .drain | .text => n + 1
  | .prevOn i _ => i + 1
  | .nextOn i channel => max i (s.nextOn i channel).1 + 1
  | .triviaAfter i _ =>
    if s.prime.size ≤ i then
      1
    else
      -- The indices after `i`, up to that of the end of the input.
      match (List.range' (i + 1) (n - i)).find? fun j => Tape.isOn Channel.standard (nth source j) with
      | some j => j + 1
      | none => n + 1
  | .textIn x => textDemand x
  | .textBetween (some start) (some stop) => textDemand ⟨Token.index start, Token.index stop⟩
  | .textBetween .. => 0

theorem size_triviaBefore (s : TokenStream rule) (i : Nat) (channel : Option UInt32) :
    (s.triviaBefore i channel).2.size = s.prime.size := by
  unfold triviaBefore
  dsimp only
  split
  . rfl
  . next hi =>
    split
    . rfl
    -- With the token on the tape, all before it is there too, and the search pulls nothing.
    . have hprev : (s.prime.tape.prevOn (i - 1) Channel.standard).2 = s.prime.tape := by
        rw [Tape.snd_prevOn]
        apply Tape.ensure_of_lt
        unfold size at hi
        omega
      split <;> exact congrArg Tape.size hprev

section Exact

variable {source : σ} {n : Nat} {s : TokenStream (LandingRule.exact (σ := σ) (τ := τ))}

theorem Reachable.size_prime (hs : Reachable .exact source s) : s.prime.size = max s.size 1 := by
  cases hc : s.cursor with
  | some p =>
    have hsome : s.cursor.isSome := by simp [hc]
    have hpos := hs.size_pos hsome
    rw [prime_of_isSome hsome]
    omega
  | none =>
    rw [prime_of_eq_none hc]
    exact hs.size_ensure_zero

theorem Reachable.size_ensure_prime (hs : Reachable .exact source s) (hn : EndsAt source n)
    (i : Nat) : (s.prime.tape.ensure i).size = max s.size (min (n + 1) (i + 1)) := by
  have hprime := hs.size_prime
  have hsize := hs.records_prime.size_ensure hn i
  unfold size at hprime ⊢
  omega

theorem Reachable.size_step (hs : Reachable .exact source s) (hn : EndsAt source n) :
    s.step.size = max s.size (min (n + 1) (s.prime.index + 2)) := by
  have hlimit := hn.lt_limit
  have hstep : s.step.tape = s.prime.tape.ensure (Position.succ s.prime.index) := by
    rw [step_eq]
    dsimp only
    split <;> rfl
  unfold size
  rw [hstep]
  rw [hs.size_ensure_prime hn]
  simp only [Position.succ, Position.add, size]
  omega

theorem Reachable.size_peek (hs : Reachable .exact source s) (hn : EndsAt source n) (k : Int) :
    (s.peek k).2.size =
      max s.size (min (n + 1) (if 0 < k then s.prime.index + k.toNat else 1)) := by
  have hlimit := hn.lt_limit
  unfold peek
  split
  . next hk =>
    have hsize := hs.size_ensure_prime hn (Position.add s.prime.index (k.toNat - 1))
    simp only [Position.add] at hsize ⊢
    change (s.prime.tape.ensure _).size = _
    rw [hsize]
    omega
  . have hprime := hs.size_prime
    change s.prime.size = _
    omega

theorem Reachable.size_consume (hs : Reachable .exact source s) (hn : EndsAt source n) :
    s.consume.2.size = max s.size (min (n + 1) (s.demand source n .consume)) := by
  unfold demand
  rcases s.consume_cases with ⟨h, -⟩ | ⟨h, -⟩
  . rw [h]
    exact hs.size_step hn
  . rw [h]
    exact hs.size_peek hn 1

theorem Reachable.size_range (hs : Reachable .exact source s) (start stop : Int) :
    (s.range start stop).2.size =
      max s.size (min (n + 1) (if 0 ≤ start ∧ 0 ≤ stop then 1 else 0)) := by
  split
  . next h =>
    rw [s.range_of_nonneg h]
    rw [hs.size_prime]
    omega
  . next h =>
    rw [s.range_of_neg h]
    exact (Nat.max_eq_left (Nat.zero_le _)).symm

theorem Reachable.size_textIn (hs : Reachable .exact source s) (hn : EndsAt source n)
    (x : Interval) : (s.textIn x).2.size = max s.size (min (n + 1) (textDemand x)) := by
  unfold textDemand
  split
  . next hx =>
    rw [s.textIn_of_nonneg hx.1 hx.2]
    exact hs.size_ensure_prime hn _
  . next hx =>
    rw [s.textIn_of_neg (by omega)]
    exact (Nat.max_eq_left (Nat.zero_le _)).symm

theorem Reachable.size_triviaAfter (hs : Reachable .exact source s) (hn : EndsAt source n)
    (i : Nat) (channel : Option UInt32) :
    (s.triviaAfter i channel).2.size =
      max s.size (min (n + 1) (s.demand source n (.triviaAfter i channel))) := by
  have hprime := hs.size_prime
  have hle := hs.records_prime.size_le hn
  unfold triviaAfter demand
  dsimp only
  split
  . dsimp only
    omega
  . next hi =>
    have hnext := hs.records_prime.size_nextOn hn (i + 1) Channel.standard
    have hend := hs.records_prime.nextOn_fst_le hn (i + 1) Channel.standard
    change (s.prime.tape.nextOn (i + 1) Channel.standard).2.size = _
    unfold size at hprime hi
    rw [hnext]
    by_cases hin : i < n
    . have hfirst := hs.records_prime.isFirstOn_nextOn_of_le hn (i := i + 1) hin Channel.standard
      have hstart := hfirst.le
      rw [hfirst.find?_range' (by omega)]
      dsimp only [size]
      omega
    . have hrange : n - i = 0 := by omega
      rw [hrange]
      change max s.prime.tape.size (min (n + 1) _) = max s.tape.size (min (n + 1) (n + 1))
      omega

theorem Reachable.size_answer (hs : Reachable .exact source s) (hn : EndsAt source n)
    (request : Request τ) :
    (s.answer request).2.size = max s.size (min (n + 1) (s.demand source n request)) := by
  have hprime := hs.size_prime
  have hle : s.size ≤ n + 1 := hs.records.size_le hn
  have hensure (i : Nat) : (s.tape.ensure i).size = max s.size (min (n + 1) (i + 1)) := by
    rw [Nat.min_comm]
    exact hs.records.size_ensure hn i
  -- The size after a request that only primes the stream, does nothing, or pulls all there is.
  have hone : s.prime.size = max s.size (min (n + 1) 1) := by omega
  have hzero : s.size = max s.size (min (n + 1) 0) := by omega
  have hall : n + 1 = max s.size (min (n + 1) (n + 1)) := by omega
  cases request with
  | consume => exact hs.size_consume hn
  | look k => exact hs.size_peek hn k
  | peek k => exact hs.size_peek hn k
  | behind k => exact hone
  | mark => exact hzero
  | release marker => exact hzero
  | seek i => exact hone
  | reach i => exact hensure i
  | pull m =>
    change (s.tape.advance m).size = _
    rw [hs.records.size_advance hn]
    change min (s.size + m) (n + 1) = max s.size (min (n + 1) (s.size + m))
    omega
  | drain => exact (hs.size_drain hn).trans hall
  | get i => exact hzero
  | range start stop => exact hs.size_range start stop
  | select start stop kinds =>
    change (s.select start stop kinds).2.size = _
    unfold select
    dsimp only
    split <;> exact hone
  | nextOn i channel =>
    change (s.tape.nextOn i channel).2.size = _
    exact hs.records.size_nextOn hn i channel
  | prevOn i channel =>
    change (s.tape.prevOn i channel).2.size = _
    rw [Tape.snd_prevOn]
    exact hensure i
  | triviaAfter i channel => exact hs.size_triviaAfter hn i channel
  | triviaBefore i channel =>
    exact (s.size_triviaBefore i channel).trans hone
  | text => exact (hs.size_drain hn).trans hall
  | textIn x => exact hs.size_textIn hn x
  | textBetween start stop =>
    cases start with
    | none => exact hzero
    | some t =>
      cases stop with
      | none => exact hzero
      | some u => exact hs.size_textIn hn ⟨Token.index t, Token.index u⟩

end Exact

/--
Over a source that ends, a stream that lands exactly pulls for a request just the tokens that the
request needs and that are not on the tape yet, and no token past the end of the input. So the token
that the source gives out next is the first that is not on the tape, which from the end on is the end
again if the source goes on like that.
-/
theorem size_answer_eq_demand {source : σ} {n : Nat} (hn : EndsAt source n)
    {s : TokenStream (LandingRule.exact (σ := σ) (τ := τ))} (hs : Reachable .exact source s)
    (request : Request τ) :
    let t := (s.answer request).2
    t.size = max s.size (min (n + 1) (s.demand source n request)) ∧
      (∀ pulls : σ → Nat, (∀ u, pulls (TokenSource.next u).2 = pulls u + 1) →
        pulls t.tape.source = pulls source + t.size) ∧
      (TokenSource.next t.tape.source).1 = nth source t.size ∧
      ((∀ i, n ≤ i → Token.isEof (nth source i) = true) → n ≤ t.size →
        Token.isEof (TokenSource.next t.tape.source).1 = true) := by
  intro t
  have hsource := (hs.answer request).records.source_eq
  have hnext : (TokenSource.next t.tape.source).1 = nth source t.size :=
    congrArg (fun u => (TokenSource.next u).1) hsource
  refine ⟨hs.size_answer hn request, ?_, hnext, ?_⟩
  . intro pulls hpulls
    rw [hsource]
    exact TokenSource.count_after hpulls _ source
  . intro hends hle
    rw [hnext]
    exact hends _ hle

theorem size_answer_eq_demand_over_hidden :
    let source : Replay :=
      ⟨#[⟨1, "x", 0, 0, 0, 0⟩, ⟨2, " ", 1, 0, 1, 1⟩, ⟨3, "y", 0, 0, 2, 2⟩, ⟨1, "z", 0, 0, 3, 3⟩], 0, ""⟩
    let fresh : TokenStream (μ := Unit) .exact := ofSource .exact () source {}
    let s := (fresh.answers [.mark, .consume]).2
    EndsAt source 4 ∧ Reachable .exact source fresh ∧ Reachable .exact source s ∧
      (fresh.answer (.get 0)).2.size = 0 ∧ (fresh.answer .consume).2.size = 2 ∧
      (s.answer (.peek 1)).2.size = 2 ∧ (s.answer (.triviaAfter 0 none)).2.size = 3 ∧
      (s.answer (.look 9)).2.size = 5 ∧ s.text.2.size = 5 ∧
      (TokenSource.next (s.answer (.triviaAfter 0 none)).2.tape.source).1 = nth source 3 ∧
      Token.isEof (TokenSource.next (s.answer .drain).2.tape.source).1 = true := by
  intro source fresh s
  have hn : EndsAt source 4 := by
    constructor <;> decide
  have hfresh : Reachable .exact source fresh := .ofSource () {}
  have hs : Reachable .exact source s := hfresh.answers [.mark, .consume]
  have hends : ∀ i, 4 ≤ i → Token.isEof (nth source i) = true := by
    intro i hi
    rw [TokenSource.nth_of_next_eq_self (by decide) hi]
    decide
  refine ⟨hn, hfresh, hs, ?_, ?_, ?_, ?_, ?_, ?_, ?_, ?_⟩
  . rw [(size_answer_eq_demand hn hfresh (.get 0)).1]
    decide
  . rw [(size_answer_eq_demand hn hfresh .consume).1]
    decide +kernel
  . rw [(size_answer_eq_demand hn hs (.peek 1)).1]
    decide +kernel
  . rw [(size_answer_eq_demand hn hs (.triviaAfter 0 none)).1]
    decide +kernel
  . rw [(size_answer_eq_demand hn hs (.look 9)).1]
    decide +kernel
  . exact (size_answer_eq_demand hn hs .text).1.trans (by decide +kernel)
  . rw [(size_answer_eq_demand hn hs (.triviaAfter 0 none)).2.2.1]
    decide +kernel
  . exact (size_answer_eq_demand hn hs .drain).2.2.2 hends (by decide +kernel)

end TokenStream

end Lookahead
