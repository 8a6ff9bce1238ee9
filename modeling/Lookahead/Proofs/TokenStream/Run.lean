import Lookahead.Proofs.TokenStream.Effect

/-!
This module contains the runs of token streams: the states that a stream over a source can get into,
and what its tape is in all of them, whatever is asked of the stream and wherever its rule lands.
-/

namespace Lookahead

namespace TokenStream

variable {σ τ μ : Type} [Token τ] [TokenSource σ τ] {rule : LandingRule σ τ μ}

/--
The states of streams over `source`: new ones, and those after one more request.
-/
inductive Reachable (rule : LandingRule σ τ μ) (source : σ) : TokenStream rule → Prop where
  | ofSource (memory : μ) (settings : TokenSettings) :
    Reachable rule source (ofSource rule memory source settings)
  | answer {s : TokenStream rule} (request : Request τ) :
    Reachable rule source s → Reachable rule source (s.answer request).2

theorem Reachable.answers {source : σ} {s : TokenStream rule} (h : Reachable rule source s)
    (requests : List (Request τ)) : Reachable rule source (s.answers requests).2 := by
  induction requests generalizing s with
  | nil => exact h
  | cons request rest ih =>
    unfold TokenStream.answers
    apply ih
    exact h.answer request

theorem Reachable.prime {source : σ} {s : TokenStream rule} (hs : Reachable rule source s) :
    Reachable rule source s.prime := hs.answer (.behind 0)

theorem Reachable.consume {source : σ} {s : TokenStream rule} (h : Reachable rule source s) :
    Reachable rule source s.consume.2 := h.answer .consume

theorem grows_tape_answers (s : TokenStream rule) (requests : List (Request τ)) :
    s.tape.Grows (s.answers requests).2.tape := by
  induction requests generalizing s with
  | nil => exact .refl
  | cons request rest ih =>
    unfold answers
    apply Tape.Grows.trans
    . exact s.grows_tape_answer request
    . apply ih

theorem Reachable.records {source : σ} {s : TokenStream rule} (h : Reachable rule source s) :
    s.tape.Records source := by
  induction h with
  | ofSource memory settings => exact Tape.records_new source
  | @answer s request _ ih => exact ih.grows (s.grows_tape_answer request)

/--
What new streams have, and what is kept whenever the tape grows and whenever the stream moves, all
streams over the source have.
-/
theorem Reachable.induction {source : σ} {motive : TokenStream rule → Prop}
    (ofSource : ∀ (memory : μ) (settings : TokenSettings),
      motive (TokenStream.ofSource rule memory source settings))
    (grows : ∀ {s t : TokenStream rule}, s.Grows t → motive s → motive t)
    (moveTo : ∀ {s : TokenStream rule} (i : Nat),
      s.tape.Records source → motive s → motive (s.moveTo i))
    {s : TokenStream rule} (h : Reachable rule source s) : motive s := by
  induction h with
  | ofSource memory settings => exact ofSource memory settings
  | @answer s request hs ih =>
    have hkept : (s.answer request).2.tape.Records source ∧ motive (s.answer request).2 := by
      apply answer_induction (motive := fun t => t.tape.Records source ∧ motive t) _ _
        ⟨hs.records, ih⟩
      . intro s t hg h
        exact ⟨h.1.grows hg.tape, grows hg h.2⟩
      . intro s i h
        exact ⟨h.1.grows (s.grows_tape_moveTo i), moveTo i h.1 h.2⟩
    exact hkept.2

theorem Reachable.grows_tape {source : σ} {s : TokenStream rule} (hs : Reachable rule source s) :
    Tape.Grows { source } s.tape := by
  apply hs.induction (motive := fun s => Tape.Grows { source } s.tape)
  . intro memory settings
    exact .refl
  . intro s t hgrows h
    exact h.trans hgrows.tape
  . intro s i _ h
    exact h.trans (s.grows_tape_moveTo i)

theorem Reachable.records_prime {source : σ} {s : TokenStream rule}
    (h : Reachable rule source s) : s.prime.tape.Records source :=
  h.records.grows s.grows_tape_prime

/--
A token on the tape is that of the source at its position.
-/
theorem Reachable.eq_nth_of_getElem? {source : σ} {s : TokenStream rule}
    (h : Reachable rule source s) {i : Nat} {t : τ} (ht : s.tape.tokens[i]? = some t) :
    t = TokenSource.nth source i := by
  rw [h.records.getElem?_tokens] at ht
  split at ht
  . exact (Option.some.inj ht).symm
  . contradiction

theorem Reachable.size_ensure_zero {source : σ} {s : TokenStream rule}
    (h : Reachable rule source s) : (s.tape.ensure 0).size = max s.size 1 := by
  have hle := Tape.size_advance_le (Position.succ 0 - s.tape.size) s.tape
  have hgrows := (s.tape.grows_ensure 0).size_le
  have hpos := h.records.lt_size_ensure (j := 0) (by omega) (by decide)
  have hsucc : Position.succ 0 = 1 := by decide
  unfold Tape.ensure at hgrows hpos ⊢
  rw [hsucc] at hle hgrows hpos ⊢
  unfold size
  omega

theorem Reachable.size_prime_pos_of_eq_none {source : σ} {s : TokenStream rule}
    (h : Reachable rule source s) (hc : s.cursor = none) : 0 < s.prime.size := by
  have hfirst : 0 < (s.tape.ensure 0).size := by
    rw [h.size_ensure_zero]
    omega
  have hmove := grows_tape_moveTo (s.withTape (s.tape.ensure 0)) 0
  rw [prime_of_eq_none hc]
  exact Nat.lt_of_lt_of_le hfirst hmove.size_le

/--
A stream that has a cursor has a token.
-/
theorem Reachable.size_pos {source : σ} {s : TokenStream rule} (h : Reachable rule source s)
    (hsome : s.cursor.isSome) : 0 < s.size := by
  induction h with
  | ofSource memory settings => contradiction
  | @answer s request hs ih =>
    cases hc : s.cursor with
    | some p =>
      have hpos := ih (by simp [hc])
      exact Nat.lt_of_lt_of_le hpos (s.grows_tape_answer request).size_le
    | none =>
      have hpos := hs.size_prime_pos_of_eq_none hc
      exact Nat.lt_of_lt_of_le hpos (grows_tape_prime_answer hc hsome).size_le

theorem Reachable.size_prime_pos {source : σ} {s : TokenStream rule} (h : Reachable rule source s) :
    0 < s.prime.size := h.prime.size_pos s.isSome_cursor_prime

/--
After any requests the tape of a stream holds the first tokens of its source, as many as it has
pulled, with the end of the input at most as the last of them and known if it is there. Further
requests add to the tape but leave alone what is on it, and pull nothing past the end of the input.
-/
theorem tape_answers (rule : LandingRule σ τ μ) (memory : μ) (source : σ)
    (settings : TokenSettings) (requests : List (Request τ)) :
    let s := ((ofSource rule memory source settings).answers requests).2
    s.tape.tokens.toList = TokenSource.take s.size source ∧
      s.tape.source = TokenSource.after s.size source ∧
      (∀ pulls : σ → Nat, (∀ u, pulls (TokenSource.next u).2 = pulls u + 1) →
        pulls s.tape.source = pulls source + s.size) ∧
      (∀ t ∈ s.tape.tokens.toList.dropLast, Token.isEof t = false) ∧
      s.tape.exhausted = s.tape.tokens.toList.getLast?.any Token.isEof ∧
      ∀ more : List (Request τ), s.tape.Extends (s.answers more).2.tape := by
  intro s
  have hs : Reachable rule source s := (Reachable.ofSource memory settings).answers requests
  have h := hs.records
  refine ⟨h.tokens_eq, h.source_eq, ?_, h.isEof_eq_false, h.exhausted_eq, ?_⟩
  . intro pulls hpulls
    rw [h.source_eq]
    exact TokenSource.count_after hpulls _ source
  . intro more
    exact (s.grows_tape_answers more).extends

end TokenStream

end Lookahead
