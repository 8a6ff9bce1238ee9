import Lookahead.Proofs.TokenStream.Peek
import Lookahead.TokenSource.Replay

/-!
This module contains when a stream consumes a token and when it refuses to, for sources whose tokens
tell the end of the input by their kind. The shortcut over tokens that are on the tape agrees with
looking at the token, wherever the cursor is and however much has been pulled.
-/

namespace Lookahead

namespace TokenStream

variable {σ τ μ : Type} [Token τ] [TokenSource σ τ] {rule : LandingRule σ τ μ}

section Refusal

variable {source : σ} {n : Nat} {s : TokenStream rule}

theorem Reachable.look_one_eq_eof_iff (hs : Reachable rule source s)
    (hn : TokenSource.EndsAt source n) (hk : TokenSource.KindTells source) :
    (s.look 1).1 = Symbol.eof ↔ n ≤ s.prime.index := by
  have hmin : (min ((s.prime.index : Int) + 1 - 1) n).toNat = min s.prime.index n := by omega
  rw [hs.look_fst hn]
  simp only [tokenAt, Int.zero_lt_one, if_true, Option.map_some, Option.getD_some, hmin]
  rw [← hk]
  rw [hn.isEof_nth_min]
  exact decide_eq_true_iff

theorem Reachable.lt_of_canStep (hs : Reachable rule source s) (hn : TokenSource.EndsAt source n)
    (h : s.canStep = true) : s.prime.index < n := by
  have hlimit := hn.lt_limit
  have hle := hs.records.size_le hn
  have hexhausted := hs.records.exhausted_eq_decide hn
  unfold canStep at h
  cases hc : s.cursor with
  | none => simp [hc] at h
  | some p =>
    have hprime : s.prime.index = p := by
      rw [prime_of_isSome (by simp [hc])]
      simp [index, hc]
    rw [hprime]
    simp only [hc] at h
    -- The shortcut keeps off the last token on the tape just if that is the end of the input.
    split at h
    . next he =>
      rw [hexhausted] at he
      have hsize := of_decide_eq_true he
      have hp := of_decide_eq_true h
      simp only [size, Position.succ, Position.add] at hp
      omega
    . next he =>
      rw [hexhausted] at he
      have hp := of_decide_eq_true h
      simp only [size, decide_eq_true_eq] at he hp
      omega

theorem Reachable.consume_fst (hs : Reachable rule source s) (hn : TokenSource.EndsAt source n)
    (hk : TokenSource.KindTells source) :
    s.consume.1 = if n ≤ s.prime.index then .error .consumeEof else .ok () := by
  have hlook := hs.look_one_eq_eof_iff hn hk
  rcases s.consume_cases with ⟨h, hstep | hsymbol⟩ | ⟨h, hsymbol⟩
  . rw [h]
    rw [if_neg (Nat.not_le_of_lt (hs.lt_of_canStep hn hstep))]
  . rw [h]
    rw [if_neg (mt hlook.mpr hsymbol)]
  . rw [h]
    rw [if_pos (hlook.mp hsymbol)]

theorem Reachable.consume_eq_ok_iff (hs : Reachable rule source s)
    (hn : TokenSource.EndsAt source n) (hk : TokenSource.KindTells source) :
    s.consume.1 = .ok () ↔ s.prime.index < n := by
  rw [hs.consume_fst hn hk]
  split
  . next h => simpa using h
  . next h => simpa using h

theorem Reachable.consume_eq_error_iff (hs : Reachable rule source s)
    (hn : TokenSource.EndsAt source n) (hk : TokenSource.KindTells source) :
    s.consume.1 = .error .consumeEof ↔ n ≤ s.prime.index := by
  rw [hs.consume_fst hn hk]
  split
  . next h => simpa using h
  . next h => simpa using h

theorem Reachable.consume_snd_of_lt (hs : Reachable rule source s)
    (hn : TokenSource.EndsAt source n) (hk : TokenSource.KindTells source)
    (h : s.prime.index < n) :
    s.consume.2 = (s.prime.withTape (s.prime.tape.ensure (s.prime.index + 1))).moveTo
      (s.prime.index + 1) := by
  rcases s.consume_cases with ⟨hc, -⟩ | ⟨-, hsymbol⟩
  . rw [hc]
    exact hs.step_of_lt hn h
  . have := (hs.look_one_eq_eof_iff hn hk).mp hsymbol
    omega

theorem Reachable.grows_consume_of_le (hs : Reachable rule source s)
    (hn : TokenSource.EndsAt source n) (h : n ≤ s.prime.index) :
    s.prime.Grows s.consume.2 := by
  rcases s.consume_cases with ⟨hc, -⟩ | ⟨hc, -⟩
  . rw [hc]
    exact hs.grows_step_of_le hn h
  . rw [hc]
    exact s.grows_look 1

theorem Reachable.grows_answer_of_le (hs : Reachable rule source s)
    (hn : TokenSource.EndsAt source n) (hsome : s.cursor.isSome) (h : n ≤ s.index)
    {request : Request τ} (hseek : ∀ i, request ≠ .seek i) : s.Grows (s.answer request).2 := by
  have hprime := prime_of_isSome hsome
  rcases s.answer_cases request with hg | hg | ⟨-, ht⟩ | ⟨i, hi, -⟩
  . exact hg
  . rwa [hprime] at hg
  . have hstep := hs.grows_step_of_le hn (by rwa [hprime])
    rw [ht]
    rwa [hprime] at hstep
  . exact absurd hi (hseek i)

/--
Without a seek there is no way on from the end of the input.
-/
theorem Reachable.grows_answers_of_le (hs : Reachable rule source s)
    (hn : TokenSource.EndsAt source n) (hsome : s.cursor.isSome) (h : n ≤ s.index)
    {requests : List (Request τ)} (hseek : ∀ i, .seek i ∉ requests) :
    s.Grows (s.answers requests).2 := by
  induction requests generalizing s with
  | nil => exact .refl s
  | cons request rest ih =>
    have hfirst : s.Grows (s.answer request).2 := by
      apply hs.grows_answer_of_le hn hsome h
      intro i hi
      exact hseek i (hi ▸ List.mem_cons_self)
    unfold TokenStream.answers
    apply hfirst.trans
    apply ih (hs.answer request)
    . rwa [hfirst.cursor_eq]
    . rwa [hfirst.index_eq]
    . exact fun i hi => hseek i (List.mem_cons_of_mem _ hi)

end Refusal

/--
A stream consumes a token just if lookahead does not find the end of the input there. Then the rule
is asked once, for the next index, and decides. Otherwise the rule is not asked, nothing happens but
to the tape, and without a seek all further tries are refused too.
-/
theorem consume_fst_eq_look {source : σ} {n : Nat} (hn : TokenSource.EndsAt source n)
    (hk : TokenSource.KindTells source) {s : TokenStream rule} (hs : Reachable rule source s) :
    (s.consume.1 = if (s.look 1).1 = Symbol.eof then .error .consumeEof else .ok ()) ∧
      (s.consume.1 = .ok () →
        let tape := s.prime.tape.ensure (s.prime.index + 1)
        let landing := rule.land s.prime.memory tape (s.prime.index + 1)
        s.consume.2 =
          { s.prime with
            tape := landing.tape
            cursor := some landing.index
            memory := landing.memory } ∧
          ((∀ m c i, (rule.land m c i).index = i) → s.consume.2.index = s.prime.index + 1)) ∧
      (s.consume.1 = .error .consumeEof →
        (∃ tape, s.prime.tape.Grows tape ∧ s.consume.2 = s.prime.withTape tape) ∧
          (s.cursor.isSome → s.consume.2.cursor = s.cursor ∧ s.consume.2.memory = s.memory) ∧
          ∀ requests : List (Request τ), (∀ i, .seek i ∉ requests) →
            (s.consume.2.answers requests).2.consume.1 = .error .consumeEof) := by
  refine ⟨?_, ?_, ?_⟩
  . rw [hs.consume_fst hn hk]
    simp only [hs.look_one_eq_eof_iff hn hk]
  . intro hok tape landing
    have hlt := (hs.consume_eq_ok_iff hn hk).mp hok
    have hsnd := hs.consume_snd_of_lt hn hk hlt
    refine ⟨hsnd, ?_⟩
    intro hexact
    rw [hsnd]
    rw [index_moveTo]
    apply hexact
  -- A refused stream is at the end of the input or past it, and only `seek` leads back from there.
  . intro herror
    have hle := (hs.consume_eq_error_iff hn hk).mp herror
    have hgrows := hs.grows_consume_of_le hn hle
    refine ⟨⟨_, hgrows.tape, hgrows.eq_withTape⟩, ?_, ?_⟩
    . intro hsome
      rw [prime_of_isSome hsome] at hgrows
      exact ⟨hgrows.cursor_eq, hgrows.memory_eq⟩
    . intro requests hseek
      have hreach := hs.consume
      have hsome : s.consume.2.cursor.isSome := by
        rw [hgrows.cursor_eq]
        exact s.isSome_cursor_prime
      have hafter := hreach.grows_answers_of_le hn hsome (by rwa [hgrows.index_eq]) hseek
      have hprime : (s.consume.2.answers requests).2.prime = (s.consume.2.answers requests).2 := by
        apply prime_of_isSome
        rwa [hafter.cursor_eq]
      rw [(hreach.answers requests).consume_eq_error_iff hn hk]
      rw [hprime]
      rw [hafter.index_eq]
      rwa [hgrows.index_eq]

theorem consume_fst_eq_look_after_hidden :
    let source : Replay := ⟨#[⟨1, " ", Channel.hidden, 0, 0, 0⟩, ⟨2, "x", 0, 0, 1, 1⟩], 0, ""⟩
    let fresh := ofSource (.onChannel Channel.standard) () source {}
    TokenSource.EndsAt source 2 ∧ TokenSource.KindTells source ∧
      Reachable (.onChannel Channel.standard) source fresh ∧ fresh.consume.1 = .ok () ∧
      (fresh.consume.2.consume.1 = .error .consumeEof) ∧
      (fresh.consume.2.consume.2.answers [.look 1, .pull 5, .drain]).2.consume.1 =
        .error .consumeEof := by
  intro source fresh
  have hn : TokenSource.EndsAt source 2 := by
    constructor <;> decide
  have hk := TokenSource.kindTells_of_plain source
  have hs : Reachable (.onChannel Channel.standard) source fresh := .ofSource () {}
  have hs' : Reachable (.onChannel Channel.standard) source fresh.consume.2 := hs.consume
  have hfirst : fresh.consume.1 = .ok () := by
    rw [(consume_fst_eq_look hn hk hs).1]
    rw [if_neg (by decide +kernel)]
  obtain ⟨hlook, -, hrefused⟩ := consume_fst_eq_look hn hk hs'
  have hsecond : fresh.consume.2.consume.1 = .error .consumeEof := by
    rw [hlook]
    rw [if_pos (by decide +kernel)]
  refine ⟨hn, hk, hs, hfirst, hsecond, ?_⟩
  exact (hrefused hsecond).2.2 _ (by simp)

end TokenStream

end Lookahead
