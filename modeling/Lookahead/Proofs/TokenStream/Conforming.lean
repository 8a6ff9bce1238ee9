import Lookahead.Proofs.Tape.Search
import Lookahead.Proofs.TokenStream.Progress

/-!
This module contains the streams that conform, which is to say that they never land before the index
they are sent to unless on the end of the input. The rule behind such a stream may be of any kind
otherwise, keep a memory and pull tokens. The stream comes to the end of the input within as many
steps as there are tokens left, and stays there.
-/

namespace Lookahead

open TokenSource (EndsAt KindTells)

namespace LandingRule

variable {σ τ μ : Type} [Token τ] [TokenSource σ τ]

/--
Over a source that ends at `n` the rule lands on the index asked for, after it, or on the end of the
input, whatever it remembers and however much of the source is on the tape.
-/
def Conforms (rule : LandingRule σ τ μ) (source : σ) (n : Nat) : Prop :=
  ∀ (m : μ) {c : Tape σ τ}, c.Records source → ∀ i ≤ Position.limit,
    i ≤ (rule.land m c i).index ∨ (rule.land m c i).index = n

variable {source : σ} {n : Nat}

theorem conforms_exact : Conforms exact source n := by
  intro m c _ i _
  exact .inl (Nat.le_refl i)

theorem conforms_onChannel (hn : EndsAt source n) (channel : UInt32) :
    Conforms (onChannel channel) source n := by
  intro m c hc i _
  have hle := (hc.isFirstOn_nextOn hn i channel).le
  have hend := hc.nextOn_fst_le hn i channel
  change i ≤ (c.nextOn i channel).1 ∨ (c.nextOn i channel).1 = n
  omega

theorem Conforms.logged {rule : LandingRule σ τ μ} (h : rule.Conforms source n) :
    rule.logged.Conforms source n := by
  intro m c hc i hi
  exact h m.1 hc i hi

end LandingRule

namespace TokenStream

variable {σ τ μ : Type} [Token τ] [TokenSource σ τ] {rule : LandingRule σ τ μ}

/--
Whatever is asked of the stream first, sent to an index it lands there, after it, or on the end of
the input at `n`.
-/
def Conforms (s : TokenStream rule) (n : Nat) : Prop :=
  ∀ (requests : List (Request τ)), ∀ i ≤ Position.limit,
    let t := (s.answers requests).2.seek i
    i ≤ t.index ∨ t.index = n

theorem Conforms.answer {s : TokenStream rule} {n : Nat} (h : s.Conforms n) (request : Request τ) :
    (s.answer request).2.Conforms n := fun requests => h (request :: requests)

theorem Conforms.consume {s : TokenStream rule} {n : Nat} (h : s.Conforms n) :
    s.consume.2.Conforms n := h.answer .consume

theorem Conforms.moveTo_ensure {s : TokenStream rule} {n : Nat} (h : s.Conforms n) {i : Nat}
    (hi : i ≤ Position.limit) :
    let t := (s.prime.withTape (s.prime.tape.ensure i)).moveTo i
    i ≤ t.index ∨ t.index = n := by
  have hprime : (s.prime.withTape (s.prime.tape.ensure i)).prime =
      s.prime.withTape (s.prime.tape.ensure i) := prime_of_isSome s.isSome_cursor_prime
  rw [← hprime]
  -- Looking behind primes the stream and does nothing else.
  exact h [.behind 0, .reach i] i hi

theorem Reachable.conforms {source : σ} {n : Nat} {s : TokenStream rule}
    (hs : Reachable rule source s) (h : rule.Conforms source n) : s.Conforms n := by
  intro requests i hi
  exact h _ (hs.answers requests).records_prime i hi

section Steps

variable {source : σ} {n : Nat} {s : TokenStream rule}
variable (hs : Reachable rule source s) (hn : EndsAt source n) (hk : KindTells source)

include hs hn hk

theorem Reachable.lt_index_consume (hr : s.Conforms n) (h : s.prime.index < n) :
    s.prime.index < s.consume.2.index := by
  have hlimit := hn.lt_limit
  have hland := hr.moveTo_ensure (i := s.prime.index + 1) (by omega)
  rw [← hs.consume_snd_of_lt hn hk h] at hland
  dsimp only at hland
  omega

theorem Reachable.prime_consume_of_lt (h : s.prime.index < n) :
    s.consume.2.prime = s.consume.2 := by
  rw [hs.consume_snd_of_lt hn hk h]
  rw [prime_moveTo]

theorem Reachable.answers_consume_of_le (h : n ≤ s.prime.index) (k : Nat) :
    (s.answers (List.replicate k .consume)).1 = List.replicate k (.refused .consumeEof) := by
  induction k generalizing s with
  | zero => rfl
  | succ k ih =>
    have herror := (hs.consume_eq_error_iff hn hk).mpr h
    have hanswer := answer_consume_of_error (Prod.ext herror rfl : s.consume = (_, s.consume.2))
    have hindex := (hs.grows_consume_of_le hn h).index_prime_eq
    rw [List.replicate_succ]
    rw [List.replicate_succ]
    unfold TokenStream.answers
    rw [hanswer]
    dsimp only
    rw [ih hs.consume]
    omega

/--
So many steps are granted one after the other, at most as many as there are tokens left, and from
then on none.
-/
theorem Reachable.answers_consume (hr : s.Conforms n) :
    ∃ granted ≤ n - s.prime.index, ∀ k, (s.answers (List.replicate k .consume)).1 =
      List.replicate (min k granted) .done ++
        List.replicate (k - granted) (.refused .consumeEof) := by
  -- The induction is on the number of tokens left, which every granted step makes less.
  generalize hleft : n - s.prime.index = left
  induction left using Nat.strongRecOn generalizing s with
  | ind left ih =>
    by_cases h : n ≤ s.prime.index
    . refine ⟨0, Nat.zero_le _, ?_⟩
      intro k
      rw [hs.answers_consume_of_le hn hk h]
      simp
    . have hlt : s.prime.index < n := by omega
      have hnext := hs.lt_index_consume hn hk hr hlt
      have hok := (hs.consume_eq_ok_iff hn hk).mpr hlt
      have hanswer := answer_consume_of_ok (Prod.ext hok rfl : s.consume = (_, s.consume.2))
      rw [← hs.prime_consume_of_lt hn hk hlt] at hnext
      obtain ⟨granted, hle, hrest⟩ := ih _ (by omega) hs.consume hr.consume rfl
      refine ⟨granted + 1, by omega, ?_⟩
      intro k
      cases k with
      | zero => simp [TokenStream.answers]
      | succ k =>
        have hmin : min (k + 1) (granted + 1) = min k granted + 1 := by omega
        rw [List.replicate_succ]
        unfold TokenStream.answers
        rw [hanswer]
        dsimp only
        rw [hrest]
        rw [hmin]
        rw [Nat.add_sub_add_right]
        rfl

theorem Reachable.stepOn_of_conforms (hr : s.Conforms n) {rounds : Nat}
    (hrounds : n - s.prime.index ≤ rounds) :
    ∃ indices : List Nat, (s.stepOn rounds).1 = indices.map (fun i => (.ok (), i)) ∧
      (s.prime.index :: indices).Pairwise (· < ·) ∧ indices.length ≤ n - s.prime.index ∧
      ((s.stepOn rounds).2.look 1).1 = Symbol.eof := by
  have hlook := hs.look_one_eq_eof_iff hn hk
  induction rounds generalizing s with
  | zero => exact ⟨[], rfl, List.pairwise_singleton .., Nat.zero_le _, hlook.mpr (by omega)⟩
  | succ rounds ih =>
    by_cases heof : (s.look 1).1 = Symbol.eof
    . rw [stepOn_of_eof heof]
      refine ⟨[], rfl, List.pairwise_singleton .., Nat.zero_le _, ?_⟩
      dsimp only
      rwa [look_look]
    . have hlt : s.prime.index < n := by
        rw [hlook] at heof
        omega
      have hnext := hs.lt_index_consume hn hk hr hlt
      have hprime := hs.prime_consume_of_lt hn hk hlt
      have hafter := hr.consume
      rw [consume_of_ne_eof heof] at hnext hprime hafter
      have hreach := hs.step_of_ne_eof heof
      obtain ⟨indices, hread, hsorted, hlength, hend⟩ :=
        ih hreach hafter (by rw [hprime]; omega) (hreach.look_one_eq_eof_iff hn hk)
      rw [hprime] at hsorted hlength
      rw [stepOn_of_ne_eof heof]
      refine ⟨s.step.index :: indices, ?_, ?_, ?_, hend⟩
      . rw [hread]
        rfl
      . refine List.Pairwise.cons ?_ hsorted
        intro i hi
        rcases List.mem_cons.mp hi with rfl | hi
        . exact hnext
        . exact Nat.lt_trans hnext (List.rel_of_pairwise_cons hsorted hi)
      . rw [List.length_cons]
        omega

end Steps

/--
For a stream that conforms every step that is granted leads on. Of the steps tried one after the
other at most as many are granted as there are tokens left before the end of the input, and after the
first that is refused all are. Stepping on until lookahead finds the end does find it, at growing
indices and within that many steps.
-/
theorem ends_of_conforms {source : σ} {n : Nat} (hn : EndsAt source n) (hk : KindTells source)
    {s : TokenStream rule} (hs : Reachable rule source s) (hr : s.Conforms n) :
    (s.consume.1 = .ok () → s.prime.index < s.consume.2.index) ∧
      (∃ granted ≤ n - s.prime.index, ∀ k, (s.answers (List.replicate k .consume)).1 =
        List.replicate (min k granted) .done ++
          List.replicate (k - granted) (.refused .consumeEof)) ∧
      ∀ rounds ≥ n - s.prime.index,
        ∃ indices : List Nat, (s.stepOn rounds).1 = indices.map (fun i => (.ok (), i)) ∧
          (s.prime.index :: indices).Pairwise (· < ·) ∧ indices.length ≤ n - s.prime.index ∧
          ((s.stepOn rounds).2.look 1).1 = Symbol.eof := by
  refine ⟨?_, hs.answers_consume hn hk hr, ?_⟩
  . intro hok
    exact hs.lt_index_consume hn hk hr ((hs.consume_eq_ok_iff hn hk).mp hok)
  . intro rounds hrounds
    exact hs.stepOn_of_conforms hn hk hr hrounds

theorem ends_of_conforms_with_memory :
    let source : Replay :=
      ⟨#[⟨1, "x", 0, 0, 0, 0⟩, ⟨2, " ", 1, 0, 1, 1⟩, ⟨1, "y", 0, 0, 2, 2⟩, ⟨3, "#", 2, 0, 3, 3⟩,
        ⟨2, " ", 1, 0, 4, 4⟩], 0, ""⟩
    let rule : LandingRule Replay PlainToken (Unit × Array Nat) := (LandingRule.onChannel 0).logged
    let s : TokenStream rule := ((ofSource rule ((), #[]) source {}).answers [.seek 1]).2
    EndsAt source 5 ∧ KindTells source ∧ Reachable rule source s ∧ s.Conforms 5 ∧
      s.prime.index = 2 ∧ s.memory.2 = #[0, 1] ∧ s.consume.1 = .ok () ∧ 2 < s.consume.2.index ∧
      (∃ granted ≤ 3, ∀ k, (s.answers (List.replicate k .consume)).1 =
        List.replicate (min k granted) .done ++
          List.replicate (k - granted) (.refused .consumeEof)) ∧
      ((s.stepOn 3).2.look 1).1 = Symbol.eof := by
  intro source rule s
  have hn : EndsAt source 5 := by
    constructor <;> decide
  have hk := TokenSource.kindTells_of_plain source
  have hs : Reachable rule source s := (Reachable.ofSource ((), #[]) {}).answers [.seek 1]
  have hr : s.Conforms 5 := hs.conforms (LandingRule.conforms_onChannel hn 0).logged
  have hindex : s.prime.index = 2 := by decide +kernel
  obtain ⟨hlt, hsteps, hloop⟩ := ends_of_conforms hn hk hs hr
  have hok : s.consume.1 = .ok () := (hs.consume_eq_ok_iff hn hk).mpr (by omega)
  rw [hindex] at hlt hsteps hloop
  obtain ⟨-, -, -, -, hend⟩ := hloop 3 (Nat.le_refl 3)
  exact ⟨hn, hk, hs, hr, hindex, by decide +kernel, hok, hlt hok, hsteps, hend⟩

end TokenStream

end Lookahead
