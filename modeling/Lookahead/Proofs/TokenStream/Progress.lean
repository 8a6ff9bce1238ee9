import Lookahead.Proofs.TokenSource.Listed
import Lookahead.Proofs.TokenStream.Looking

/-!
This module contains the progress of streams. A consumer that steps on until lookahead finds the end
of the input gets on by every step as long as the stream is before the end, and there it stops, if
the kind of the end says so. If it does not, every further step is granted and none gets on.
-/

namespace Lookahead

namespace TokenStream

open TokenSource (EndsAt KindOfEof nth)

variable {σ τ μ : Type} [Token τ] [TokenSource σ τ]

/--
Step over up to `rounds` tokens, until lookahead finds the end of the input: how each step went, with
the index after it, and the stream in the end.
-/
def stepOn {rule : LandingRule σ τ μ} :
    Nat → TokenStream rule → List (Except Fault Unit × Nat) × TokenStream rule
  | 0, s => ([], s)
  | rounds + 1, s =>
    let (symbol, s) := s.look 1
    if symbol = Symbol.eof then
      ([], s)
    else
      let (outcome, s) := s.consume
      let (rest, t) := stepOn rounds s
      ((outcome, s.index) :: rest, t)

section Rounds

variable {rule : LandingRule σ τ μ} {s : TokenStream rule}

theorem stepOn_of_eof (h : (s.look 1).1 = Symbol.eof) (rounds : Nat) :
    s.stepOn (rounds + 1) = ([], (s.look 1).2) := by
  rw [stepOn]
  dsimp only
  rw [if_pos h]

theorem stepOn_of_ne_eof (h : (s.look 1).1 ≠ Symbol.eof) (rounds : Nat) :
    s.stepOn (rounds + 1) =
      ((.ok (), s.step.index) :: (s.step.stepOn rounds).1, (s.step.stepOn rounds).2) := by
  rw [stepOn]
  dsimp only
  rw [if_neg h]
  rw [consume_look_of_ne_eof h]

end Rounds

section Step

variable {rule : LandingRule σ τ μ} {source : σ} {s : TokenStream rule}

theorem Reachable.step_of_ne_eof (hs : Reachable rule source s)
    (h : (s.look 1).1 ≠ Symbol.eof) : Reachable rule source s.step := by
  have hconsume := hs.consume
  rwa [consume_of_ne_eof h] at hconsume

theorem consume_snd_of_ok (h : s.consume.1 = .ok ()) : s.consume.2 = s.step := by
  rcases s.consume_cases with ⟨hconsume, -⟩ | ⟨hconsume, -⟩
  . rw [hconsume]
  . rw [hconsume] at h
    contradiction

end Step

section Exact

variable {source : σ} {s : TokenStream (LandingRule.exact (σ := σ) (τ := τ))}

theorem Reachable.index_step_of_open (hs : Reachable .exact source s)
    (hp : s.index + 1 < Position.limit)
    (hopen : ∀ i ≤ s.index, Token.isEof (nth source i) = false) : s.step.index = s.index + 1 := by
  have hprime := index_prime_of_exact (s := s)
  rw [← hprime] at hp hopen ⊢
  rw [hs.step_of_open hp hopen]
  rfl

theorem Reachable.index_step_of_le {n : Nat} (hs : Reachable .exact source s)
    (hn : EndsAt source n) (h : n ≤ s.index) : s.step.index = s.index := by
  rw [index_step_of_exact hs hn]
  rw [if_neg (Nat.not_lt_of_le h)]

theorem Reachable.look_one_of_le {n : Nat} (hs : Reachable .exact source s)
    (hn : EndsAt source n) (h : n ≤ s.index) : (s.look 1).1 = Token.kind (nth source n) := by
  rw [← index_prime_of_exact] at h
  exact look_fst_of_peek (hs.peek_one_of_le hn h)

/--
A step from where the input has ended goes nowhere, any other to the next index.
-/
theorem Reachable.index_step_eq_succ_iff (hs : Reachable .exact source s)
    (h : s.index + 1 < Position.limit ∨ ∃ n, EndsAt source n) :
    (s.step.index = s.index + 1 ↔ ¬∃ n ≤ s.index, EndsAt source n) ∧
      ((∃ n ≤ s.index, EndsAt source n) → s.step.index = s.index) := by
  rcases TokenSource.endsAt_le_or h with ⟨n, hle, hn⟩ | ⟨hp, hopen⟩
  . have hstep := hs.index_step_of_le hn hle
    refine ⟨⟨?_, ?_⟩, fun _ => hstep⟩
    . omega
    . exact fun hnot => absurd ⟨n, hle, hn⟩ hnot
  . have hstep := hs.index_step_of_open hp hopen
    have hnot : ¬∃ n ≤ s.index, EndsAt source n := by
      rintro ⟨n, hle, hn⟩
      have := hopen n hle
      rw [hn.isEof_nth] at this
      contradiction
    exact ⟨⟨fun _ => hnot, fun _ => hstep⟩, fun h => absurd h hnot⟩

/--
Past an end of the input whose kind is another one the steps are granted one after the other and the
stream stays where it is.
-/
theorem Reachable.stepOn_of_le {n : Nat} (hs : Reachable .exact source s) (hn : EndsAt source n)
    (hkind : Token.kind (nth source n) ≠ Symbol.eof) (h : n ≤ s.index) (rounds : Nat) :
    (s.stepOn rounds).1 = List.replicate rounds (.ok (), s.index) := by
  induction rounds generalizing s with
  | zero => rfl
  | succ rounds ih =>
    have hlook : (s.look 1).1 ≠ Symbol.eof := by
      rw [hs.look_one_of_le hn h]
      exact hkind
    have hindex := hs.index_step_of_le hn h
    rw [stepOn_of_ne_eof hlook]
    rw [ih (hs.step_of_ne_eof hlook) (by omega)]
    rw [hindex]
    rfl

theorem Reachable.index_step_of_ne_eof (hs : Reachable .exact source s)
    (hk : KindOfEof source) (h : s.index + 1 < Position.limit ∨ ∃ n, EndsAt source n)
    (hlook : (s.look 1).1 ≠ Symbol.eof) : s.step.index = s.index + 1 := by
  apply (hs.index_step_eq_succ_iff h).1.mpr
  rintro ⟨n, hle, hn⟩
  rw [hs.look_one_of_le hn hle] at hlook
  exact hlook (hk n hn.isEof_nth)

theorem Reachable.stepOn_of_kindOfEof (hs : Reachable .exact source s) (hk : KindOfEof source)
    {rounds : Nat} (h : s.index + rounds < Position.limit ∨ ∃ n, EndsAt source n) :
    ∃ k ≤ rounds, (s.stepOn rounds).1 = (List.range' (s.index + 1) k).map fun i => (.ok (), i) := by
  induction rounds generalizing s with
  | zero => exact ⟨0, Nat.le_refl 0, rfl⟩
  | succ rounds ih =>
    by_cases hlook : (s.look 1).1 = Symbol.eof
    . refine ⟨0, Nat.zero_le _, ?_⟩
      rw [stepOn_of_eof hlook]
      rfl
    . have hindex := hs.index_step_of_ne_eof hk (h.imp_left (by omega)) hlook
      obtain ⟨k, hle, hrest⟩ := ih (hs.step_of_ne_eof hlook) (h.imp_left (by omega))
      refine ⟨k + 1, by omega, ?_⟩
      rw [stepOn_of_ne_eof hlook]
      rw [hrest]
      rw [hindex]
      rfl

end Exact

/--
A consume that is granted leads to the next index, unless the input has ended and the kind of its end
does not say so: then all goes on being granted and the stream stays where it is. With a source whose
end is of the kind it should be, stepping on goes from index to index and never stays.
-/
theorem index_consume_of_ok {source : σ} {s : TokenStream (LandingRule.exact (σ := σ) (τ := τ))}
    (hs : Reachable .exact source s)
    (h : s.index + 1 < Position.limit ∨ ∃ n, EndsAt source n) :
    (s.consume.1 = .ok () →
      (s.consume.2.index = s.index + 1 ↔ ¬∃ n ≤ s.index, EndsAt source n) ∧
        ((∃ n ≤ s.index, EndsAt source n) → s.consume.2.index = s.index)) ∧
      (∀ n ≤ s.index, EndsAt source n → Token.kind (nth source n) ≠ Symbol.eof →
        s.consume.1 = .ok () ∧
          ∀ rounds, (s.stepOn rounds).1 = List.replicate rounds (.ok (), s.index)) ∧
      (KindOfEof source →
        (s.consume.1 = .ok () → s.consume.2.index = s.index + 1) ∧
          ∀ rounds, (s.index + rounds < Position.limit ∨ ∃ n, EndsAt source n) →
            ∃ k ≤ rounds, (s.stepOn rounds).1 =
              (List.range' (s.index + 1) k).map fun i => (.ok (), i)) := by
  refine ⟨?_, ?_, ?_⟩
  . intro hok
    rw [consume_snd_of_ok hok]
    exact hs.index_step_eq_succ_iff h
  . intro n hle hn hkind
    have hlook : (s.look 1).1 ≠ Symbol.eof := by
      rw [hs.look_one_of_le hn hle]
      exact hkind
    refine ⟨?_, hs.stepOn_of_le hn hkind hle⟩
    rw [consume_of_ne_eof hlook]
  . intro hk
    refine ⟨?_, fun rounds hrounds => hs.stepOn_of_kindOfEof hk hrounds⟩
    intro hok
    rw [consume_snd_of_ok hok]
    apply (hs.index_step_eq_succ_iff h).1.mpr
    rintro ⟨n, hle, hn⟩
    have hlook := hs.look_one_of_le hn hle
    rw [hk n hn.isEof_nth] at hlook
    rw [← index_prime_of_exact] at hle
    rw [consume_of_eof (hs.canStep_of_le hn hle) hlook] at hok
    contradiction

theorem index_consume_of_ok_over_unmarked :
    let source : Listed :=
      ⟨#[⟨7, "a", 0, none, none⟩, ⟨Symbol.eof, "b", 1, some false, none⟩,
        ⟨Symbol.eof, "c", 2, some true, none⟩], 0⟩
    let s : TokenStream (μ := Unit) .exact := ((ofSource .exact () source {}).answers [.consume]).2
    Reachable .exact source s ∧ EndsAt source 2 ∧ KindOfEof source ∧ s.index = 1 ∧
      s.consume.1 = .ok () ∧ s.consume.2.index = 2 ∧
      ∃ k ≤ 9, (s.stepOn 9).1 = (List.range' 2 k).map fun i => (.ok (), i) := by
  intro source s
  have hs : Reachable .exact source s := (Reachable.ofSource () {}).answers [.consume]
  have hn : EndsAt source 2 := by
    constructor <;> decide
  have hk : KindOfEof source := Listed.kindOfEof (by decide)
  have hindex : s.index = 1 := by decide
  have hstep : s.canStep = true := by decide
  have hok : s.consume.1 = .ok () := by
    unfold consume
    rw [if_pos hstep]
  obtain ⟨-, -, hkind⟩ := index_consume_of_ok hs (.inr ⟨2, hn⟩)
  obtain ⟨hnext, hloop⟩ := hkind hk
  have hnext := hnext hok
  have hloop := hloop 9 (.inr ⟨2, hn⟩)
  rw [hindex] at hnext hloop
  exact ⟨hs, hn, hk, hindex, hok, hnext, hloop⟩

/--
On an end of the input of another kind a new stream consumes again and again without getting on.
-/
theorem consume_stays :
    let source : Listed := ⟨#[⟨5, "END", 0, some true, none⟩], 0⟩
    let fresh : TokenStream (μ := Unit) .exact := ofSource .exact () source {}
    Reachable .exact source fresh ∧ EndsAt source 0 ∧ fresh.prime.index = 0 ∧
      fresh.consume.1 = .ok () ∧ fresh.consume.2.index = 0 ∧
      ∀ rounds, (fresh.stepOn rounds).1 = List.replicate rounds (.ok (), 0) := by
  intro source fresh
  have hs : Reachable .exact source fresh := .ofSource () {}
  have hn : EndsAt source 0 := by
    constructor <;> decide
  have hindex : fresh.prime.index = 0 := by decide
  have hok : fresh.consume.1 = .ok () := rfl
  have hstay : fresh.consume.2.index = 0 := by decide
  refine ⟨hs, hn, hindex, hok, hstay, ?_⟩
  exact hs.stepOn_of_le hn (by decide) (Nat.le_refl 0)

end TokenStream

end Lookahead
