import Lookahead.Proofs.Tape.Search
import Lookahead.Proofs.TokenStream.Move

/-!
This module contains where the cursor of a stream can rest: only where the rule has landed, which for
the rules that settle is where the rule stays. And unless it is sent further by a seek, a cursor that
rests on a token on the tape goes on to rest on one.
-/

namespace Lookahead

open TokenSource (EndsAt)

namespace LandingRule

variable {σ τ μ : Type} [Token τ] [TokenSource σ τ]

/--
Sent to where it has landed, the rule lands there again, whatever it remembers and however much of the
source is on the tape by then.
-/
def Settles (rule : LandingRule σ τ μ) (source : σ) : Prop :=
  ∀ {c d : Tape σ τ}, c.Records source → d.Records source → ∀ (m m' : μ) (i : Nat),
    (rule.land m' d (rule.land m c i).index).index = (rule.land m c i).index

/--
Sent to a token on the tape, the rule lands on a token on the tape.
-/
def StaysOnTape (rule : LandingRule σ τ μ) (source : σ) : Prop :=
  ∀ {c : Tape σ τ}, c.Records source → ∀ (m : μ) (i : Nat), i < c.size →
    (rule.land m c i).index < (rule.land m c i).tape.size

variable {source : σ} {n : Nat}

theorem settles_exact : Settles exact source := by
  intro c d _ _ m m' i
  rfl

theorem settles_onChannel (hn : EndsAt source n) (channel : UInt32) :
    Settles (onChannel channel) source := by
  intro c d hc hd m m' i
  have hfirst := hc.isFirstOn_nextOn hn i channel
  have hagain := hd.isFirstOn_nextOn hn (c.nextOn i channel).1 channel
  rw [Nat.min_eq_left (hc.nextOn_fst_le hn i channel)] at hagain
  change (d.nextOn (c.nextOn i channel).1 channel).1 = (c.nextOn i channel).1
  apply hagain.unique
  exact ⟨Nat.le_refl _, hfirst.isOn, by omega⟩

theorem staysOnTape_exact : StaysOnTape exact source := by
  intro c _ m i hi
  exact hi

theorem staysOnTape_onChannel (hn : EndsAt source n) (channel : UInt32) :
    StaysOnTape (onChannel channel) source := by
  intro c hc m i hi
  apply hc.nextOn_fst_lt_size hn

end LandingRule

namespace TokenStream

variable {σ τ μ : Type} [Token τ] [TokenSource σ τ] {rule : LandingRule σ τ μ}
variable {source : σ} {n : Nat} {s t : TokenStream rule}

section Landed

/--
The cursor, if there is one, is where the rule has landed at some time.
-/
def HasLanded (source : σ) (s : TokenStream rule) : Prop :=
  ∀ p, s.cursor = some p →
    ∃ (m : μ) (c : Tape σ τ) (i : Nat), c.Records source ∧ (rule.land m c i).index = p

theorem hasLanded_moveTo (h : s.tape.Records source) (i : Nat) : (s.moveTo i).HasLanded source := by
  intro p hp
  exact ⟨s.memory, s.tape, i, h, Option.some.inj hp⟩

theorem HasLanded.grows (h : s.HasLanded source) (hg : s.Grows t) : t.HasLanded source := by
  intro p hp
  rw [hg.cursor_eq] at hp
  exact h p hp

theorem Reachable.hasLanded (hs : Reachable rule source s) : s.HasLanded source := by
  apply hs.induction
  . intro memory settings p hp
    contradiction
  . intro s t hg h
    exact h.grows hg
  . intro s i hr _
    exact hasLanded_moveTo hr i

/--
Sent to where one stream over the source rests, any other comes to rest there too.
-/
theorem Reachable.index_seek_index (hs : Reachable rule source s) (ht : Reachable rule source t)
    (hr : rule.Settles source) (hsome : s.cursor.isSome) : (t.seek s.index).index = s.index := by
  obtain ⟨p, hp⟩ := Option.isSome_iff_exists.mp hsome
  obtain ⟨m, c, i, hc, hland⟩ := hs.hasLanded p hp
  have hindex : s.index = p := by
    unfold index
    rw [hp]
    rfl
  unfold seek
  rw [index_moveTo]
  rw [hindex]
  rw [← hland]
  exact hr hc ht.records_prime m t.prime.memory i

end Landed

section OnTape

/--
The stream is on a token that is on the tape.
-/
structure OnTape (s : TokenStream rule) : Prop where
  isSome : s.cursor.isSome
  index_lt_size : s.index < s.size

theorem OnTape.grows (h : s.OnTape) (hg : s.Grows t) : t.OnTape where
  isSome := by
    rw [hg.cursor_eq]
    exact h.isSome
  index_lt_size := by
    rw [hg.index_eq]
    exact Nat.lt_of_lt_of_le h.index_lt_size hg.tape.size_le

theorem OnTape.prime_eq (h : s.OnTape) : s.prime = s := prime_of_isSome h.isSome

theorem OnTape.step (h : s.OnTape) (hs : Reachable rule source s) (hn : EndsAt source n)
    (hr : rule.StaysOnTape source) : s.step.OnTape := by
  have hprime := h.prime_eq
  by_cases hlt : s.prime.index < n
  . have hd := hs.records_prime.grows (s.prime.tape.grows_ensure (s.prime.index + 1))
    have hsize := hs.records_prime.size_ensure hn (s.prime.index + 1)
    rw [hs.step_of_lt hn hlt]
    refine ⟨rfl, ?_⟩
    apply hr hd
    omega
  . have hgrows := hs.grows_step_of_le hn (Nat.le_of_not_lt hlt)
    rw [hprime] at hgrows
    exact h.grows hgrows

theorem OnTape.answer (h : s.OnTape) (hs : Reachable rule source s) (hn : EndsAt source n)
    (hr : rule.StaysOnTape source) {request : Request τ} (hseek : ∀ i, request ≠ .seek i) :
    (s.answer request).2.OnTape := by
  rcases s.answer_cases request with hg | hg | ⟨-, ht⟩ | ⟨i, hi, -⟩
  . exact h.grows hg
  . rw [h.prime_eq] at hg
    exact h.grows hg
  . rw [ht]
    exact h.step hs hn hr
  . exact absurd hi (hseek i)

end OnTape

end TokenStream

end Lookahead
