import Lookahead.Proofs.Tape.Extent

/-!
This module contains the rounds of draining: how many it takes until one comes short, and that one
does come short, so that the loop ends by itself.
-/

namespace Lookahead

def Event.isRound : Event → Bool
  | .drained .. => true
  | _ => false

namespace Tape

open TokenSource (EndsAt)

variable {σ τ : Type} [Token τ] [TokenSource σ τ]

/--
The tape after one round of draining.
-/
def round (chunk : Nat) (c : Tape σ τ) : Tape σ τ :=
  let (fetched, c) := c.pull chunk
  c.note (.drained fetched c.size)

/--
Round after round, however many it takes until one comes short, there are `k` rounds from `c` on and
`d` is left.
-/
inductive Drains (chunk : Nat) : Nat → Tape σ τ → Tape σ τ → Prop where
  | last {c : Tape σ τ} : (c.pull chunk).1 < chunk → Drains chunk 1 c (c.round chunk)
  | more {k : Nat} {c d : Tape σ τ} : chunk ≤ (c.pull chunk).1 → Drains chunk k (c.round chunk) d →
    Drains chunk (k + 1) c d

/--
How many rounds of draining the tape has on record.
-/
def rounds (c : Tape σ τ) : Nat := c.journal.countP Event.isRound

theorem rounds_pullNext (c : Tape σ τ) : c.pullNext.rounds = c.rounds := by
  unfold pullNext rounds
  dsimp only
  split
  . rw [Array.countP_push]
    rfl
  . rfl

theorem rounds_advance (n : Nat) (c : Tape σ τ) : (c.advance n).rounds = c.rounds := by
  induction n generalizing c with
  | zero => rfl
  | succ n ih =>
    unfold advance
    split
    . rfl
    . rw [ih]
      apply rounds_pullNext

theorem Reaches.rounds_eq {c d : Tape σ τ} (h : c.Reaches d) : d.rounds = c.rounds := by
  obtain ⟨n, rfl⟩ := h
  apply rounds_advance

theorem rounds_round (chunk : Nat) (c : Tape σ τ) : (c.round chunk).rounds = c.rounds + 1 := by
  rw [← rounds_advance chunk c]
  unfold round note rounds
  rw [Array.countP_push]
  rfl

namespace Drains

variable {chunk k : Nat} {c d : Tape σ τ}

theorem rounds_eq (h : Drains chunk k c d) : d.rounds = c.rounds + k := by
  induction h with
  | last _ => apply rounds_round
  | more _ _ ih =>
    rw [ih]
    rw [rounds_round]
    omega

/--
With room for as many rounds as there are, the bound on their number makes no difference.
-/
theorem go_eq (h : Drains chunk k c d) {room : Nat} (hroom : k ≤ room) :
    drain.go chunk room c = d := by
  induction h generalizing room with
  | last hshort =>
    obtain ⟨room, rfl⟩ := Nat.exists_eq_add_of_le' hroom
    unfold drain.go
    exact if_pos hshort
  | more hfull _ ih =>
    obtain ⟨room, rfl⟩ := Nat.exists_eq_add_of_le' (Nat.le_of_add_left_le hroom)
    unfold drain.go
    dsimp only
    rw [if_neg (Nat.not_lt_of_le hfull)]
    apply ih
    omega

end Drains

namespace Records

variable {source : σ} {n : Nat} {c : Tape σ τ}

theorem round (h : Records source c) (chunk : Nat) : Records source (c.round chunk) := by
  apply h.grows
  apply Grows.note
  apply grows_advance

theorem size_round (h : Records source c) (hn : EndsAt source n) (chunk : Nat) :
    (c.round chunk).size = min (c.size + chunk) (n + 1) := h.size_advance hn chunk

theorem pull_fst (h : Records source c) (hn : EndsAt source n) (chunk : Nat) :
    (c.pull chunk).1 = min chunk (n + 1 - c.size) := by
  have hsize := h.size_advance hn chunk
  unfold pull
  dsimp only
  omega

/--
Every full round takes a chunk off what is left, and the rest comes as the short round that is the
last.
-/
theorem exists_drains (h : Records source c) (hn : EndsAt source n) {chunk : Nat}
    (hchunk : 0 < chunk) :
    ∃ d, Drains chunk ((n + 1 - c.size) / chunk + 1) c d ∧ d.size = n + 1 := by
  generalize hleft : n + 1 - c.size = left
  induction left using Nat.strongRecOn generalizing c with
  | ind left ih =>
    have hle := h.size_le hn
    have hsize := h.size_round hn chunk
    have hfetched := h.pull_fst hn chunk
    rcases Nat.lt_or_ge left chunk with hlt | hge
    . refine ⟨c.round chunk, ?_, by omega⟩
      rw [Nat.div_eq_of_lt hlt]
      apply Drains.last
      omega
    . obtain ⟨d, hrest, hend⟩ := ih (left - chunk) (by omega) (h.round chunk) (by omega)
      refine ⟨d, ?_, hend⟩
      rw [Nat.div_eq_sub_div hchunk hge]
      apply Drains.more _ hrest
      omega

theorem drains_drain (h : Records source c) (hn : EndsAt source n) {chunk : Nat}
    (hchunk : 0 < chunk) :
    Drains chunk ((n + 1 - c.size) / chunk + 1) c (c.drain chunk) ∧ (c.drain chunk).size = n + 1 := by
  obtain ⟨d, hrounds, hsize⟩ := h.exists_drains hn hchunk
  have hlimit := hn.lt_limit
  have hdiv := Nat.div_le_self (n + 1 - c.size) chunk
  have heq : c.drain chunk = d := by
    apply hrounds.go_eq
    omega
  rw [heq]
  exact ⟨hrounds, hsize⟩

end Records

/--
At the end of the input draining is one round that brings nothing.
-/
theorem drain_of_exhausted {c : Tape σ τ} (h : c.exhausted) {chunk : Nat} (hchunk : 0 < chunk) :
    c.drain chunk = c.note (.drained 0 c.size) := by
  have hpull : c.pull chunk = (0, c) := by
    unfold pull
    rw [advance_of_exhausted h]
    simp
  have hlast : Drains chunk 1 c (c.round chunk) := by
    apply Drains.last
    rw [hpull]
    exact hchunk
  unfold drain
  rw [hlast.go_eq (by decide)]
  unfold round
  rw [hpull]

end Tape

end Lookahead
