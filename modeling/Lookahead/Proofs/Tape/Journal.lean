import Lookahead.Proofs.Tape.Rounds

/-!
This module contains what tapes put on record. Coming to the end of the input is recorded when it
happens and so at most once, whatever makes the tape advance. Draining records its rounds besides, each
after the end if that is what the round has come to.
-/

namespace Lookahead

def Event.isEnd : Event → Bool
  | .exhausted .. => true
  | _ => false

namespace Tape

open TokenSource (EndsAt)

variable {σ τ : Type} [TokenSource σ τ]

/--
What is recorded when a tape comes to the end of the input, if that is the token at `n` of the source.
-/
def theEnd (source : σ) (n : Nat) : Event :=
  .exhausted (n + 1) (TokenSource.name (TokenSource.after (n + 1) source))

/--
What is recorded when a tape advances from `c` to `d`: the end of the input if `d` is the one that has
come to it.
-/
def ending (source : σ) (n : Nat) (c d : Tape σ τ) : List Event :=
  if !c.exhausted && d.exhausted then [theEnd source n] else []

/--
What is recorded in a round of draining that brings `fetched` tokens to a tape with `size` of them.
-/
def roundRecord (source : σ) (n size fetched : Nat) : List Event :=
  (if 0 < fetched ∧ size + fetched = n + 1 then [theEnd source n] else []) ++
    [.drained fetched (size + fetched)]

/--
What is recorded in rounds that bring so many tokens each, the first of them to a tape with `size`.
-/
def roundsRecord (source : σ) (n : Nat) : Nat → List Nat → List Event
  | _, [] => []
  | size, fetched :: rest =>
    roundRecord source n size fetched ++ roundsRecord source n (size + fetched) rest

/--
How many tokens the rounds bring in which `left` tokens are asked for in chunks: full chunks as long as
there are any, and then the rest, which may be nothing.
-/
def chunked (chunk left : Nat) : List Nat := List.replicate (left / chunk) chunk ++ [left % chunk]

section Chunked

theorem chunked_of_lt {chunk left : Nat} (h : left < chunk) : chunked chunk left = [left] := by
  unfold chunked
  rw [Nat.div_eq_of_lt h]
  rw [Nat.mod_eq_of_lt h]
  rfl

theorem chunked_of_le {chunk left : Nat} (hchunk : 0 < chunk) (h : chunk ≤ left) :
    chunked chunk left = chunk :: chunked chunk (left - chunk) := by
  unfold chunked
  rw [Nat.div_eq_sub_div hchunk h]
  rw [Nat.mod_eq_sub_mod h]
  rw [List.replicate_succ]
  rfl

end Chunked

theorem ending_self (source : σ) (n : Nat) (c : Tape σ τ) : ending source n c c = [] := by
  unfold ending
  cases c.exhausted <;> rfl

theorem filter_ending (source : σ) (n : Nat) (c d : Tape σ τ) :
    (ending source n c d).filter Event.isEnd = ending source n c d := by
  unfold ending
  split <;> rfl

theorem theEnd_mem_ending_iff {source : σ} {n : Nat} {c d : Tape σ τ} :
    theEnd source n ∈ ending source n c d ↔ c.exhausted = false ∧ d.exhausted = true := by
  unfold ending
  cases c.exhausted <;> cases d.exhausted <;> simp

theorem isRound_of_mem_ending {source : σ} {n : Nat} {c d : Tape σ τ} {e : Event}
    (h : e ∈ ending source n c d) : e.isRound = false := by
  unfold ending at h
  split at h
  . rw [List.mem_singleton.mp h]
    rfl
  . contradiction

section Rounds

theorem roundsRecord_singleton (source : σ) (n size fetched : Nat) :
    roundsRecord source n size [fetched] = roundRecord source n size fetched := List.append_nil _

theorem filter_roundRecord (source : σ) (n size fetched : Nat) :
    (roundRecord source n size fetched).filter Event.isEnd =
      if 0 < fetched ∧ size + fetched = n + 1 then [theEnd source n] else [] := by
  unfold roundRecord
  split <;> rfl

/--
Of the rounds that bring all that is left up to the end of the input one has the end recorded.
-/
theorem filter_roundsRecord_chunked {source : σ} {n size left chunk : Nat} (hchunk : 0 < chunk)
    (h : size + left = n + 1) :
    (roundsRecord source n size (chunked chunk left)).filter Event.isEnd =
      if 0 < left then [theEnd source n] else [] := by
  induction left using Nat.strongRecOn generalizing size with
  | ind left ih =>
    rcases Nat.lt_or_ge left chunk with hlt | hge
    . rw [chunked_of_lt hlt]
      rw [roundsRecord_singleton]
      rw [filter_roundRecord]
      simp [h]
    . rw [chunked_of_le hchunk hge]
      unfold roundsRecord
      rw [List.filter_append]
      rw [filter_roundRecord]
      rw [ih (left - chunk) (by omega) (by omega)]
      rw [if_pos (by omega : 0 < left)]
      -- If the full round brings the end, it leaves nothing to the rounds after it.
      by_cases hend : left = chunk
      . rw [if_pos (by omega)]
        rw [if_neg (by omega)]
        rfl
      . rw [if_neg (by omega)]
        rw [if_pos (by omega)]
        rfl

end Rounds

variable [Token τ]

theorem ending_append_ending {source : σ} {n : Nat} {c d e : Tape σ τ} (h : c.Grows d)
    (h' : d.Grows e) : ending source n c d ++ ending source n d e = ending source n c e := by
  have hcd := h.extends.exhausted_of_exhausted
  have hde := h'.extends.exhausted_of_exhausted
  unfold ending
  cases hc : c.exhausted <;> cases hd : d.exhausted <;> cases he : e.exhausted <;> simp_all

theorem journal_pullNext_eq {c : Tape σ τ} (he : c.exhausted = false) :
    c.pullNext.journal =
      if c.pullNext.exhausted then
        c.journal.push (.exhausted c.pullNext.size (TokenSource.name c.pullNext.source))
      else
        c.journal := by
  unfold pullNext
  dsimp only
  split
  . rfl
  . rw [he]
    rfl

theorem journal_round_eq (chunk : Nat) (c : Tape σ τ) :
    (c.round chunk).journal.toList =
      (c.advance chunk).journal.toList ++
        [.drained (c.pull chunk).1 (c.size + (c.pull chunk).1)] := by
  have hle : c.size ≤ (c.advance chunk).size := (grows_advance chunk c).size_le
  have hsize : (c.advance chunk).size = c.size + (c.pull chunk).1 := (Nat.add_sub_of_le hle).symm
  change ((c.advance chunk).journal.push
    (.drained (c.pull chunk).1 (c.advance chunk).size)).toList = _
  rw [hsize]
  apply Array.toList_push

namespace Records

variable {source : σ} {n : Nat} {c d : Tape σ τ}

theorem journal_pullNext (h : Records source c) (hn : EndsAt source n) (he : c.exhausted = false) :
    c.pullNext.journal.toList = c.journal.toList ++ ending source n c c.pullNext := by
  have hd := h.pullNext he
  unfold ending
  rw [journal_pullNext_eq he]
  rw [he]
  cases hend : c.pullNext.exhausted with
  | false => simp
  | true =>
    rw [hd.source_eq]
    rw [hd.size_of_exhausted hn hend]
    simp [theEnd]

theorem journal_advance (h : Records source c) (hn : EndsAt source n) (m : Nat) :
    (c.advance m).journal.toList = c.journal.toList ++ ending source n c (c.advance m) := by
  induction m generalizing c with
  | zero =>
    change c.journal.toList = c.journal.toList ++ ending source n c c
    rw [ending_self]
    rw [List.append_nil]
  | succ m ih =>
    unfold advance
    split
    . rw [ending_self]
      rw [List.append_nil]
    . next he =>
      have he : c.exhausted = false := by simpa using he
      rw [ih (h.pullNext he)]
      rw [h.journal_pullNext hn he]
      rw [List.append_assoc]
      rw [ending_append_ending (.pullNext .refl he) (grows_advance ..)]

theorem journal_of_reaches (h : Records source c) (hn : EndsAt source n) (hreaches : c.Reaches d) :
    d.journal.toList = c.journal.toList ++ ending source n c d := by
  obtain ⟨m, rfl⟩ := hreaches
  exact h.journal_advance hn m

theorem ending_eq (h : Records source c) (h' : Records source d) (hn : EndsAt source n) :
    ending source n c d = if c.size ≤ n ∧ d.size = n + 1 then [theEnd source n] else [] := by
  have hle := h.size_le hn
  unfold ending
  rw [h.exhausted_eq_decide hn]
  rw [h'.exhausted_eq_decide hn]
  have hend : (!decide (c.size = n + 1) && decide (d.size = n + 1)) = true ↔
      c.size ≤ n ∧ d.size = n + 1 := by
    simp only [Bool.and_eq_true, Bool.not_eq_true', decide_eq_false_iff_not, decide_eq_true_eq]
    omega
  simp only [hend]

theorem journal_round (h : Records source c) (hn : EndsAt source n) (chunk : Nat) :
    (c.round chunk).journal.toList =
      c.journal.toList ++ roundRecord source n c.size (c.pull chunk).1 := by
  have hle := h.size_le hn
  have hsize := h.size_advance hn chunk
  have hfetched := h.pull_fst hn chunk
  rw [journal_round_eq]
  rw [h.journal_advance hn]
  rw [h.ending_eq (h.grows (grows_advance ..)) hn]
  rw [List.append_assoc]
  have hend : c.size ≤ n ∧ (c.advance chunk).size = n + 1 ↔
      0 < (c.pull chunk).1 ∧ c.size + (c.pull chunk).1 = n + 1 := by
    omega
  unfold roundRecord
  simp only [hend]

/--
A full round takes a chunk off what is left, and a short one takes the rest.
-/
theorem journal_of_drains (h : Records source c) (hn : EndsAt source n) {chunk k : Nat}
    (hchunk : 0 < chunk) (hdrains : Drains chunk k c d) :
    d.journal.toList =
      c.journal.toList ++ roundsRecord source n c.size (chunked chunk (n + 1 - c.size)) := by
  induction hdrains with
  | @last c hshort =>
    have hpull := h.pull_fst hn chunk
    have hfetched : (c.pull chunk).1 = n + 1 - c.size := by omega
    rw [h.journal_round hn]
    rw [hfetched] at hshort ⊢
    rw [chunked_of_lt hshort]
    rw [roundsRecord_singleton]
  | @more k c d hfull _ ih =>
    have hpull := h.pull_fst hn chunk
    have hround := h.size_round hn chunk
    have hfetched : (c.pull chunk).1 = chunk := by omega
    have hsize : (c.round chunk).size = c.size + chunk := by omega
    have hleft : chunk ≤ n + 1 - c.size := by omega
    have hrest : n + 1 - (c.round chunk).size = n + 1 - c.size - chunk := by omega
    rw [ih (h.round chunk)]
    rw [h.journal_round hn]
    rw [hfetched]
    rw [hrest]
    rw [hsize]
    rw [chunked_of_le hchunk hleft]
    rw [List.append_assoc]
    rfl

theorem journal_drain (h : Records source c) (hn : EndsAt source n) {chunk : Nat}
    (hchunk : 0 < chunk) :
    (c.drain chunk).journal.toList =
      c.journal.toList ++ roundsRecord source n c.size (chunked chunk (n + 1 - c.size)) :=
  h.journal_of_drains hn hchunk (h.drains_drain hn hchunk).1

theorem filter_roundsRecord_drain (h : Records source c) (hn : EndsAt source n) {chunk : Nat}
    (hchunk : 0 < chunk) :
    (roundsRecord source n c.size (chunked chunk (n + 1 - c.size))).filter Event.isEnd =
      ending source n c (c.drain chunk) := by
  have hle := h.size_le hn
  have hsize := (h.drains_drain hn hchunk).2
  have hleft : 0 < n + 1 - c.size ↔ c.size ≤ n ∧ (c.drain chunk).size = n + 1 := by omega
  rw [h.ending_eq (h.grows (grows_drain ..)) hn]
  rw [filter_roundsRecord_chunked hchunk (by omega)]
  simp only [hleft]

end Records

end Tape

end Lookahead
