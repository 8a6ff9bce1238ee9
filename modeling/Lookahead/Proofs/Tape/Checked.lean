import Lookahead.Proofs.Position.Checked
import Lookahead.Proofs.Tape.Search

/-!
This module contains the searches and slices of a tape with every step checked that is not defined
everywhere: to go on from a position, to read an index and to slice up to an index. A search or a slice
fails as soon as such a step has no result, because the next position is past the largest one or
because the index is not on the tape. On the tapes of a source that ends none of them ever fails.
-/

namespace Lookahead

namespace Tape

variable {σ τ : Type}

/--
The tokens from index `start` to index `stop`, both included. It takes that `stop` is on the tape; if
`start` is past `stop` there are none.
-/
def checkedSlice (c : Tape σ τ) (start stop : Nat) : Option (List τ) :=
  if stop < c.size then
    some (if start ≤ stop + 1 then (c.tokens.extract start (stop + 1)).toList else [])
  else
    none

theorem checkedSlice_of_lt {c : Tape σ τ} {stop : Nat} (h : stop < c.size) (start : Nat) :
    c.checkedSlice start stop = some (c.slice start stop) := by
  unfold checkedSlice slice
  rw [if_pos h]
  rw [if_pos h]
  split
  . rfl
  . next hstart =>
    rw [Array.extract_empty_of_stop_le_start (by omega)]

theorem checkedSlice_min {c : Tape σ τ} (h : 0 < c.size) (start stop : Nat) :
    c.checkedSlice start (min stop (c.size - 1)) = some (c.slice start (min stop (c.size - 1))) := by
  apply checkedSlice_of_lt
  omega

variable [Token τ]

/--
The search backward, which reads every index that it comes to.
-/
def checkedLastOn (c : Tape σ τ) (channel : UInt32) : Nat → Option (Option Nat)
  | 0 => do
    let t ← c.tokens[0]?
    return if isOn channel t then some 0 else none
  | i + 1 => do
    let t ← c.tokens[i + 1]?
    if isOn channel t then return some (i + 1) else c.checkedLastOn channel i

theorem checkedLastOn_of_lt {c : Tape σ τ} {channel : UInt32} {i : Nat} (h : i < c.size) :
    c.checkedLastOn channel i = some (c.lastOn? channel i) := by
  induction i with
  | zero =>
    unfold checkedLastOn lastOn?
    rw [Array.getElem?_eq_getElem h]
    rfl
  | succ i ih =>
    have hrest := ih (Nat.lt_of_succ_lt h)
    unfold checkedLastOn lastOn?
    rw [Array.getElem?_eq_getElem h]
    rw [Option.any_some]
    rw [hrest]
    dsimp only [bind, Option.bind]
    split <;> rfl

variable [TokenSource σ τ]

def checkedPrevOn (c : Tape σ τ) (i : Nat) (channel : UInt32) :
    Option (Option Nat × Tape σ τ) :=
  let c := c.ensure i
  if i < c.size then
    do
      let j ← c.checkedLastOn channel i
      return (j, c)
  else
    some (if c.size = 0 then none else some (c.size - 1), c)

/--
The search forward, which goes on from one position to the next.
-/
def checkedNextOn (c : Tape σ τ) (i : Nat) (channel : UInt32) : Option (Nat × Tape σ τ) :=
  go i (c.ensure i)
where
  go (i : Nat) (c : Tape σ τ) : Option (Nat × Tape σ τ) :=
    match c.tokens[i]? with
    | none => some (c.size - 1, c)
    | some t =>
      if isOn channel t then
        some (i, c)
      else if i < Position.limit then
        go (i + 1) (c.ensure (i + 1))
      else
        none
  termination_by Position.limit - i

section Defined

variable {source : σ} {n : Nat} {c d : Tape σ τ} {channel : UInt32}

theorem checkedPrevOn_eq (c : Tape σ τ) (i : Nat) (channel : UInt32) :
    c.checkedPrevOn i channel = some (c.prevOn i channel) := by
  unfold checkedPrevOn prevOn
  dsimp only
  split
  . next h =>
    rw [checkedLastOn_of_lt h]
    rfl
  . rfl

theorem Searches.checkedNextOn_go {i j : Nat} (hsearch : Searches channel i c j d)
    (h : c.Records source) (hn : TokenSource.EndsAt source n) :
    checkedNextOn.go channel i c = some (j, d) := by
  have hlimit := hn.lt_limit
  induction hsearch with
  | past hnone =>
    unfold checkedNextOn.go
    rw [hnone]
  | found ht hon =>
    unfold checkedNextOn.go
    rw [ht]
    dsimp only
    rw [if_pos hon]
  | @skip i j c d t ht hoff hrest ih =>
    -- The token is on the tape, and so short of the largest position.
    have hi : i < c.size := (Array.getElem?_eq_some_iff.mp ht).1
    have hle := h.size_le hn
    unfold checkedNextOn.go
    rw [ht]
    dsimp only
    rw [hoff]
    rw [if_neg Bool.false_ne_true]
    rw [if_pos (by omega)]
    exact ih (h.grows (grows_ensure c (i + 1)))

theorem Records.checkedNextOn_eq (h : c.Records source) (hn : TokenSource.EndsAt source n) (i : Nat)
    (channel : UInt32) : c.checkedNextOn i channel = some (c.nextOn i channel) := by
  unfold checkedNextOn
  apply (h.searches_nextOn hn i channel).checkedNextOn_go _ hn
  exact h.grows (grows_ensure c i)

theorem Records.size_lt_limit (h : c.Records source) (hn : TokenSource.EndsAt source n) :
    c.size < Position.limit := by
  have hlimit := hn.lt_limit
  have hle := h.size_le hn
  omega

theorem Records.checkedSucc_of_prevOn (h : c.Records source) (hn : TokenSource.EndsAt source n)
    {i p : Nat} (hp : (c.prevOn i channel).1 = some p) : Position.checkedSucc p = some (p + 1) := by
  have hlimit := hn.lt_limit
  have hlast := h.isLastOn_prevOn hn i channel
  rw [hp] at hlast
  cases hlast with
  | found hle _ _ =>
    apply Position.checkedSucc_of_lt
    omega

end Defined

end Tape

end Lookahead
