import Lookahead.Proofs.Tape.Extent

/-!
This module contains what the searches for tokens on a channel find. They go by the tokens of the
source alone: how many of them are on the tape when a search starts makes no difference to where it
ends.
-/

namespace Lookahead

namespace TokenSource

variable {σ τ : Type} [Token τ] [TokenSource σ τ]

/--
The position `j` is the first from `i` on whose token counts as being on the channel.
-/
structure IsFirstOn (source : σ) (channel : UInt32) (i j : Nat) : Prop where
  le : i ≤ j
  isOn : Tape.isOn channel (nth source j) = true
  isOn_eq_false : ∀ k, i ≤ k → k < j → Tape.isOn channel (nth source k) = false

/--
The last position up to `i` whose token counts as being on the channel.
-/
inductive IsLastOn (source : σ) (channel : UInt32) (i : Nat) : Option Nat → Prop where
  | found {j : Nat} : j ≤ i → Tape.isOn channel (nth source j) = true →
    (∀ k, j < k → k ≤ i → Tape.isOn channel (nth source k) = false) →
    IsLastOn source channel i (some j)
  | absent : (∀ k ≤ i, Tape.isOn channel (nth source k) = false) → IsLastOn source channel i none

section Search

variable {source : σ} {channel : UInt32}

theorem IsFirstOn.unique {i j j' : Nat} (h : IsFirstOn source channel i j)
    (h' : IsFirstOn source channel i j') : j = j' := by
  rcases Nat.lt_trichotomy j j' with hlt | heq | hlt
  . have := h'.isOn_eq_false j h.le hlt
    simp [h.isOn] at this
  . exact heq
  . have := h.isOn_eq_false j' h'.le hlt
    simp [h'.isOn] at this

theorem IsLastOn.unique {i : Nat} {j j' : Option Nat} (h : IsLastOn source channel i j)
    (h' : IsLastOn source channel i j') : j = j' := by
  cases h with
  | @found j hle hon hoff =>
    cases h' with
    | @found j' hle' hon' hoff' =>
      rcases Nat.lt_trichotomy j j' with hlt | heq | hlt
      . simp [hoff j' hlt hle'] at hon'
      . rw [heq]
      . simp [hoff' j hlt hle] at hon
    | absent hoff' => simp [hoff' j hle] at hon
  | absent hoff =>
    cases h' with
    | @found j' hle' hon' _ => simp [hoff j' hle'] at hon'
    | absent _ => rfl

theorem EndsAt.isOn_nth {n : Nat} (hn : EndsAt source n) :
    Tape.isOn channel (nth source n) = true := by
  simp [Tape.isOn, hn.isEof_nth]

theorem EndsAt.isOn_nth_of_lt {n i : Nat} (hn : EndsAt source n) (hi : i < n) :
    Tape.isOn channel (nth source i) = (Token.channel (nth source i) == channel) := by
  simp [Tape.isOn, hn.isEof_nth_of_lt i hi]

theorem IsFirstOn.le_end {n i j : Nat} (h : IsFirstOn source channel i j)
    (hn : EndsAt source n) (hi : i ≤ n) : j ≤ n := by
  rw [← Nat.not_lt]
  intro hlt
  have := h.isOn_eq_false n hi hlt
  simp [hn.isOn_nth] at this

theorem IsFirstOn.find?_range' {i j k : Nat} (h : IsFirstOn source channel i j)
    (hj : j < i + k) :
    (List.range' i k).find? (fun m => Tape.isOn channel (nth source m)) = some j := by
  rw [List.find?_range'_eq_some]
  refine ⟨h.isOn, ?_, ?_⟩
  . rw [List.mem_range'_1]
    exact ⟨h.le, hj⟩
  . intro m him hmj
    rw [h.isOn_eq_false m him hmj]
    rfl

end Search

end TokenSource

namespace Tape

open TokenSource (IsFirstOn IsLastOn EndsAt nth)

variable {σ τ : Type} [Token τ] [TokenSource σ τ]

/--
Token after token, however many it takes, the search forward from index `i` of `c` on ends at `j` and
leaves `d`.
-/
inductive Searches (channel : UInt32) : Nat → Tape σ τ → Nat → Tape σ τ → Prop where
  | past {i : Nat} {c : Tape σ τ} : c.tokens[i]? = none → Searches channel i c (c.size - 1) c
  | found {i : Nat} {c : Tape σ τ} {t : τ} : c.tokens[i]? = some t → isOn channel t = true →
    Searches channel i c i c
  | skip {i j : Nat} {c d : Tape σ τ} {t : τ} : c.tokens[i]? = some t → isOn channel t = false →
    Searches channel (i + 1) (c.ensure (i + 1)) j d → Searches channel i c j d

theorem snd_prevOn (c : Tape σ τ) (i : Nat) (channel : UInt32) :
    (c.prevOn i channel).2 = c.ensure i := by
  unfold prevOn
  dsimp only
  split <;> rfl

namespace Records

variable {source : σ} {n : Nat} {c : Tape σ τ}

theorem lt_size_ensure_succ (h : Records source c) (hn : EndsAt source n) {channel : UInt32}
    {i : Nat} (hi : i < c.size) (hoff : isOn channel (nth source i) = false) :
    i + 1 < (c.ensure (i + 1)).size := by
  -- The end of the input counts as being on the channel, so the source goes on after this token.
  have hlt : i ≠ n := by
    rintro rfl
    simp [hn.isOn_nth] at hoff
  have hle := h.size_le hn
  have hsize := h.size_ensure hn (i + 1)
  omega

theorem searches_go (h : Records source c) (hn : EndsAt source n) (channel : UInt32)
    {room i : Nat} (hi : i < c.size) (hroom : n ≤ i + room) :
    Searches channel i c (nextOn.go channel room i c).1 (nextOn.go channel room i c).2 := by
  induction room generalizing i c with
  | zero =>
    have hle := h.size_le hn
    have heq : i = n := by omega
    have ht := h.getElem?_of_lt hi
    have hon : isOn channel (nth source i) = true := by
      rw [heq]
      exact hn.isOn_nth
    unfold nextOn.go
    rw [ht]
    dsimp only
    rw [if_pos hon]
    exact .found ht hon
  | succ room ih =>
    have ht := h.getElem?_of_lt hi
    unfold nextOn.go
    rw [ht]
    dsimp only
    split
    . next hon => exact .found ht hon
    . next hoff =>
      rw [Bool.not_eq_true] at hoff
      have hnext := h.lt_size_ensure_succ hn hi hoff
      apply Searches.skip ht hoff
      apply ih (h.grows (grows_ensure c (i + 1))) hnext
      omega

/--
The search forward ends by itself, wherever it starts.
-/
theorem searches_nextOn (h : Records source c) (hn : EndsAt source n) (i : Nat)
    (channel : UInt32) :
    Searches channel i (c.ensure i) (c.nextOn i channel).1 (c.nextOn i channel).2 := by
  have hlimit := hn.lt_limit
  have hd := h.grows (grows_ensure c i)
  have hsize := h.size_ensure hn i
  unfold nextOn
  by_cases hi : i ≤ n
  . apply hd.searches_go hn channel
    . omega
    . omega
  . have hnone : (c.ensure i).tokens[i]? = none := by
      have hle := hd.size_le hn
      rw [hd.getElem?_tokens]
      rw [if_neg (by omega)]
    unfold nextOn.go
    rw [hnone]
    exact .past hnone

end Records

namespace Searches

variable {source : σ} {n : Nat} {channel : UInt32} {i j : Nat} {c d : Tape σ τ}

theorem isFirstOn (hsearch : Searches channel i c j d) (h : c.Records source)
    (hn : EndsAt source n) (hi : i < c.size) : IsFirstOn source channel i j := by
  induction hsearch with
  | @past i c hnone =>
    rw [h.getElem?_of_lt hi] at hnone
    contradiction
  | @found i c t ht hon =>
    rw [h.getElem?_of_lt hi] at ht
    cases ht
    exact ⟨Nat.le_refl i, hon, by omega⟩
  | @skip i j c d t ht hoff _ ih =>
    rw [h.getElem?_of_lt hi] at ht
    cases ht
    have hrest := ih (h.grows (grows_ensure c (i + 1))) (h.lt_size_ensure_succ hn hi hoff)
    constructor
    . exact Nat.le_of_succ_le hrest.le
    . exact hrest.isOn
    . intro k hik hk
      rcases Nat.eq_or_lt_of_le hik with rfl | hik
      . exact hoff
      . exact hrest.isOn_eq_false k hik hk

theorem size_eq (hsearch : Searches channel i c j d) (h : c.Records source)
    (hn : EndsAt source n) (hi : i < c.size) : d.size = max c.size (j + 1) := by
  induction hsearch with
  | @past i c hnone =>
    rw [h.getElem?_of_lt hi] at hnone
    contradiction
  | @found i c t ht hon => exact (Nat.max_eq_left hi).symm
  | @skip i j c d t ht hoff hrest ih =>
    rw [h.getElem?_of_lt hi] at ht
    cases ht
    have hd := h.grows (grows_ensure c (i + 1))
    have hnext := h.lt_size_ensure_succ hn hi hoff
    have hsize := h.size_ensure hn (i + 1)
    have hstart := (hrest.isFirstOn hd hn hnext).le
    rw [ih hd hnext]
    omega

theorem eq_of_le (hsearch : Searches channel i c j d) (hi : c.size ≤ i) :
    j = c.size - 1 ∧ d = c := by
  cases hsearch with
  | past _ => exact ⟨rfl, rfl⟩
  | found ht _ =>
    rw [Array.getElem?_eq_none hi] at ht
    contradiction
  | skip ht _ _ =>
    rw [Array.getElem?_eq_none hi] at ht
    contradiction

end Searches

namespace Records

variable {source : σ} {n : Nat} {c d : Tape σ τ}

/--
A search forward ends at the first token on the channel, and past the end of the input at the end.
-/
theorem isFirstOn_nextOn (h : Records source c) (hn : EndsAt source n) (i : Nat)
    (channel : UInt32) : IsFirstOn source channel (min i n) (c.nextOn i channel).1 := by
  have hle := h.size_le hn
  have hd := h.grows (grows_ensure c i)
  have hsize := h.size_ensure hn i
  have hsearch := h.searches_nextOn hn i channel
  by_cases hi : i ≤ n
  . rw [Nat.min_eq_left hi]
    apply hsearch.isFirstOn hd hn
    omega
  . have hend := (hsearch.eq_of_le (by omega)).1
    have heq : (c.nextOn i channel).1 = n := by omega
    rw [Nat.min_eq_right (by omega)]
    rw [heq]
    exact ⟨Nat.le_refl n, hn.isOn_nth, by omega⟩

theorem isFirstOn_nextOn_of_le (h : Records source c) (hn : EndsAt source n) {i : Nat}
    (hi : i ≤ n) (channel : UInt32) : IsFirstOn source channel i (c.nextOn i channel).1 := by
  have hfirst := h.isFirstOn_nextOn hn i channel
  rwa [Nat.min_eq_left hi] at hfirst

theorem nextOn_fst_eq (hc : Records source c) (hd : Records source d) (hn : EndsAt source n)
    (i : Nat) (channel : UInt32) : (c.nextOn i channel).1 = (d.nextOn i channel).1 := by
  apply (hc.isFirstOn_nextOn hn i channel).unique
  apply hd.isFirstOn_nextOn hn

theorem nextOn_fst_le (h : Records source c) (hn : EndsAt source n) (i : Nat)
    (channel : UInt32) : (c.nextOn i channel).1 ≤ n := by
  apply (h.isFirstOn_nextOn hn i channel).le_end hn
  apply Nat.min_le_right

/--
A search forward pulls up to where it ends and no further, unless it starts past what it finds.
-/
theorem size_nextOn (h : Records source c) (hn : EndsAt source n) (i : Nat) (channel : UInt32) :
    (c.nextOn i channel).2.size =
      max c.size (min (n + 1) (max i (c.nextOn i channel).1 + 1)) := by
  have hle := h.size_le hn
  have hd := h.grows (grows_ensure c i)
  have hsize := h.size_ensure hn i
  have hsearch := h.searches_nextOn hn i channel
  have hstart := (h.isFirstOn_nextOn hn i channel).le
  have hend := h.nextOn_fst_le hn i channel
  by_cases hi : i ≤ n
  . rw [hsearch.size_eq hd hn (by omega)]
    omega
  . rw [(hsearch.eq_of_le (by omega)).2]
    omega

theorem nextOn_fst_lt_size (h : Records source c) (hn : EndsAt source n) (i : Nat)
    (channel : UInt32) : (c.nextOn i channel).1 < (c.nextOn i channel).2.size := by
  have hend := h.nextOn_fst_le hn i channel
  have hsize := h.size_nextOn hn i channel
  omega

theorem nextOn_go_of_lt_size (h : Records source c) (channel : UInt32) {room i j : Nat}
    (hfirst : IsFirstOn source channel i j) (hj : j < c.size) (hroom : j ≤ i + room) :
    nextOn.go channel room i c = (j, c) := by
  have hle := hfirst.le
  induction room generalizing i with
  | zero =>
    have heq : i = j := by omega
    unfold nextOn.go
    rw [h.getElem?_tokens]
    rw [if_pos (by omega)]
    dsimp only
    rw [heq]
    rw [if_pos hfirst.isOn]
  | succ room ih =>
    unfold nextOn.go
    rw [h.getElem?_tokens]
    rw [if_pos (by omega)]
    dsimp only
    rcases Nat.eq_or_lt_of_le hle with rfl | hlt
    . rw [if_pos hfirst.isOn]
    . rw [if_neg (by simp [hfirst.isOn_eq_false i (Nat.le_refl i) hlt])]
      rw [ensure_of_lt (by omega)]
      apply ih
      . exact ⟨hlt, hfirst.isOn, fun k hik hk => hfirst.isOn_eq_false k (by omega) hk⟩
      . omega
      . exact hlt

/--
A search forward that ends on the tape pulls nothing.
-/
theorem nextOn_of_lt_size (h : Records source c) (hn : EndsAt source n) {channel : UInt32}
    {i j : Nat} (hfirst : IsFirstOn source channel i j) (hj : j < c.size) :
    c.nextOn i channel = (j, c) := by
  have hlimit := hn.lt_limit
  have hsize := h.size_le hn
  have hle := hfirst.le
  unfold nextOn
  rw [ensure_of_lt (by omega)]
  apply h.nextOn_go_of_lt_size channel hfirst hj
  omega

theorem isLastOn_lastOn? (h : Records source c) (channel : UInt32) {i : Nat} (hi : i < c.size) :
    IsLastOn source channel i (c.lastOn? channel i) := by
  induction i with
  | zero =>
    unfold lastOn?
    rw [h.getElem?_tokens]
    rw [if_pos hi]
    rw [Option.any_some]
    split
    . next hon => exact .found (Nat.le_refl 0) hon (by omega)
    . next hoff =>
      apply IsLastOn.absent
      intro k hk
      rw [Nat.le_zero.mp hk]
      simpa using hoff
  | succ i ih =>
    unfold lastOn?
    rw [h.getElem?_tokens]
    rw [if_pos hi]
    rw [Option.any_some]
    split
    . next hon => exact .found (Nat.le_refl (i + 1)) hon (by omega)
    . next hoff =>
      rw [Bool.not_eq_true] at hoff
      have hrest := ih (by omega)
      generalize c.lastOn? channel i = j at hrest ⊢
      cases hrest with
      | found hle hon hoff' =>
        apply IsLastOn.found (by omega) hon
        intro k hjk hk
        rcases Nat.eq_or_lt_of_le hk with rfl | hk
        . exact hoff
        . exact hoff' k hjk (by omega)
      | absent hoff' =>
        apply IsLastOn.absent
        intro k hk
        rcases Nat.eq_or_lt_of_le hk with rfl | hk
        . exact hoff
        . exact hoff' k (by omega)

/--
A search backward ends at the last token on the channel, and past the end of the input at the end.
-/
theorem isLastOn_prevOn (h : Records source c) (hn : EndsAt source n) (i : Nat)
    (channel : UInt32) : IsLastOn source channel (min i n) (c.prevOn i channel).1 := by
  have hle := h.size_le hn
  have hsize := h.size_ensure hn i
  unfold prevOn
  dsimp only
  split
  . next hi =>
    rw [Nat.min_eq_left (by omega)]
    exact (h.grows (grows_ensure c i)).isLastOn_lastOn? channel hi
  . next hi =>
    have hend : (c.ensure i).size = n + 1 := by omega
    rw [Nat.min_eq_right (by omega)]
    rw [hend]
    exact .found (Nat.le_refl n) hn.isOn_nth (by omega)

theorem prevOn_fst_eq (hc : Records source c) (hd : Records source d) (hn : EndsAt source n)
    (i : Nat) (channel : UInt32) : (c.prevOn i channel).1 = (d.prevOn i channel).1 := by
  apply (hc.isLastOn_prevOn hn i channel).unique
  apply hd.isLastOn_prevOn hn

end Records

end Tape

end Lookahead
