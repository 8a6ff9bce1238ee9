import Lookahead.Proofs.Tape.Search
import Lookahead.TokenSource.Replay

/-!
This module contains how the searches for the nearest token on a channel, forward and backward, hang
together. Either one tells what the other finds, and what is on the tape already makes no difference
to them.
-/

namespace Lookahead

namespace TokenSource

variable {σ τ : Type} [Token τ] [TokenSource σ τ] {source : σ} {channel : UInt32}

theorem IsFirstOn.eq_start_iff {i j : Nat} (h : IsFirstOn source channel i j) :
    j = i ↔ Tape.isOn channel (nth source i) = true := by
  constructor
  . rintro rfl
    apply h.isOn
  . intro hon
    apply h.unique
    exact ⟨Nat.le_refl i, hon, by omega⟩

/--
A position is the last on the channel up to `i` if it is on the channel and the next one that is lies
past `i`.
-/
theorem isLastOn_some_iff {i j k : Nat} (hj : j ≤ i) (hk : IsFirstOn source channel (j + 1) k) :
    IsLastOn source channel i (some j) ↔ Tape.isOn channel (nth source j) = true ∧ i < k := by
  constructor
  . intro h
    cases h with
    | found _ hon hoff =>
      refine ⟨hon, ?_⟩
      rw [← Nat.not_le]
      intro hki
      have hk' := hoff k hk.le hki
      rw [hk.isOn] at hk'
      contradiction
  . rintro ⟨hon, hik⟩
    apply IsLastOn.found hj hon
    intro m hjm hmi
    apply hk.isOn_eq_false m hjm
    omega

end TokenSource

namespace Tape

open TokenSource (IsFirstOn IsLastOn EndsAt nth)

variable {σ τ : Type} [Token τ] [TokenSource σ τ]

namespace Records

variable {source : σ} {n : Nat} {c d e : Tape σ τ}

theorem nextOn_fst_of_lt (h : Records source c) (hn : EndsAt source n) {i : Nat} (hi : n < i)
    (channel : UInt32) : (c.nextOn i channel).1 = n := by
  have hstart := (h.isFirstOn_nextOn hn i channel).le
  have hend := h.nextOn_fst_le hn i channel
  omega

theorem nextOn_fst_eq_self_iff (h : Records source c) (hn : EndsAt source n) {i : Nat}
    (hi : i ≤ n) (channel : UInt32) :
    (c.nextOn i channel).1 = i ↔ isOn channel (nth source i) = true := by
  apply IsFirstOn.eq_start_iff
  apply h.isFirstOn_nextOn_of_le hn hi

theorem isLastOn_prevOn_of_le (h : Records source c) (hn : EndsAt source n) {i : Nat}
    (hi : i ≤ n) (channel : UInt32) : IsLastOn source channel i (c.prevOn i channel).1 := by
  have hlast := h.isLastOn_prevOn hn i channel
  rwa [Nat.min_eq_left hi] at hlast

theorem prevOn_fst_of_lt (h : Records source c) (hn : EndsAt source n) {i : Nat} (hi : n < i)
    (channel : UInt32) : (c.prevOn i channel).1 = some n := by
  have hlast := h.isLastOn_prevOn hn i channel
  rw [Nat.min_eq_right (Nat.le_of_lt hi)] at hlast
  apply hlast.unique
  exact .found (Nat.le_refl n) hn.isOn_nth (by omega)

theorem prevOn_fst_eq_iff (h : Records source c) (hn : EndsAt source n) {i : Nat} (hi : i ≤ n)
    (channel : UInt32) (j : Option Nat) :
    (c.prevOn i channel).1 = j ↔ IsLastOn source channel i j := by
  have hlast := h.isLastOn_prevOn_of_le hn hi channel
  constructor
  . rintro rfl
    exact hlast
  . intro hj
    apply hlast.unique hj

/--
A search backward ends where a search forward from there stays and one from the next index on leads
past the start, whatever is on the tapes that are searched.
-/
theorem prevOn_fst_eq_some_iff (hc : Records source c) (hd : Records source d)
    (he : Records source e) (hn : EndsAt source n) {i j : Nat} (hi : i < n) (hj : j ≤ i)
    (channel : UInt32) :
    (c.prevOn i channel).1 = some j ↔
      (d.nextOn j channel).1 = j ∧ (j = i ∨ i < (e.nextOn (j + 1) channel).1) := by
  have hnext := he.isFirstOn_nextOn_of_le hn (i := j + 1) (by omega) channel
  -- The search from the index after `i` leads past `i` anyway.
  have hbeyond : (j = i ∨ i < (e.nextOn (j + 1) channel).1) ↔ i < (e.nextOn (j + 1) channel).1 := by
    have hstart := hnext.le
    omega
  rw [hc.prevOn_fst_eq_iff hn (Nat.le_of_lt hi)]
  rw [hd.nextOn_fst_eq_self_iff hn (by omega)]
  rw [hbeyond]
  apply TokenSource.isLastOn_some_iff hj hnext

end Records

/--
On any tape over a source that ends, a search forward comes to an end, at the first token from the
index on that is on the channel or is the end of the input, and a search backward at the last such
token up to the index, if there is one; past the end of the input both find the end. What has been
pulled before makes no difference to either, and what the one finds tells what the other does.
-/
theorem nextOn_prevOn_nearest {source : σ} {n : Nat} (hn : EndsAt source n) (channel : UInt32) :
    (∀ {c : Tape σ τ}, Grows { source } c → ∀ i,
      Searches channel i (c.ensure i) (c.nextOn i channel).1 (c.nextOn i channel).2 ∧
        (i ≤ n → (c.nextOn i channel).1 ≤ n ∧
          IsFirstOn source channel i (c.nextOn i channel).1 ∧
          IsLastOn source channel i (c.prevOn i channel).1) ∧
        (n < i → (c.nextOn i channel).1 = n ∧ (c.prevOn i channel).1 = some n)) ∧
      (∀ {c d : Tape σ τ}, Grows { source } c → Grows { source } d → ∀ i,
        (c.nextOn i channel).1 = (d.nextOn i channel).1 ∧
          (c.prevOn i channel).1 = (d.prevOn i channel).1) ∧
      ∀ {c d e : Tape σ τ}, Grows { source } c → Grows { source } d → Grows { source } e →
        ∀ i j, i < n → j ≤ i →
          ((c.prevOn i channel).1 = some j ↔
            (d.nextOn j channel).1 = j ∧ (j = i ∨ i < (e.nextOn (j + 1) channel).1)) := by
  have hnew := records_new source
  refine ⟨?_, ?_, ?_⟩
  . intro c hc i
    have h := hnew.grows hc
    refine ⟨h.searches_nextOn hn i channel, ?_, ?_⟩
    . intro hi
      refine ⟨?_, ?_, ?_⟩
      . apply h.nextOn_fst_le hn
      . apply h.isFirstOn_nextOn_of_le hn hi
      . apply h.isLastOn_prevOn_of_le hn hi
    . intro hi
      constructor
      . apply h.nextOn_fst_of_lt hn hi
      . apply h.prevOn_fst_of_lt hn hi
  . intro c d hc hd i
    constructor
    . apply (hnew.grows hc).nextOn_fst_eq (hnew.grows hd) hn
    . apply (hnew.grows hc).prevOn_fst_eq (hnew.grows hd) hn
  . intro c d e hc hd he i j hi hj
    apply (hnew.grows hc).prevOn_fst_eq_some_iff (hnew.grows hd) (hnew.grows he) hn hi hj

theorem nextOn_prevOn_nearest_among_hidden :
    let source : Replay :=
      ⟨#[⟨2, " ", 1, 0, 0, 0⟩, ⟨1, "x", 0, 0, 1, 1⟩, ⟨2, " ", 1, 0, 2, 2⟩, ⟨3, "#", 2, 0, 3, 3⟩,
        ⟨1, "y", 0, 0, 4, 4⟩, ⟨2, " ", 1, 0, 5, 5⟩], 0, ""⟩
    let fresh : Tape Replay PlainToken := { source }
    let part := fresh.ensure 2
    let whole := fresh.drain 4
    EndsAt source 6 ∧ Grows { source } fresh ∧ Grows { source } part ∧ Grows { source } whole ∧
      Searches 0 2 (part.ensure 2) (part.nextOn 2 0).1 (part.nextOn 2 0).2 ∧
      IsFirstOn source 0 2 (part.nextOn 2 0).1 ∧ IsLastOn source 0 0 (fresh.prevOn 0 0).1 ∧
      (fresh.nextOn Position.limit 0).1 = 6 ∧ (part.prevOn 7 0).1 = some 6 ∧
      (part.nextOn 2 0).1 = (whole.nextOn 2 0).1 ∧
      ((part.prevOn 3 0).1 = some 1 ↔
        (fresh.nextOn 1 0).1 = 1 ∧ (1 = 3 ∨ 3 < (whole.nextOn 2 0).1)) := by
  intro source fresh part whole
  have hn : EndsAt source 6 := by
    constructor <;> decide
  have hfresh : Grows { source } fresh := .refl
  have hpart : Grows { source } part := grows_ensure fresh 2
  have hwhole : Grows { source } whole := grows_drain fresh 4
  obtain ⟨hnearest, hsame, hadjoint⟩ := nextOn_prevOn_nearest hn 0
  obtain ⟨hsearch, hinside, -⟩ := hnearest hpart 2
  refine ⟨hn, hfresh, hpart, hwhole, hsearch, ?_, ?_, ?_, ?_, ?_, ?_⟩
  . apply (hinside (by decide)).2.1
  . apply ((hnearest hfresh 0).2.1 (by decide)).2.2
  . apply ((hnearest hfresh Position.limit).2.2 (by decide)).1
  . apply ((hnearest hpart 7).2.2 (by decide)).2
  . apply (hsame hpart hwhole 2).1
  . apply hadjoint hpart hfresh hwhole 3 1 (by decide) (by decide)

end Tape

end Lookahead
