import Lookahead.Proofs.TokenStream.ChannelView

/-!
This module contains the cursor of a stream on a channel. It rests on tokens of the channel and on the
end of the input and nowhere else, always on the tape, and a seek takes it to the first of these from
the index asked for.
-/

namespace Lookahead

open TokenSource (EndsAt IsFirstOn nth)

theorem TokenSource.IsFirstOn.mono {σ τ : Type} [Token τ] [TokenSource σ τ] {source : σ}
    {channel : UInt32} {i j i' j' : Nat} (h : IsFirstOn source channel i j)
    (h' : IsFirstOn source channel i' j') (hi : i ≤ i') : j ≤ j' := by
  rw [← Nat.not_lt]
  intro hlt
  have hoff := h.isOn_eq_false j' (Nat.le_trans hi h'.le) hlt
  rw [h'.isOn] at hoff
  contradiction

namespace TokenStream

variable {σ τ : Type} [Token τ] [TokenSource σ τ] {source : σ} {n : Nat} {channel : UInt32}
variable {s t : TokenStream (LandingRule.onChannel (σ := σ) (τ := τ) channel)}

/--
The cursor, if there is one, is on the tape, on a token that counts as being on the channel.
-/
def RestsOn (source : σ) (s : TokenStream (LandingRule.onChannel (σ := σ) (τ := τ) channel)) :
    Prop :=
  ∀ p, s.cursor = some p → p < s.size ∧ Tape.isOn channel (nth source p) = true

theorem RestsOn.grows (h : s.RestsOn source) (hg : s.Grows t) : t.RestsOn source := by
  intro p hp
  rw [hg.cursor_eq] at hp
  obtain ⟨hlt, hon⟩ := h p hp
  exact ⟨Nat.lt_of_lt_of_le hlt hg.tape.size_le, hon⟩

theorem restsOn_moveTo (h : s.tape.Records source) (hn : EndsAt source n) (i : Nat) :
    (s.moveTo i).RestsOn source := by
  intro p hp
  have hindex : p = (s.tape.nextOn i channel).1 := (Option.some.inj hp).symm
  have hfirst := h.isFirstOn_nextOn hn i channel
  rw [hindex]
  refine ⟨?_, hfirst.isOn⟩
  apply h.nextOn_fst_lt_size hn

theorem Reachable.restsOn (hs : Reachable (.onChannel channel) source s) (hn : EndsAt source n) :
    s.RestsOn source := by
  apply hs.induction
  . intro memory settings p hp
    contradiction
  . intro s t hg h
    apply h.grows hg
  . intro s i hr _
    apply restsOn_moveTo hr hn

theorem Reachable.isFirstOn_seek (hs : Reachable (.onChannel channel) source s)
    (hn : EndsAt source n) (i : Nat) :
    IsFirstOn source channel (min i n) (s.seek i).index := by
  have hfirst := isFirstOn_moveTo hs.records_prime hn i
  rwa [prime_moveTo] at hfirst

/--
Moving to an index from which the search ends on the tape changes nothing but the cursor.
-/
theorem moveTo_of_lt_size (h : s.tape.Records source) (hn : EndsAt source n) {i j : Nat}
    (hfirst : IsFirstOn source channel i j) (hj : j < s.size) :
    s.moveTo i = { s with cursor := some j } := by
  unfold moveTo LandingRule.onChannel
  dsimp only
  rw [h.nextOn_of_lt_size hn hfirst hj]

theorem Reachable.moveTo_cursor (hs : Reachable (.onChannel channel) source s)
    (hn : EndsAt source n) {p : Nat} (hp : s.cursor = some p) : s.moveTo p = s := by
  obtain ⟨hlt, hon⟩ := hs.restsOn hn p hp
  rw [moveTo_of_lt_size hs.records hn (j := p) _ hlt]
  . rw [← hp]
  . constructor
    . apply Nat.le_refl
    . exact hon
    . omega

theorem Reachable.seek_cursor (hs : Reachable (.onChannel channel) source s)
    (hn : EndsAt source n) {p : Nat} (hp : s.cursor = some p) : s.seek p = s := by
  unfold seek
  rw [prime_of_isSome (by simp [hp])]
  apply hs.moveTo_cursor hn hp

theorem Reachable.seek_index_of_eq_none (hs : Reachable (.onChannel channel) source s)
    (hn : EndsAt source n) (hc : s.cursor = none) : s.seek s.index = s.prime := by
  have hprime : Reachable (.onChannel channel) source s.prime := hs.answer (.behind 0)
  obtain ⟨hlt, -⟩ := hprime.restsOn hn _ s.cursor_prime
  unfold seek
  rw [index_of_eq_none hc]
  rw [moveTo_of_lt_size hs.records_prime hn (isFirstOn_prime hs.records hn hc) hlt]
  rw [← cursor_prime]

/--
In every state of a stream on a channel the cursor, if there is one, is on the tape and on a token of
the channel or the end of the input. A seek leads to the first such token from the index asked for,
and past the end of the input to the end; the further the index, the further it leads. Sent to where
it is a stream stays as it is, and one that has no cursor is only primed.
-/
theorem seek_onChannel {source : σ} {n : Nat} (hn : EndsAt source n) {channel : UInt32}
    {s : TokenStream (LandingRule.onChannel (σ := σ) (τ := τ) channel)}
    (hs : Reachable (.onChannel channel) source s) :
    (∀ p, s.cursor = some p → p < s.size ∧
      ∃ t, s.tape.tokens[p]? = some t ∧ (Token.channel t = channel ∨ Token.isEof t = true)) ∧
      (∀ i, (s.seek i).index ≤ n ∧ (i ≤ n → IsFirstOn source channel i (s.seek i).index) ∧
        (n < i → (s.seek i).index = n)) ∧
      (∀ p, s.cursor = some p → s.seek p = s) ∧
      (s.cursor = none → s.seek s.index = s.prime) ∧
      ∀ i j, i ≤ j → (s.seek i).index ≤ (s.seek j).index := by
  refine ⟨?_, ?_, ?_, ?_, ?_⟩
  . intro p hp
    obtain ⟨hlt, hon⟩ := hs.restsOn hn p hp
    refine ⟨hlt, nth source p, ?_, ?_⟩
    . rw [hs.records.getElem?_tokens]
      exact if_pos hlt
    . simpa [Tape.isOn] using hon
  . intro i
    have hfirst := hs.isFirstOn_seek hn i
    have hend := hfirst.le_end hn (Nat.min_le_right i n)
    refine ⟨hend, ?_, ?_⟩
    . intro hi
      rwa [Nat.min_eq_left hi] at hfirst
    . intro hi
      have hle := hfirst.le
      omega
  . intro p hp
    apply hs.seek_cursor hn hp
  . intro hc
    apply hs.seek_index_of_eq_none hn hc
  . intro i j hij
    apply (hs.isFirstOn_seek hn i).mono (hs.isFirstOn_seek hn j)
    omega

theorem seek_onChannel_past_end :
    let source : Replay :=
      ⟨#[⟨2, " ", 1, 0, 0, 0⟩, ⟨1, "x", 0, 0, 1, 1⟩, ⟨2, " ", 1, 0, 2, 2⟩, ⟨3, "#", 2, 0, 3, 3⟩,
        ⟨1, "y", 0, 0, 4, 4⟩, ⟨2, " ", 1, 0, 5, 5⟩], 0, ""⟩
    let fresh : TokenStream (.onChannel 0) := ofSource (.onChannel 0) () source {}
    let s := (fresh.answers [.pull 2, .consume]).2
    EndsAt source 6 ∧ Reachable (.onChannel 0) source fresh ∧ Reachable (.onChannel 0) source s ∧
      s.cursor = some 4 ∧ 4 < s.size ∧ s.seek 4 = s ∧ fresh.cursor = none ∧
      fresh.seek fresh.index = fresh.prime ∧ IsFirstOn source 0 2 (s.seek 2).index ∧
      (s.seek Position.limit).index = 6 ∧ (s.seek 2).index ≤ (s.seek 5).index := by
  intro source fresh s
  have hn : EndsAt source 6 := by
    constructor <;> decide
  have hfresh : Reachable (.onChannel 0) source fresh := .ofSource () {}
  have hs : Reachable (.onChannel 0) source s := hfresh.answers [.pull 2, .consume]
  have hcursor : s.cursor = some 4 := by decide +kernel
  obtain ⟨hrest, hseek, hstay, -, hmono⟩ := seek_onChannel hn hs
  obtain ⟨-, -, -, hprime, -⟩ := seek_onChannel hn hfresh
  refine ⟨hn, hfresh, hs, hcursor, ?_, ?_, rfl, ?_, ?_, ?_, ?_⟩
  . exact (hrest 4 hcursor).1
  . exact hstay 4 hcursor
  . exact hprime rfl
  . exact (hseek 2).2.1 (by decide)
  . exact (hseek Position.limit).2.2 (by decide)
  . exact hmono 2 5 (by decide)

end TokenStream

end Lookahead
