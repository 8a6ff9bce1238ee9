import Lookahead.Proofs.TokenStream.Consume
import Lookahead.TokenSource.Listed

/-!
This module contains what looking at the next token does to the token being consumed afterwards. A
look that is repeated changes nothing, and neither does one before a step. But it puts the token on
the tape, and for a token on the tape a stream goes by whether the token is the end of the input
and no longer by its kind, so the two must not be at odds.
-/

namespace Lookahead

namespace TokenStream

open TokenSource (EndsAt nth)

variable {σ τ μ : Type} [Token τ] [TokenSource σ τ] {rule : LandingRule σ τ μ}

section Again

variable (s : TokenStream rule)

theorem peek_eq_of_pos {k : Int} (hk : 0 < k) :
    s.peek k =
      let i := Position.add s.prime.index (k.toNat - 1)
      let tape := s.prime.tape.ensure i
      (tape.tokens[i]?.or tape.tokens.back?, s.prime.withTape tape) := by
  unfold peek
  rw [if_pos hk]

theorem behind_behind (k : Nat) : (s.behind k).2.behind k = s.behind k := by
  change s.prime.behind k = s.behind k
  unfold behind
  rw [prime_of_isSome s.isSome_cursor_prime]

theorem peek_peek (k : Int) : (s.peek k).2.peek k = s.peek k := by
  by_cases hk : 0 < k
  . have hprime := (s.grows_peek k).prime_eq
    rw [peek_eq_of_pos _ hk]
    rw [hprime]
    rw [peek_eq_of_pos _ hk]
    dsimp only [withTape, index]
    rw [Tape.ensure_ensure (Nat.le_refl _)]
  . have hpeek : ∀ t : TokenStream rule, t.peek k = t.behind k.natAbs := by
      intro t
      unfold peek
      rw [if_neg hk]
    rw [hpeek]
    rw [hpeek]
    rw [behind_behind]

theorem look_look (k : Int) : (s.look k).2.look k = s.look k := by
  unfold look
  dsimp only
  rw [peek_peek]

end Again

section Consume

variable {s : TokenStream rule}

theorem look_snd_of_canStep (h : s.canStep = true) : (s.look 1).2 = s := by
  cases hc : s.cursor with
  | none => simp [canStep, hc] at h
  | some p =>
    have hprime : s.prime = s := prime_of_isSome (by simp [hc])
    have hindex : s.index = p := by simp [index, hc]
    have hp : Position.add p 0 < s.tape.size := by
      simp only [canStep, hc, size, Position.succ] at h
      simp only [Position.add] at h ⊢
      split at h
      . have := of_decide_eq_true h
        omega
      . have := of_decide_eq_true h
        omega
    have hlook : (s.look 1).2 =
        s.prime.withTape (s.prime.tape.ensure (Position.add s.prime.index 0)) := rfl
    rw [hlook]
    rw [hprime]
    rw [hindex]
    rw [Tape.ensure_of_lt hp]
    rfl

theorem look_fst_of_peek {k : Int} {t : τ} (h : (s.peek k).1 = some t) :
    (s.look k).1 = Token.kind t := by
  unfold look
  dsimp only
  rw [h]

theorem consume_of_ne_eof (h : (s.look 1).1 ≠ Symbol.eof) : s.consume = (.ok (), s.step) := by
  rcases s.consume_cases with ⟨hconsume, -⟩ | ⟨-, heof⟩
  . exact hconsume
  . exact absurd heof h

/--
A look that does not find the end of the input makes sure of the step.
-/
theorem consume_look_of_ne_eof (h : (s.look 1).1 ≠ Symbol.eof) :
    (s.look 1).2.consume = (.ok (), s.step) := by
  rw [consume_of_ne_eof]
  . rw [step_look]
  . rwa [look_look]

/--
A look that finds the end of the input is the same as being refused, unless the token that it has put
on the tape is not the end.
-/
theorem consume_look_of_eof (h : (s.look 1).1 = Symbol.eof) :
    (s.look 1).2.consume =
      if (s.look 1).2.canStep then (.ok (), s.step) else (.error .consumeEof, (s.look 1).2) := by
  unfold consume
  rw [look_look]
  rw [step_look]
  dsimp only
  rw [if_pos h]

theorem consume_of_eof (hstep : s.canStep = false) (h : (s.look 1).1 = Symbol.eof) :
    s.consume = (.error .consumeEof, (s.look 1).2) := by
  unfold consume
  dsimp only
  rw [hstep]
  rw [if_neg Bool.false_ne_true]
  rw [if_pos h]

end Consume

section Source

variable {source : σ} {s : TokenStream rule}

theorem peek_one_eq (h : s.prime.index ≤ Position.limit) :
    s.peek 1 =
      let tape := s.prime.tape.ensure s.prime.index
      (tape.tokens[s.prime.index]?.or tape.tokens.back?, s.prime.withTape tape) := by
  have hadd : Position.add s.prime.index (Int.toNat 1 - 1) = s.prime.index :=
    Position.add_eq_of_le h
  rw [peek_eq_of_pos _ Int.one_pos]
  rw [hadd]

theorem Reachable.lt_size_ensure_of_open (hs : Reachable rule source s)
    (hp : s.prime.index + 1 < Position.limit)
    (hopen : ∀ i ≤ s.prime.index, Token.isEof (nth source i) = false) :
    s.prime.index < (s.prime.tape.ensure s.prime.index).size := by
  apply hs.records_prime.lt_size_ensure
  . exact fun i hi => hopen i (Nat.le_of_lt hi)
  . omega

/--
Before the end of the input a look is enough for the shortcut.
-/
theorem Reachable.canStep_look (hs : Reachable rule source s)
    (hp : s.prime.index + 1 < Position.limit)
    (hopen : ∀ i ≤ s.prime.index, Token.isEof (nth source i) = false) :
    (s.look 1).2.canStep = true := by
  have hrecords := hs.records_prime.grows (s.prime.tape.grows_ensure s.prime.index)
  change (s.peek 1).2.canStep = true
  rw [peek_one_eq (by omega)]
  unfold canStep withTape
  dsimp only
  rw [cursor_prime]
  dsimp only
  split
  . next he =>
    rw [Position.succ_eq_of_lt (by omega)]
    apply decide_eq_true
    exact hrecords.lt_size_of_exhausted he fun i hi => hopen i (Nat.le_of_lt_succ hi)
  . exact decide_eq_true (hs.lt_size_ensure_of_open hp hopen)

theorem Reachable.canStep_of_le {n : Nat} (hs : Reachable rule source s) (hn : EndsAt source n)
    (h : n ≤ s.prime.index) : s.canStep = false := by
  rw [← Bool.not_eq_true]
  intro hstep
  have := hs.lt_of_canStep hn hstep
  omega

theorem Reachable.peek_one_of_open (hs : Reachable rule source s)
    (hp : s.prime.index + 1 < Position.limit)
    (hopen : ∀ i ≤ s.prime.index, Token.isEof (nth source i) = false) :
    (s.peek 1).1 = some (nth source s.prime.index) := by
  have hrecords := hs.records_prime.grows (s.prime.tape.grows_ensure s.prime.index)
  rw [peek_one_eq (by omega)]
  dsimp only
  rw [hrecords.getElem?_tokens]
  rw [if_pos (hs.lt_size_ensure_of_open hp hopen)]
  rfl

theorem Reachable.peek_one_of_le {n : Nat} (hs : Reachable rule source s) (hn : EndsAt source n)
    (h : n ≤ s.prime.index) : (s.peek 1).1 = some (nth source n) := by
  have hmin : (min ((s.prime.index : Int) + 1 - 1) n).toNat = n := by omega
  rw [hs.peek_of_pos hn Int.one_pos]
  rw [hmin]

end Source

/--
The token that the stream is on has the kind of the end of the input and is not the end, which the
stream does not see from its tape yet.
-/
def Misled (s : TokenStream rule) : Prop :=
  s.canStep = false ∧
    ∃ t, (s.peek 1).1 = some t ∧ Token.kind t = Symbol.eof ∧ Token.isEof t = false

section Harmless

variable {source : σ} {s : TokenStream rule}

theorem Reachable.canStep_look_iff_misled (hs : Reachable rule source s)
    (h : s.prime.index + 1 < Position.limit ∨ ∃ n, EndsAt source n) (hstep : s.canStep = false)
    (heof : (s.look 1).1 = Symbol.eof) : (s.look 1).2.canStep = true ↔ s.Misled := by
  rcases TokenSource.endsAt_le_or h with ⟨n, hle, hn⟩ | ⟨hp, hopen⟩
  . have hlooked : Reachable rule source (s.look 1).2 := hs.answer (.look 1)
    have hindex := (s.grows_look 1).index_prime_eq
    rw [hlooked.canStep_of_le hn (by omega)]
    simp [Misled, hs.peek_one_of_le hn hle, hn.isEof_nth]
  . have hpeek := hs.peek_one_of_open hp hopen
    rw [look_fst_of_peek hpeek] at heof
    rw [hs.canStep_look hp hopen]
    simp [Misled, hstep, hpeek, heof, hopen _ (Nat.le_refl _)]

theorem Reachable.not_misled (hs : Reachable rule source s) (hk : TokenSource.EofOfKind source)
    (h : s.prime.index + 1 < Position.limit ∨ ∃ n, EndsAt source n) : ¬s.Misled := by
  rintro ⟨-, t, ht, hkind, hnot⟩
  rcases TokenSource.endsAt_le_or h with ⟨n, hle, hn⟩ | ⟨hp, hopen⟩
  . rw [hs.peek_one_of_le hn hle] at ht
    cases ht
    rw [hn.isEof_nth] at hnot
    contradiction
  . rw [hs.peek_one_of_open hp hopen] at ht
    cases ht
    rw [hk _ hkind] at hnot
    contradiction

end Harmless

/--
Looking before consuming makes no difference, to the outcome or to the stream, but for a stream on a
token whose kind misleads it: consuming alone is refused there, and after a look it is granted. With
a source whose tokens are the end of the input whenever their kind is, no stream comes to that.
-/
theorem consume_look_eq_iff {source : σ} {s : TokenStream rule} (hs : Reachable rule source s)
    (h : s.prime.index + 1 < Position.limit ∨ ∃ n, EndsAt source n) :
    ((s.look 1).2.consume = s.consume ↔ ¬s.Misled) ∧
      (s.Misled → s.consume.1 = .error .consumeEof ∧ (s.look 1).2.consume = (.ok (), s.step)) ∧
      (TokenSource.EofOfKind source → (s.look 1).2.consume = s.consume) := by
  have hmisled : s.Misled →
      s.consume.1 = .error .consumeEof ∧ (s.look 1).2.consume = (.ok (), s.step) := by
    intro hm
    obtain ⟨hstep, t, ht, hkind, -⟩ := id hm
    have heof : (s.look 1).1 = Symbol.eof := (look_fst_of_peek ht).trans hkind
    rw [consume_of_eof hstep heof]
    rw [consume_look_of_eof heof]
    rw [(hs.canStep_look_iff_misled h hstep heof).mpr hm]
    exact ⟨rfl, rfl⟩
  have hother : ¬s.Misled → (s.look 1).2.consume = s.consume := by
    intro hm
    cases hstep : s.canStep with
    | true => rw [look_snd_of_canStep hstep]
    | false =>
      by_cases heof : (s.look 1).1 = Symbol.eof
      . rw [← hs.canStep_look_iff_misled h hstep heof] at hm
        rw [consume_of_eof hstep heof]
        rw [consume_look_of_eof heof]
        rw [if_neg hm]
      . rw [consume_look_of_ne_eof heof]
        rw [consume_of_ne_eof heof]
  refine ⟨⟨?_, hother⟩, hmisled, ?_⟩
  . intro heq hm
    obtain ⟨herror, hok⟩ := hmisled hm
    rw [← heq] at herror
    rw [hok] at herror
    contradiction
  . intro hk
    exact hother (hs.not_misled hk h)

theorem consume_look_eq_iff_second_look :
    let source : Listed :=
      ⟨#[⟨7, "a", 0, none, none⟩, ⟨Symbol.eof, "b", 1, some false, none⟩,
        ⟨9, "c", 2, some true, none⟩], 0⟩
    let s : TokenStream (μ := Unit) .exact := ((ofSource .exact () source {}).answers [.seek 1]).2
    let looked := (s.look 1).2
    Reachable .exact source s ∧ Reachable .exact source looked ∧ EndsAt source 2 ∧
      s.Misled ∧ s.consume.1 = .error .consumeEof ∧ looked.consume = (.ok (), s.step) ∧
      ¬looked.Misled ∧ (looked.look 1).2.consume = looked.consume := by
  intro source s looked
  have hs : Reachable .exact source s := (Reachable.ofSource () {}).answers [.seek 1]
  have hlooked : Reachable .exact source looked := hs.answer (.look 1)
  have hn : EndsAt source 2 := by
    constructor <;> decide
  have hmisled : s.Misled := ⟨by decide, _, rfl, by decide, by decide⟩
  have hnot : ¬looked.Misled := fun h => absurd h.1 (by decide)
  obtain ⟨-, hrefused, -⟩ := consume_look_eq_iff hs (.inr ⟨2, hn⟩)
  obtain ⟨herror, hok⟩ := hrefused hmisled
  have hsame := (consume_look_eq_iff hlooked (.inr ⟨2, hn⟩)).1.mpr hnot
  exact ⟨hs, hlooked, hn, hmisled, herror, hok, hnot, hsame⟩

/--
On a token that has the kind of the end of the input and is not the end, a new stream consumes just
if it has looked before.
-/
theorem consume_look_ne :
    let source : Listed := ⟨#[⟨Symbol.eof, "x", 0, some false, none⟩], 0⟩
    let fresh : TokenStream (μ := Unit) .exact := ofSource .exact () source {}
    Reachable .exact source fresh ∧ EndsAt source 1 ∧
      fresh.consume.1 = .error .consumeEof ∧ fresh.consume.2.index = 0 ∧
      (fresh.look 1).2.consume.1 = .ok () ∧ (fresh.look 1).2.consume.2.index = 1 := by
  intro source fresh
  have hn : EndsAt source 1 := by
    constructor <;> decide
  exact ⟨.ofSource () {}, hn, rfl, by decide, rfl, by decide⟩

end TokenStream

end Lookahead
