import Lookahead.Proofs.TokenStream.ChannelView

/-!
This module contains what the index of a stream names: the token that lookahead finds next, as long as
that is not the end of the input. A stream that has no cursor yet reports the start and does not ask
its rule, so there the index names the next token only if the rule lets the stream rest at the start.
-/

namespace Lookahead

namespace TokenStream

open TokenSource (EndsAt IsFirstOn nth)

variable {σ τ μ : Type} [Token τ] [TokenSource σ τ]

section Next

variable {rule : LandingRule σ τ μ} {source : σ} {n : Nat} {s : TokenStream rule} {t : τ}

/--
Before the end of the input the next token is the one where the stream is once it is primed.
-/
theorem Reachable.lt_and_eq_nth_of_peek_one (hs : Reachable rule source s) (hn : EndsAt source n)
    (ht : (s.peek 1).1 = some t) (heof : Token.isEof t = false) :
    s.prime.index < n ∧ t = nth source s.prime.index := by
  have hpeek := hs.peek_of_pos hn Int.one_pos
  have hmin : (min ((s.prime.index : Int) + 1 - 1) n).toNat = min s.prime.index n := by omega
  rw [ht] at hpeek
  rw [hmin] at hpeek
  have heq := Option.some.inj hpeek
  have hlt : s.prime.index < n := by
    rw [heq] at heof
    rw [hn.isEof_nth_min] at heof
    simpa using heof
  refine ⟨hlt, ?_⟩
  rwa [Nat.min_eq_left (Nat.le_of_lt hlt)] at heq

end Next

section Channel

variable {source : σ} {n : Nat} {channel : UInt32}
variable {s : TokenStream (LandingRule.onChannel (σ := σ) (τ := τ) channel)}

/--
A new stream on a channel is to be primed to the start just if the first token is on the channel.
-/
theorem nth_prime_index_eq_iff (h : s.tape.Records source) (hn : EndsAt source n)
    (hs : s.cursor = none) (hlt : s.prime.index < n) :
    nth source s.prime.index = nth source 0 ↔ Token.channel (nth source 0) = channel := by
  have hfirst := isFirstOn_prime h hn hs
  have hstart : Tape.isOn channel (nth source 0) = (Token.channel (nth source 0) == channel) := by
    apply hn.isOn_nth_of_lt
    omega
  constructor
  . intro heq
    have hon := hfirst.isOn
    rw [heq] at hon
    rw [hstart] at hon
    simpa using hon
  . intro hchannel
    have hzero : s.prime.index = 0 := by
      apply hfirst.unique
      constructor
      . apply Nat.le_refl
      . simpa [hstart] using hchannel
      . omega
    rw [hzero]

end Channel

/--
The next token, unless it is the end of the input, is the token of the source at the index of the
stream, if the stream has a cursor or lands exactly, and in any case it is the one at the index after
the look. A stream on a channel that has no cursor yet is at index 0 before, and after the look at the
first index on the channel, so that the index before names the next token just if the token there is
on the channel.
-/
theorem peek_one_at_index {source : σ} {n : Nat} (hn : EndsAt source n)
    {rule : LandingRule σ τ Unit} (hrule : rule = .exact ∨ ∃ channel, rule = .onChannel channel)
    {s : TokenStream rule} (hs : Reachable rule source s) {t : τ} (ht : (s.peek 1).1 = some t)
    (heof : Token.isEof t = false) :
    (s.cursor.isSome ∨ rule = .exact → t = nth source s.index) ∧
      t = nth source (s.peek 1).2.index ∧
      ∀ channel, rule = .onChannel channel → s.cursor = none →
        s.index = 0 ∧ IsFirstOn source channel 0 (s.peek 1).2.index ∧
          (t = nth source s.index ↔ Token.channel (nth source 0) = channel) := by
  obtain ⟨hlt, htoken⟩ := hs.lt_and_eq_nth_of_peek_one hn ht heof
  have hafter := (s.grows_peek 1).index_eq
  refine ⟨?_, ?_, ?_⟩
  . rintro (hsome | rfl)
    . rwa [prime_of_isSome hsome] at htoken
    . rwa [index_prime_of_exact] at htoken
  . rw [hafter]
    exact htoken
  . rintro channel rfl hc
    have hfirst := isFirstOn_prime hs.records hn hc
    rw [hafter]
    rw [index_of_eq_none hc]
    rw [htoken]
    refine ⟨rfl, hfirst, ?_⟩
    apply nth_prime_index_eq_iff hs.records hn hc hlt

theorem peek_one_at_index_among_hidden :
    let source : Replay :=
      ⟨#[⟨2, " ", 1, 0, 0, 0⟩, ⟨1, "x", 0, 0, 1, 1⟩, ⟨2, " ", 1, 0, 2, 2⟩, ⟨3, "y", 0, 0, 3, 3⟩], 0, ""⟩
    let fresh : TokenStream (.onChannel 0) := ofSource (.onChannel 0) () source {}
    let s := (fresh.answers [.pull 2, .consume]).2
    EndsAt source 4 ∧ Reachable (.onChannel 0) source fresh ∧ Reachable (.onChannel 0) source s ∧
      (fresh.peek 1).1 = some ⟨1, "x", 0, 1, 1, 1⟩ ∧ (s.peek 1).1 = some ⟨3, "y", 0, 3, 3, 3⟩ ∧
      s.cursor.isSome ∧ nth source s.index = ⟨3, "y", 0, 3, 3, 3⟩ ∧ fresh.cursor = none ∧
      IsFirstOn source 0 0 (fresh.peek 1).2.index ∧
      nth source (fresh.peek 1).2.index = ⟨1, "x", 0, 1, 1, 1⟩ := by
  intro source fresh s
  have hn : EndsAt source 4 := by
    constructor <;> decide
  have hfresh : Reachable (.onChannel 0) source fresh := .ofSource () {}
  have hs : Reachable (.onChannel 0) source s := hfresh.answers [.pull 2, .consume]
  have hfirst : (fresh.peek 1).1 = some ⟨1, "x", 0, 1, 1, 1⟩ := by decide +kernel
  have hnext : (s.peek 1).1 = some ⟨3, "y", 0, 3, 3, 3⟩ := by decide +kernel
  have hsome : s.cursor.isSome := by decide +kernel
  obtain ⟨hindex, -, -⟩ := peek_one_at_index hn (.inr ⟨0, rfl⟩) hs hnext rfl
  obtain ⟨-, hafter, hnew⟩ := peek_one_at_index hn (.inr ⟨0, rfl⟩) hfresh hfirst rfl
  obtain ⟨-, hsearch, -⟩ := hnew 0 rfl rfl
  exact ⟨hn, hfresh, hs, hfirst, hnext, hsome, (hindex (.inl hsome)).symm, rfl, hsearch, hafter.symm⟩

/--
A new stream on a channel reports the start of the input, and the token that it then finds is another
if the first token is on another channel.
-/
theorem peek_one_ne_at_index :
    let source : Replay := ⟨#[⟨11, "\n", 1, 0, 0, 0⟩, ⟨10, "x", 0, 0, 1, 1⟩], 0, ""⟩
    let fresh : TokenStream (.onChannel 0) := ofSource (.onChannel 0) () source {}
    EndsAt source 2 ∧ Reachable (.onChannel 0) source fresh ∧ fresh.index = 0 ∧
      (fresh.peek 1).1 = some ⟨10, "x", 0, 1, 1, 1⟩ ∧
      Token.isEof (⟨10, "x", 0, 1, 1, 1⟩ : PlainToken) = false ∧
      nth source fresh.index = ⟨11, "\n", 1, 0, 0, 0⟩ ∧
      (fresh.peek 1).1 ≠ some (nth source fresh.index) := by
  intro source fresh
  have hn : EndsAt source 2 := by
    constructor <;> decide
  refine ⟨hn, .ofSource () {}, rfl, ?_, ?_, ?_, ?_⟩
  all_goals decide +kernel

end TokenStream

end Lookahead
