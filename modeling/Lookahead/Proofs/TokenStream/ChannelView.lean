import Lookahead.Proofs.Tape.Search
import Lookahead.Proofs.TokenStream.Consume

/-!
This module contains what a reader sees that goes through a stream on a channel one token at a time:
all the tokens of the source on that channel and no others, up to the end of the input.
-/

namespace Lookahead

namespace TokenStream

open TokenSource (IsFirstOn EndsAt KindTells nth take)

variable {σ τ μ : Type} [Token τ] [TokenSource σ τ]

/--
Read on from where the stream is until lookahead finds the end of the input: the tokens read, each
with how the step over it went, and the stream in the end. There is no result if the end does not
come within `rounds` tokens.
-/
def readOn {rule : LandingRule σ τ μ} :
    Nat → TokenStream rule → Option (List (Option τ × Except Fault Unit) × TokenStream rule)
  | rounds, s =>
    let (symbol, s) := s.look 1
    if symbol = Symbol.eof then
      some ([], s)
    else
      match rounds with
      | 0 => none
      | rounds + 1 =>
        let (t, s) := s.peek 1
        let (outcome, s) := s.consume
        (readOn rounds s).map fun (read, s) => ((t, outcome) :: read, s)

/--
In at most `rounds` rounds the tokens `ts` are read, each with a step that is granted, which brings
the stream to index `n`.
-/
def Reads {rule : LandingRule σ τ μ} (s : TokenStream rule) (rounds : Nat) (ts : List τ) (n : Nat) :
    Prop :=
  ∃ u, s.readOn rounds = some (ts.map fun t => (some t, .ok ()), u) ∧ u.index = n

section Rounds

variable {rule : LandingRule σ τ μ} {s : TokenStream rule}

theorem readOn_of_eof (h : (s.look 1).1 = Symbol.eof) (rounds : Nat) :
    s.readOn rounds = some ([], (s.look 1).2) := by
  rw [readOn]
  dsimp only
  rw [if_pos h]

theorem readOn_of_ne_eof (h : (s.look 1).1 ≠ Symbol.eof) (rounds : Nat) :
    s.readOn (rounds + 1) =
      let peeked := (s.look 1).2.peek 1
      (peeked.2.consume.2.readOn rounds).map fun r =>
        ((peeked.1, peeked.2.consume.1) :: r.1, r.2) := by
  rw [readOn]
  dsimp only
  rw [if_neg h]

end Rounds

section Filter

variable {source : σ} {n : Nat} {channel : UInt32}

theorem filter_drop_take (hn : EndsAt source n) {i j : Nat}
    (h : IsFirstOn source channel i j) (hj : j ≤ n) :
    ((take n source).drop i).filter (Token.channel · == channel) =
      ((take n source).drop j).filter (Token.channel · == channel) := by
  obtain ⟨d, rfl⟩ := Nat.exists_eq_add_of_le h.le
  induction d generalizing i with
  | zero => rfl
  | succ d ih =>
    have hoff := h.isOn_eq_false i (Nat.le_refl i) (by omega)
    rw [hn.isOn_nth_of_lt (by omega)] at hoff
    have hnext : IsFirstOn source channel (i + 1) (i + 1 + d) := by
      rw [Nat.add_right_comm]
      constructor
      . omega
      . exact h.isOn
      . intro k hik hk
        exact h.isOn_eq_false k (by omega) hk
    rw [TokenSource.drop_take (by omega)]
    rw [List.filter_cons_of_neg (by simp [hoff])]
    rw [ih hnext (by omega)]
    rw [Nat.add_right_comm]
    rfl

theorem filter_drop_take_end (hn : EndsAt source n) {i : Nat}
    (h : IsFirstOn source channel i n) :
    ((take n source).drop i).filter (Token.channel · == channel) = [] := by
  rw [filter_drop_take hn h (Nat.le_refl n)]
  rw [List.drop_eq_nil_of_le]
  . rfl
  . exact Nat.le_of_eq (TokenSource.length_take n source)

theorem filter_drop_take_cons (hn : EndsAt source n) {i j : Nat}
    (h : IsFirstOn source channel i j) (hj : j < n) :
    ((take n source).drop i).filter (Token.channel · == channel) =
      nth source j :: ((take n source).drop (j + 1)).filter (Token.channel · == channel) := by
  have hon := h.isOn
  rw [hn.isOn_nth_of_lt hj] at hon
  rw [filter_drop_take hn h (Nat.le_of_lt hj)]
  rw [TokenSource.drop_take hj]
  rw [List.filter_cons_of_pos]
  exact hon

end Filter

section Reading

variable {source : σ} {n : Nat} {channel : UInt32}
variable {s : TokenStream (LandingRule.onChannel (σ := σ) (τ := τ) channel)}

theorem isFirstOn_moveTo (h : s.tape.Records source) (hn : EndsAt source n) (i : Nat) :
    IsFirstOn source channel (min i n) (s.moveTo i).prime.index := by
  rw [prime_moveTo]
  exact h.isFirstOn_nextOn hn i channel

theorem isFirstOn_prime (h : s.tape.Records source) (hn : EndsAt source n) (hs : s.cursor = none) :
    IsFirstOn source channel 0 s.prime.index := by
  have hrecords := h.grows (s.tape.grows_ensure 0)
  have hfirst := isFirstOn_moveTo (s := s.withTape (s.tape.ensure 0)) hrecords hn 0
  rw [prime_moveTo] at hfirst
  rw [Nat.zero_min] at hfirst
  rw [prime_of_eq_none hs]
  exact hfirst

theorem Reachable.isFirstOn_consume (hs : Reachable (.onChannel channel) source s)
    (hn : EndsAt source n) (hk : KindTells source) (h : s.prime.index < n) :
    IsFirstOn source channel (s.prime.index + 1) s.consume.2.prime.index := by
  have hrecords := hs.records_prime.grows (s.prime.tape.grows_ensure (s.prime.index + 1))
  have hfirst := isFirstOn_moveTo (s := s.prime.withTape _) hrecords hn (s.prime.index + 1)
  rw [Nat.min_eq_left h] at hfirst
  rw [hs.consume_snd_of_lt hn hk h]
  exact hfirst

theorem Reachable.reads_nil (hs : Reachable (.onChannel channel) source s)
    (hn : EndsAt source n) (hk : KindTells source) (h : s.prime.index = n) (rounds : Nat) :
    s.Reads rounds [] n := by
  have heof := (hs.look_one_eq_eof_iff hn hk).mpr (Nat.le_of_eq h.symm)
  refine ⟨(s.look 1).2, readOn_of_eof heof rounds, ?_⟩
  rw [(s.grows_look 1).index_eq]
  exact h

/--
One round reads the token that the stream is on and goes on to the next on the channel.
-/
theorem Reachable.reads_cons (hs : Reachable (.onChannel channel) source s)
    (hn : EndsAt source n) (hk : KindTells source) (h : s.prime.index < n) :
    ∃ t, Reachable (.onChannel channel) source t ∧
      IsFirstOn source channel (s.prime.index + 1) t.prime.index ∧
      ∀ rounds ts, t.Reads rounds ts n →
        s.Reads (rounds + 1) (nth source s.prime.index :: ts) n := by
  have hne := mt (hs.look_one_eq_eof_iff hn hk).mp (Nat.not_le_of_lt h)
  have hlooked : Reachable (.onChannel channel) source (s.look 1).2 := hs.answer (.look 1)
  have hpeeked : Reachable (.onChannel channel) source ((s.look 1).2.peek 1).2 :=
    hlooked.answer (.peek 1)
  -- Looking and peeking leave the stream on the token that is read.
  have hindex := (s.grows_look 1).index_prime_eq
  have hindex' := ((s.look 1).2.grows_peek 1).index_prime_eq
  rw [hindex] at hindex'
  have htoken := hlooked.peek_of_pos hn (k := 1) Int.one_pos
  have hmin : (min ((s.prime.index : Int) + 1 - 1) n).toNat = s.prime.index := by omega
  rw [hindex] at htoken
  rw [hmin] at htoken
  have hok := (hpeeked.consume_eq_ok_iff hn hk).mpr (by rwa [hindex'])
  have hnext := hpeeked.isFirstOn_consume hn hk (by rwa [hindex'])
  rw [hindex'] at hnext
  refine ⟨_, hpeeked.consume, hnext, ?_⟩
  rintro rounds ts ⟨u, hread, hu⟩
  refine ⟨u, ?_, hu⟩
  rw [readOn_of_ne_eof hne]
  dsimp only
  rw [hread]
  rw [hok]
  rw [htoken]
  rfl

/--
From a position that a search on the channel has come to, all tokens on the channel are read that
are left from where the search began.
-/
theorem Reachable.reads_filter (hs : Reachable (.onChannel channel) source s)
    (hn : EndsAt source n) (hk : KindTells source) {i : Nat}
    (h : IsFirstOn source channel i s.prime.index) (hi : i ≤ n) {rounds : Nat}
    (hrounds : n ≤ s.prime.index + rounds) :
    s.Reads rounds (((take n source).drop i).filter (Token.channel · == channel)) n := by
  induction rounds generalizing s i with
  | zero =>
    have hend : s.prime.index = n := Nat.le_antisymm (h.le_end hn hi) hrounds
    rw [hend] at h
    rw [filter_drop_take_end hn h]
    exact hs.reads_nil hn hk hend 0
  | succ rounds ih =>
    rcases Nat.eq_or_lt_of_le (h.le_end hn hi) with hend | hlt
    . rw [hend] at h
      rw [filter_drop_take_end hn h]
      exact hs.reads_nil hn hk hend (rounds + 1)
    . obtain ⟨t, ht, hnext, hcons⟩ := hs.reads_cons hn hk hlt
      have hle := hnext.le
      rw [filter_drop_take_cons hn h hlt]
      apply hcons
      apply ih ht hnext
      . exact hlt
      . omega

end Reading

/--
Reading on from the start, a stream on a channel reads the tokens of the source on that channel, in
order and each once, steps over every one of them, and ends at the end of the input. The same goes,
from index `i` on, for reading on after a seek to `i` in any state.
-/
theorem reads_onChannel {source : σ} {n : Nat} (hn : EndsAt source n) (hk : KindTells source)
    (channel : UInt32) :
    (∀ (settings : TokenSettings), ∀ rounds ≥ n,
      (ofSource (.onChannel channel) () source settings).Reads rounds
        ((take n source).filter (Token.channel · == channel)) n) ∧
      ∀ s : TokenStream (.onChannel channel), Reachable (.onChannel channel) source s →
        ∀ i, ∀ rounds ≥ n,
          (s.seek i).Reads rounds
            (((take n source).drop i).filter (Token.channel · == channel)) n := by
  constructor
  . intro settings rounds hrounds
    have hs : Reachable (.onChannel channel) source _ := .ofSource () settings
    have hfirst := isFirstOn_prime hs.records hn rfl
    exact hs.reads_filter hn hk hfirst (Nat.zero_le n) (by omega)
  . intro s hs i rounds hrounds
    have hfirst := isFirstOn_moveTo hs.records_prime hn i
    have hdrop : (take n source).drop i = (take n source).drop (min i n) := by
      rw [List.drop_eq_drop_min]
      rw [TokenSource.length_take]
    rw [hdrop]
    exact (hs.answer (.seek i)).reads_filter hn hk hfirst (Nat.min_le_right i n) (by omega)

theorem reads_onChannel_between_hidden :
    let source : Replay :=
      ⟨#[⟨2, " ", 1, 0, 0, 0⟩, ⟨1, "x", 0, 0, 1, 1⟩, ⟨2, " ", 1, 0, 2, 2⟩, ⟨3, "#", 2, 0, 3, 3⟩,
        ⟨1, "y", 0, 0, 4, 4⟩, ⟨2, " ", 1, 0, 5, 5⟩], 0, ""⟩
    let fresh : TokenStream (.onChannel 0) := ofSource (.onChannel 0) () source {}
    let later := (fresh.answers [.consume, .drain, .seek 90]).2
    EndsAt source 6 ∧ KindTells source ∧ Reachable (.onChannel 0) source later ∧
      fresh.Reads 6 [⟨1, "x", 0, 1, 1, 1⟩, ⟨1, "y", 0, 4, 4, 4⟩] 6 ∧
      (later.seek 2).Reads 6 [⟨1, "y", 0, 4, 4, 4⟩] 6 := by
  intro source fresh later
  have hn : EndsAt source 6 := by
    constructor <;> decide
  have hk := TokenSource.kindTells_of_plain source
  have hfresh : Reachable (.onChannel 0) source fresh := .ofSource () {}
  have hlater := hfresh.answers [.consume, .drain, .seek 90]
  obtain ⟨hstart, hseek⟩ := reads_onChannel hn hk 0
  have hall : (take 6 source).filter (Token.channel · == 0) =
      [⟨1, "x", 0, 1, 1, 1⟩, ⟨1, "y", 0, 4, 4, 4⟩] := by decide
  have hrest : ((take 6 source).drop 2).filter (Token.channel · == 0) =
      [⟨1, "y", 0, 4, 4, 4⟩] := by decide
  have hread := hstart {} 6 (Nat.le_refl 6)
  have hread' := hseek later hlater 2 6 (Nat.le_refl 6)
  rw [hall] at hread
  rw [hrest] at hread'
  exact ⟨hn, hk, hlater, hread, hread'⟩

end TokenStream

end Lookahead
