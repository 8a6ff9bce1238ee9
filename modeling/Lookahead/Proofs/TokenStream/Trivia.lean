import Lookahead.Proofs.Tape.Nearest
import Lookahead.Proofs.TokenStream.Run
import Lookahead.TokenSource.Listed
import Lookahead.TokenSource.Replay
import Lookahead.TokenStream.Range

/-!
This module contains what the trivia beside a token are in terms of the source: those behind it, back
to the last token on the standard channel, and those ahead of it, up to the next one. The search ahead
hands over the token that stops it as well, if that is of the kind asked for.
-/

namespace Lookahead

namespace TokenSource

variable {σ τ : Type} [Token τ] [TokenSource σ τ]

def IsStandard (source : σ) (i : Nat) : Prop := Token.channel (nth source i) = Channel.standard

instance (source : σ) (i : Nat) : Decidable (IsStandard source i) :=
  inferInstanceAs (Decidable (_ = _))

/--
The position after the last token before `i` on the standard channel, or the start of the source if
there is none.
-/
def triviaStart (source : σ) : Nat → Nat
  | 0 => 0
  | i + 1 => if IsStandard source i then i + 1 else triviaStart source i

section Start

variable {source : σ} {n i : Nat}

theorem triviaStart_succ_of_isStandard (h : IsStandard source i) :
    triviaStart source (i + 1) = i + 1 := if_pos h

theorem triviaStart_succ_of_not_isStandard (h : ¬IsStandard source i) :
    triviaStart source (i + 1) = triviaStart source i := if_neg h

theorem triviaStart_le (source : σ) (i : Nat) : triviaStart source i ≤ i := by
  induction i with
  | zero => apply Nat.le_refl
  | succ i ih =>
    unfold triviaStart
    split
    . apply Nat.le_refl
    . apply Nat.le_succ_of_le ih

theorem not_isStandard_of_triviaStart_le {k : Nat} (h : triviaStart source i ≤ k) (hk : k < i) :
    ¬IsStandard source k := by
  induction i with
  | zero => omega
  | succ i ih =>
    by_cases hi : IsStandard source i
    . rw [triviaStart_succ_of_isStandard hi] at h
      omega
    . rw [triviaStart_succ_of_not_isStandard hi] at h
      rcases Nat.eq_or_lt_of_le (Nat.le_of_lt_succ hk) with rfl | hk
      . exact hi
      . apply ih h hk

theorem triviaStart_eq {start : Nat} (hle : start ≤ i)
    (hstart : ∀ k, start = k + 1 → IsStandard source k)
    (hoff : ∀ k, start ≤ k → k < i → ¬IsStandard source k) : triviaStart source i = start := by
  induction i with
  | zero => exact (Nat.le_zero.mp hle).symm
  | succ i ih =>
    rcases Nat.eq_or_lt_of_le hle with rfl | hlt
    . apply triviaStart_succ_of_isStandard
      apply hstart i rfl
    . rw [triviaStart_succ_of_not_isStandard (hoff i (Nat.le_of_lt_succ hlt) (Nat.lt_succ_self i))]
      apply ih (Nat.le_of_lt_succ hlt)
      intro k hk hki
      apply hoff k hk
      omega

theorem EndsAt.isOn_standard_iff (hn : EndsAt source n) (hi : i < n) :
    Tape.isOn Channel.standard (nth source i) = true ↔ IsStandard source i := by
  rw [hn.isOn_nth_of_lt hi]
  apply beq_iff_eq

theorem EndsAt.isOn_standard_eq_false (hn : EndsAt source n) (hi : i < n)
    (h : ¬IsStandard source i) : Tape.isOn Channel.standard (nth source i) = false := by
  rw [← hn.isOn_standard_iff hi] at h
  simpa using h

theorem EndsAt.triviaStart_of_isLastOn (hn : EndsAt source n) (hi : i < n) {last : Option Nat} :
    IsLastOn source Channel.standard i last →
      triviaStart source (i + 1) = match last with
        | some p => p + 1
        | none => 0 := by
  intro h
  cases h with
  | @found p hle hon hoff =>
    apply triviaStart_eq
    . apply Nat.succ_le_succ hle
    . intro k hk
      cases hk
      rw [← hn.isOn_standard_iff (Nat.lt_of_le_of_lt hle hi)]
      exact hon
    . intro k hk hki
      rw [← hn.isOn_standard_iff (by omega)]
      rw [hoff k hk (Nat.le_of_lt_succ hki)]
      apply Bool.false_ne_true
  | absent hoff =>
    apply triviaStart_eq
    . apply Nat.zero_le
    . intro k hk
      contradiction
    . intro k _ hki
      rw [← hn.isOn_standard_iff (by omega)]
      rw [hoff k (Nat.le_of_lt_succ hki)]
      apply Bool.false_ne_true

theorem IsFirstOn.isStandard {j : Nat} (hj : IsFirstOn source Channel.standard i j)
    (hn : EndsAt source n) (hle : j ≤ n) (hend : IsStandard source n) : IsStandard source j := by
  rcases Nat.eq_or_lt_of_le hle with rfl | hlt
  . exact hend
  . rw [← hn.isOn_standard_iff hlt]
    apply hj.isOn

end Start

end TokenSource

namespace TokenStream

open TokenSource (EndsAt IsFirstOn IsStandard nth triviaStart)

variable {σ τ μ : Type} [Token τ] [TokenSource σ τ] {rule : LandingRule σ τ μ}

/--
The trivia at the positions of the source from `start` on and before `stop`, in order.
-/
def triviaIn (source : σ) (channel : Option UInt32) (start stop : Nat) : List τ :=
  ((List.range' start (stop - start)).map (nth source)).filter (isTrivia channel)

section Stretch

variable {source : σ} {channel : Option UInt32}

theorem triviaIn_self (i : Nat) : triviaIn source channel i i = [] := by
  unfold triviaIn
  rw [Nat.sub_self]
  rfl

theorem triviaIn_succ (i : Nat) :
    triviaIn source channel i (i + 1) = [nth source i].filter (isTrivia channel) := by
  unfold triviaIn
  rw [Nat.add_sub_cancel_left]
  rfl

theorem triviaIn_append {i j k : Nat} (hij : i ≤ j) (hjk : j ≤ k) :
    triviaIn source channel i j ++ triviaIn source channel j k = triviaIn source channel i k := by
  have hlength : k - i = (j - i) + (k - j) := by omega
  have hstart : j = i + (j - i) := by omega
  unfold triviaIn
  rw [← List.filter_append]
  rw [← List.map_append]
  rw [hlength]
  rw [← List.range'_append_1]
  rw [← hstart]

theorem off_of_mem_triviaIn {start stop : Nat}
    (hoff : ∀ k, start ≤ k → k < stop → Tape.isOn Channel.standard (nth source k) = false) {t : τ}
    (ht : t ∈ triviaIn source channel start stop) :
    Token.channel t ≠ Channel.standard ∧ Token.isEof t = false := by
  unfold triviaIn at ht
  rw [List.mem_filter] at ht
  rw [List.mem_map] at ht
  obtain ⟨⟨k, hk, rfl⟩, -⟩ := ht
  rw [List.mem_range'_1] at hk
  simpa [Tape.isOn] using hoff k hk.1 (by omega)

theorem isTrivia_eq_false {i : Nat} (h : IsStandard source i)
    (hchannel : channel ≠ some Channel.standard) : isTrivia channel (nth source i) = false := by
  unfold IsStandard at h
  unfold isTrivia
  rw [h]
  cases channel with
  | none => rfl
  | some channel =>
    rw [beq_eq_false_iff_ne]
    rintro rfl
    contradiction

theorem append_filter_eq_self_iff {i : Nat} (ts : List τ) :
    ts ++ [nth source i].filter (isTrivia channel) = ts ↔
      isTrivia channel (nth source i) = false := by
  rw [List.append_right_eq_self]
  rw [List.filter_eq_nil_iff]
  simp

theorem filter_slice {c : Tape σ τ} (h : c.Records source) {start stop : Nat}
    (hstop : stop < c.size) :
    (c.slice start stop).filter (isTrivia channel) = triviaIn source channel start (stop + 1) := by
  rw [h.slice_eq hstop]
  rfl

end Stretch

section Refused

variable (s : TokenStream rule) {i : Nat} (hi : s.prime.size ≤ i) (channel : Option UInt32)

include hi

theorem triviaAfter_of_le :
    s.triviaAfter i channel = (.error (s.prime.outOfRange i), s.prime) := by
  unfold triviaAfter
  exact if_pos hi

theorem triviaBefore_of_le :
    s.triviaBefore i channel = (.error (s.prime.outOfRange i), s.prime) := by
  unfold triviaBefore
  exact if_pos hi

end Refused

section Granted

variable {source : σ} {n i : Nat} {s : TokenStream rule}

/--
Ahead of a token there are the trivia up to where the search for the next token on the standard channel
ends, and there as well.
-/
theorem Reachable.triviaAfter_fst (hs : Reachable rule source s) (hn : EndsAt source n)
    (hi : i < s.prime.size) (channel : Option UInt32) :
    (s.triviaAfter i channel).1 = .ok (triviaIn source channel (i + 1)
      ((s.prime.tape.nextOn (i + 1) Channel.standard).1 + 1)) := by
  have hrecords := hs.records_prime.grows (s.prime.grows_nextOn (i + 1) Channel.standard).tape
  rw [← filter_slice hrecords]
  . unfold triviaAfter
    dsimp only
    rw [if_neg (Nat.not_le_of_lt hi)]
    rfl
  . apply hs.records_prime.nextOn_fst_lt_size hn

theorem Reachable.triviaAfter_of_isFirstOn (hs : Reachable rule source s) (hn : EndsAt source n)
    (hi : i < s.prime.size) (hin : i < n) {j : Nat}
    (hj : IsFirstOn source Channel.standard (i + 1) j) (channel : Option UInt32) :
    (s.triviaAfter i channel).1 =
      .ok (triviaIn source channel (i + 1) j ++ [nth source j].filter (isTrivia channel)) := by
  have hstop := hs.records_prime.isFirstOn_nextOn_of_le hn (i := i + 1) hin Channel.standard
  rw [hs.triviaAfter_fst hn hi]
  rw [hstop.unique hj]
  rw [← triviaIn_succ]
  rw [triviaIn_append hj.le (Nat.le_succ j)]

theorem Reachable.triviaAfter_of_end (hs : Reachable rule source s) (hn : EndsAt source n)
    (hi : n < s.prime.size) (channel : Option UInt32) :
    (s.triviaAfter n channel).1 = .ok [] := by
  rw [hs.triviaAfter_fst hn hi]
  rw [hs.records_prime.nextOn_fst_of_lt hn (Nat.lt_succ_self n)]
  rw [triviaIn_self]

theorem Reachable.triviaBefore_fst (hs : Reachable rule source s) (hn : EndsAt source n)
    (hi : i < s.prime.size) (channel : Option UInt32) :
    (s.triviaBefore i channel).1 = .ok (triviaIn source channel (triviaStart source i) i) := by
  have hle := hs.records_prime.size_le hn
  unfold triviaBefore
  dsimp only
  rw [if_neg (Nat.not_le_of_lt hi)]
  cases i with
  | zero => rfl
  | succ i =>
    have hin : i < n := by
      unfold size at hi
      omega
    have htape : (s.prime.tape.prevOn i Channel.standard).2 = s.prime.tape := by
      rw [Tape.snd_prevOn]
      apply Tape.ensure_of_lt (Nat.lt_of_succ_lt hi)
    have hlast := hs.records_prime.isLastOn_prevOn_of_le hn (Nat.le_of_lt hin) Channel.standard
    rw [if_neg (Nat.succ_ne_zero i)]
    rw [Nat.add_sub_cancel]
    rw [hn.triviaStart_of_isLastOn hin hlast]
    rw [← filter_slice hs.records_prime (Nat.lt_of_succ_lt hi)]
    unfold prevOn
    dsimp only
    rw [htape]
    generalize (s.prime.tape.prevOn i Channel.standard).1 = last
    -- If the token right before is on the standard channel, the stretch to cut out is empty anyway.
    split
    . next heq =>
      rw [heq]
      rw [filter_slice hs.records_prime (Nat.lt_of_succ_lt hi)]
      rw [triviaIn_self]
    . rfl

end Granted

/--
What a stream tells of the trivia beside a token. Those behind a token that it has are the trivia of the
source from the last token on the standard channel on, or from the start of the input. Those ahead of it
are the trivia up to the first token that counts as being on the standard channel, and that token too if
it is of the kind asked for, so nothing but those in between just if it is not. Ahead of the end of the
input there are none, and an index where the stream has no token is refused.
-/
theorem trivia_beside {source : σ} {n : Nat} (hn : EndsAt source n) {s : TokenStream rule}
    (hs : Reachable rule source s) (i : Nat) (channel : Option UInt32) :
    (s.prime.size ≤ i →
      let fault := Fault.indexOutOfRange (min i Position.offsetLimit : Nat) s.prime.size
      (s.triviaAfter i channel).1 = .error fault ∧ (s.triviaBefore i channel).1 = .error fault) ∧
      (i < s.prime.size →
        let before := triviaIn source channel (triviaStart source i) i
        (s.triviaBefore i channel).1 = .ok before ∧
          (∀ t ∈ before, Token.channel t ≠ Channel.standard ∧ Token.isEof t = false) ∧
          (i = n → (s.triviaAfter i channel).1 = .ok []) ∧
          (i < n → ∃ j ≤ n, IsFirstOn source Channel.standard (i + 1) j ∧
            let after := triviaIn source channel (i + 1) j
            (s.triviaAfter i channel).1 = .ok (after ++ [nth source j].filter (isTrivia channel)) ∧
              (∀ t ∈ after, Token.channel t ≠ Channel.standard ∧ Token.isEof t = false) ∧
              ((s.triviaAfter i channel).1 = .ok after ↔
                isTrivia channel (nth source j) = false) ∧
              (channel ≠ some Channel.standard → IsStandard source n →
                (s.triviaAfter i channel).1 = .ok after))) := by
  have hsize : s.prime.size ≤ n + 1 := hs.records_prime.size_le hn
  constructor
  . intro hi fault
    rw [s.triviaAfter_of_le hi]
    rw [s.triviaBefore_of_le hi]
    exact ⟨rfl, rfl⟩
  . intro hi before
    refine ⟨hs.triviaBefore_fst hn hi channel, ?_, ?_, ?_⟩
    . intro t ht
      apply off_of_mem_triviaIn _ ht
      intro k hk hki
      apply hn.isOn_standard_eq_false
      . omega
      . apply TokenSource.not_isStandard_of_triviaStart_le hk hki
    . rintro rfl
      apply hs.triviaAfter_of_end hn hi
    . intro hin
      have hj := hs.records_prime.isFirstOn_nextOn_of_le hn (i := i + 1) hin Channel.standard
      have hle := hs.records_prime.nextOn_fst_le hn (i + 1) Channel.standard
      generalize (s.prime.tape.nextOn (i + 1) Channel.standard).1 = j at hj hle
      refine ⟨j, hle, hj, ?_⟩
      intro after
      have hafter := hs.triviaAfter_of_isFirstOn hn hi hin hj channel
      have hexact : (s.triviaAfter i channel).1 = .ok after ↔
          isTrivia channel (nth source j) = false := by
        rw [hafter]
        rw [Except.ok.injEq]
        apply append_filter_eq_self_iff
      refine ⟨hafter, ?_, hexact, ?_⟩
      . intro t ht
        apply off_of_mem_triviaIn hj.isOn_eq_false ht
      . intro hchannel hend
        rw [hexact]
        apply isTrivia_eq_false (hj.isStandard hn hle hend) hchannel

theorem trivia_beside_comments :
    let source : Replay :=
      ⟨#[⟨1, "x", 0, 0, 0, 0⟩, ⟨2, " ", 1, 0, 1, 1⟩, ⟨3, "#", 2, 0, 2, 2⟩, ⟨1, "y", 0, 0, 3, 3⟩,
        ⟨2, " ", 1, 0, 4, 4⟩], 0, ""⟩
    let s : TokenStream (.onChannel 0) :=
      ((ofSource (.onChannel 0) () source {}).answers [.consume]).2
    let whole := (s.answer .drain).2
    EndsAt source 5 ∧ Reachable (.onChannel 0) source s ∧ Reachable (.onChannel 0) source whole ∧
      s.prime.size = 4 ∧ whole.prime.size = 6 ∧
      (s.triviaAfter 4 none).1 = .error (.indexOutOfRange 4 4) ∧
      (s.triviaBefore 3 (some 2)).1 = .ok [⟨3, "#", 2, 2, 2, 2⟩] ∧
      (∃ j ≤ 5, IsFirstOn source Channel.standard 1 j ∧
        (s.triviaAfter 0 none).1 = .ok (triviaIn source none 1 j)) ∧
      (whole.triviaAfter 5 none).1 = .ok [] := by
  intro source s whole
  have hn : EndsAt source 5 := by
    constructor <;> decide
  have hs : Reachable (.onChannel 0) source s := (Reachable.ofSource () {}).answers [.consume]
  have hwhole : Reachable (.onChannel 0) source whole := hs.answer .drain
  have hsize : s.prime.size = 4 := by decide +kernel
  have hsize' : whole.prime.size = 6 := by decide +kernel
  obtain ⟨hrefused, -⟩ := trivia_beside hn hs 4 none
  obtain ⟨-, hbefore⟩ := trivia_beside hn hs 3 (some 2)
  obtain ⟨-, hafter⟩ := trivia_beside hn hs 0 none
  obtain ⟨-, hend⟩ := trivia_beside hn hwhole 5 none
  refine ⟨hn, hs, hwhole, hsize, hsize', ?_, ?_, ?_, ?_⟩
  . rw [(hrefused (Nat.le_of_eq hsize)).1]
    rw [hsize]
    rfl
  . rw [(hbefore (by rw [hsize]; decide)).1]
    apply congrArg Except.ok
    decide +kernel
  . obtain ⟨j, hle, hj, -, -, -, hexact⟩ := (hafter (by rw [hsize]; decide)).2.2.2 (by decide)
    exact ⟨j, hle, hj, hexact (by decide) (by decide)⟩
  . apply (hend (by rw [hsize']; decide)).2.2.1 rfl

/--
Asked for tokens on the standard channel between two of them, a stream hands over the second, and asked
for all trivia after the last token it hands over an end of the input that is on another channel.
-/
theorem triviaAfter_includes_stop :
    let source : Replay :=
      ⟨#[⟨10, "a", 0, 0, 0, 0⟩, ⟨11, " ", 1, 0, 1, 1⟩, ⟨10, "b", 0, 0, 2, 2⟩], 0, ""⟩
    let s : TokenStream (μ := Unit) .exact := ((ofSource .exact () source {}).answer .drain).2
    let listed : Listed := ⟨#[⟨10, "a", 0, none, none⟩, ⟨Symbol.eof, "", 1, none, some 1⟩], 0⟩
    let t : TokenStream (μ := Unit) .exact := ((ofSource .exact () listed {}).answer .drain).2
    (EndsAt source 3 ∧ Reachable .exact source s ∧ 0 < s.prime.size ∧
      IsFirstOn source Channel.standard 1 2 ∧ triviaIn source (some Channel.standard) 1 2 = [] ∧
      (s.triviaAfter 0 (some Channel.standard)).1 = .ok [⟨10, "b", 0, 2, 2, 2⟩]) ∧
      EndsAt listed 1 ∧ Reachable .exact listed t ∧ 0 < t.prime.size ∧
        IsFirstOn listed Channel.standard 1 1 ∧ triviaIn listed none 1 1 = [] ∧
        (t.triviaAfter 0 none).1 = .ok [⟨Symbol.eof, "", 1, none, some 1⟩] := by
  intro source s listed t
  have hn : EndsAt source 3 := by
    constructor <;> decide
  have hn' : EndsAt listed 1 := by
    constructor <;> decide
  have hs : Reachable .exact source s := (Reachable.ofSource () {}).answer .drain
  have ht : Reachable .exact listed t := (Reachable.ofSource () {}).answer .drain
  have hsize : 0 < s.prime.size := by decide +kernel
  have hsize' : 0 < t.prime.size := by decide +kernel
  have hj : IsFirstOn source Channel.standard 1 2 := by
    refine ⟨by decide, by decide, ?_⟩
    intro k hk hlt
    have heq : k = 1 := by omega
    rw [heq]
    decide
  have hj' : IsFirstOn listed Channel.standard 1 1 := ⟨by decide, by decide, by omega⟩
  refine ⟨⟨hn, hs, hsize, hj, ?_, ?_⟩, hn', ht, hsize', hj', ?_, ?_⟩
  . decide
  . rw [hs.triviaAfter_of_isFirstOn hn hsize (by decide) hj]
    apply congrArg Except.ok
    decide
  . decide
  . rw [ht.triviaAfter_of_isFirstOn hn' hsize' (by decide) hj']
    apply congrArg Except.ok
    decide

end TokenStream

end Lookahead
