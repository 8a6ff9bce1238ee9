import Lookahead.Proofs.TokenStream.Draining
import Lookahead.Proofs.TokenStream.Trivia

/-!
This module contains how the trivia that a stream tells from either side hang together, when the end
of the input is on the standard channel. Between two neighbours on that channel both sides tell the
same trivia, and the trivia behind all tokens on the channel are all that there are.
-/

namespace Lookahead

namespace TokenSource

variable {σ τ : Type} [Token τ] [TokenSource σ τ]

/--
The tokens at `d` and `e` are on the standard channel, and none in between is.
-/
structure Neighbours (source : σ) (d e : Nat) : Prop where
  lt : d < e
  isStandard_left : IsStandard source d
  isStandard_right : IsStandard source e
  not_isStandard : ∀ k, d < k → k < e → ¬IsStandard source k

variable {source : σ} {n d e : Nat}

theorem IsStandard.isOn {i : Nat} (h : IsStandard source i) :
    Tape.isOn Channel.standard (nth source i) = true := by
  unfold IsStandard at h
  unfold Tape.isOn
  rw [h]
  rw [beq_self_eq_true]
  rw [Bool.true_or]

theorem Neighbours.isFirstOn (h : Neighbours source d e) (hn : EndsAt source n) (he : e ≤ n)
    {i : Nat} (hdi : d ≤ i) (hie : i < e) : IsFirstOn source Channel.standard (i + 1) e := by
  constructor
  . exact hie
  . apply h.isStandard_right.isOn
  . intro k hk hke
    apply hn.isOn_standard_eq_false
    . omega
    . apply h.not_isStandard k
      . omega
      . exact hke

theorem Neighbours.triviaStart_eq (h : Neighbours source d e) {i : Nat} (hdi : d < i)
    (hie : i ≤ e) : triviaStart source i = d + 1 := by
  apply TokenSource.triviaStart_eq hdi
  . intro k hk
    cases hk
    exact h.isStandard_left
  . intro k hk hki
    apply h.not_isStandard k hk
    omega

end TokenSource

namespace TokenStream

open TokenSource (EndsAt IsStandard Neighbours nth take triviaStart)

variable {σ τ μ : Type} [Token τ] [TokenSource σ τ] {rule : LandingRule σ τ μ}

section Stretch

variable {source : σ} {channel : Option UInt32}

theorem triviaIn_succ_of_isStandard {i j : Nat} (h : IsStandard source j) (hij : i ≤ j)
    (hchannel : channel ≠ some Channel.standard) :
    triviaIn source channel i (j + 1) = triviaIn source channel i j := by
  rw [← triviaIn_append hij (Nat.le_succ j)]
  rw [triviaIn_succ]
  rw [append_filter_eq_self_iff]
  apply isTrivia_eq_false h hchannel

theorem triviaIn_split {start stop i : Nat} (hstart : start ≤ i) (hstop : i < stop) :
    triviaIn source channel start i ++ [nth source i].filter (isTrivia channel) ++
      triviaIn source channel (i + 1) stop = triviaIn source channel start stop := by
  rw [← triviaIn_succ]
  rw [triviaIn_append hstart (Nat.le_succ i)]
  rw [triviaIn_append (Nat.le_succ_of_le hstart) hstop]

/--
The trivia behind the tokens on the standard channel before `m` are those up to the last of these.
-/
theorem flatten_map_triviaIn (hchannel : channel ≠ some Channel.standard) (m : Nat) :
    (((List.range m).filter fun e => IsStandard source e).map fun e =>
      triviaIn source channel (triviaStart source e) e).flatten =
        triviaIn source channel 0 (triviaStart source m) := by
  induction m with
  | zero => rfl
  | succ m ih =>
    rw [List.range_succ]
    rw [List.filter_append]
    rw [List.map_append]
    rw [List.flatten_append]
    rw [ih]
    -- A token on the standard channel closes the stretch before it, any other lets it go on.
    by_cases hm : IsStandard source m
    . rw [TokenSource.triviaStart_succ_of_isStandard hm]
      rw [triviaIn_succ_of_isStandard hm (Nat.zero_le m) hchannel]
      rw [List.filter_cons_of_pos (by simpa using hm)]
      rw [List.filter_nil]
      rw [List.map_singleton]
      rw [List.flatten_singleton]
      rw [triviaIn_append (Nat.zero_le _) (TokenSource.triviaStart_le source m)]
    . rw [TokenSource.triviaStart_succ_of_not_isStandard hm]
      rw [List.filter_cons_of_neg (by simpa using hm)]
      apply List.append_nil

theorem triviaIn_none_zero (m : Nat) :
    triviaIn source none 0 m =
      (take m source).filter fun t => Token.channel t != Channel.standard := by
  rw [TokenSource.take_eq_map_range']
  rfl

end Stretch

section Agree

variable {source : σ} {n d e i : Nat} {s : TokenStream rule}

theorem Reachable.triviaAfter_of_neighbours (hs : Reachable rule source s) (hn : EndsAt source n)
    (h : Neighbours source d e) (he : e < s.prime.size) (hdi : d ≤ i) (hie : i < e)
    {channel : Option UInt32} (hchannel : channel ≠ some Channel.standard) :
    (s.triviaAfter i channel).1 = .ok (triviaIn source channel (i + 1) e) := by
  have hle : s.prime.size ≤ n + 1 := hs.records_prime.size_le hn
  have hfirst := h.isFirstOn hn (by omega) hdi hie
  rw [hs.triviaAfter_of_isFirstOn hn (by omega) (by omega) hfirst]
  apply congrArg Except.ok
  rw [append_filter_eq_self_iff]
  apply isTrivia_eq_false h.isStandard_right hchannel

theorem Reachable.triviaBefore_of_neighbours (hs : Reachable rule source s) (hn : EndsAt source n)
    (h : Neighbours source d e) (he : e < s.prime.size) (hdi : d < i) (hie : i ≤ e)
    (channel : Option UInt32) :
    (s.triviaBefore i channel).1 = .ok (triviaIn source channel (d + 1) i) := by
  rw [hs.triviaBefore_fst hn (by omega)]
  rw [h.triviaStart_eq hdi hie]

theorem Reachable.answer_triviaBefore_fst (hs : Reachable rule source s) (hn : EndsAt source n)
    (hi : i < s.size) (channel : Option UInt32) :
    (s.answer (.triviaBefore i channel)).1 =
      .tokens (some (triviaIn source channel (triviaStart source i) i)) := by
  have hsize := s.grows_tape_prime.size_le
  unfold TokenStream.answer
  dsimp only
  rw [Prod.map_fst]
  rw [hs.triviaBefore_fst hn (Nat.lt_of_lt_of_le hi hsize)]
  rfl

theorem Reachable.answers_triviaBefore_fst (hs : Reachable rule source s) (hn : EndsAt source n)
    (channel : Option UInt32) (is : List Nat) (his : ∀ i ∈ is, i < s.size) :
    (s.answers (is.map fun i => .triviaBefore i channel)).1 =
      (is.map fun i => triviaIn source channel (triviaStart source i) i).map (.tokens ∘ some) := by
  induction is generalizing s with
  | nil => rfl
  | cons i is ih =>
    have hfirst := hs.answer_triviaBefore_fst hn (his i (List.mem_cons_self ..)) channel
    have hrest := ih (hs.answer (.triviaBefore i channel))
    rw [List.map_cons]
    rw [List.map_cons]
    rw [List.map_cons]
    unfold TokenStream.answers
    dsimp only
    rw [hfirst]
    rw [hrest]
    . rfl
    . intro j hj
      have hsize := (s.grows_tape_answer (.triviaBefore i channel)).size_le
      apply Nat.lt_of_lt_of_le _ hsize
      apply his j (List.mem_cons_of_mem i hj)

end Agree

/--
Over a source whose end is on the standard channel a stream tells the same trivia ahead of a token on
that channel as behind the next one, and between them every position splits these into the trivia
behind it, the token there if it is of the kind asked for, and the trivia ahead of it. So once all
tokens are on the tape, asking for the trivia behind each token on the standard channel brings all
tokens that are not on it, each once and in order.
-/
theorem trivia_between {source : σ} {n : Nat} (hn : EndsAt source n) (hend : IsStandard source n)
    {s : TokenStream rule} (hs : Reachable rule source s) :
    (∀ {d e : Nat}, Neighbours source d e → e < s.prime.size →
      ∀ channel : Option UInt32, channel ≠ some Channel.standard →
        let between := triviaIn source channel (d + 1) e
        (s.triviaAfter d channel).1 = .ok between ∧
          (s.triviaBefore e channel).1 = .ok between ∧
          ∀ i, d < i → i < e →
            let before := triviaIn source channel (d + 1) i
            let after := triviaIn source channel (i + 1) e
            (s.triviaBefore i channel).1 = .ok before ∧
              (s.triviaAfter i channel).1 = .ok after ∧
              before ++ [nth source i].filter (isTrivia channel) ++ after = between) ∧
      (s.tape.exhausted = true →
        let standard := (List.range s.size).filter fun e => IsStandard source e
        ∃ gaps : List (List τ),
          (s.answers (standard.map fun e => .triviaBefore e none)).1 = gaps.map (.tokens ∘ some) ∧
            gaps.flatten =
              s.tape.tokens.toList.filter fun t => Token.channel t != Channel.standard) := by
  constructor
  . intro d e h he channel hchannel between
    refine ⟨?_, ?_, ?_⟩
    . apply hs.triviaAfter_of_neighbours hn h he (Nat.le_refl d) h.lt hchannel
    . apply hs.triviaBefore_of_neighbours hn h he h.lt (Nat.le_refl e)
    . intro i hdi hie before after
      refine ⟨?_, ?_, ?_⟩
      . apply hs.triviaBefore_of_neighbours hn h he hdi (Nat.le_of_lt hie)
      . apply hs.triviaAfter_of_neighbours hn h he (Nat.le_of_lt hdi) hie hchannel
      . apply triviaIn_split hdi hie
  . intro he standard
    have hsize : s.size = n + 1 := hs.records.size_of_exhausted hn he
    have hstart : triviaStart source s.size = s.size := by
      rw [hsize]
      apply TokenSource.triviaStart_succ_of_isStandard hend
    refine ⟨standard.map fun e => triviaIn source none (triviaStart source e) e, ?_, ?_⟩
    . apply hs.answers_triviaBefore_fst hn
      intro i hi
      apply List.mem_range.mp
      apply (List.mem_filter.mp hi).1
    . rw [flatten_map_triviaIn (by simp)]
      rw [hstart]
      rw [triviaIn_none_zero]
      rw [hs.records.tokens_eq]
      rfl

theorem trivia_between_comments :
    let source : Replay :=
      ⟨#[⟨2, " ", 1, 0, 0, 0⟩, ⟨1, "x", 0, 0, 1, 1⟩, ⟨2, " ", 1, 0, 2, 2⟩, ⟨3, "#", 2, 0, 3, 3⟩,
        ⟨1, "y", 0, 0, 4, 4⟩, ⟨2, " ", 1, 0, 5, 5⟩], 0, ""⟩
    let part : TokenStream (.onChannel 0) :=
      ((ofSource (.onChannel 0) () source {}).answers [.look 4]).2
    let whole := (part.answer .drain).2
    EndsAt source 6 ∧ IsStandard source 6 ∧ Reachable (.onChannel 0) source part ∧
      Reachable (.onChannel 0) source whole ∧ Neighbours source 1 4 ∧ 4 < part.prime.size ∧
      (part.triviaAfter 1 (some 2)).1 = .ok [⟨3, "#", 2, 3, 3, 3⟩] ∧
      (part.triviaBefore 4 (some 2)).1 = .ok [⟨3, "#", 2, 3, 3, 3⟩] ∧
      (part.triviaBefore 2 (some 2)).1 = .ok [] ∧
      whole.tape.exhausted = true ∧
      ∃ gaps : List (List PlainToken),
        (whole.answers (((List.range whole.size).filter fun e => IsStandard source e).map fun e =>
          .triviaBefore e none)).1 = gaps.map (.tokens ∘ some) ∧
          gaps.flatten =
            whole.tape.tokens.toList.filter fun t => Token.channel t != Channel.standard := by
  intro source part whole
  have hn : EndsAt source 6 := by
    constructor <;> decide
  have hend : IsStandard source 6 := by decide
  have hpart : Reachable (.onChannel 0) source part :=
    (Reachable.ofSource () {}).answers [.look 4]
  have hwhole : Reachable (.onChannel 0) source whole := hpart.answer .drain
  have hneighbours : Neighbours source 1 4 := by
    refine ⟨by decide, by decide, by decide, ?_⟩
    intro k hk hlt
    rcases (by omega : k = 2 ∨ k = 3) with rfl | rfl <;> decide
  have hsize : 4 < part.prime.size := by decide +kernel
  have hexhausted : whole.tape.exhausted = true := hpart.exhausted_drain hn
  have hnone : (some 2 : Option UInt32) ≠ some Channel.standard := by decide
  obtain ⟨hbetween, -⟩ := trivia_between hn hend hpart
  obtain ⟨hafter, hbefore, hsplit⟩ := hbetween hneighbours hsize (some 2) hnone
  refine ⟨hn, hend, hpart, hwhole, hneighbours, hsize, ?_, ?_, ?_, hexhausted, ?_⟩
  . rw [hafter]
    apply congrArg Except.ok
    decide
  . rw [hbefore]
    apply congrArg Except.ok
    decide
  . rw [(hsplit 2 (by decide) (by decide)).1]
    apply congrArg Except.ok
    decide
  . apply (trivia_between hn hend hwhole).2 hexhausted

end TokenStream

end Lookahead
