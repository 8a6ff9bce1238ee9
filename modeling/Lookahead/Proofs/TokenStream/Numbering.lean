import Lookahead.Proofs.TokenSource.Replay
import Lookahead.Proofs.TokenStream.Text

/-!
This module contains what the numbers of replayed tokens are good for. Up to the end of the input they
are positions, so that a token leads back to itself, and the text between two tokens can be told from
their numbers. The end of the input is numbered by the length of the list, which is past its position
if the replay is over early; texts stop before the end anyway.
-/

namespace Lookahead

namespace Interval

variable {α : Type}

/--
What counts of the bounds of an interval is how far into the list they are.
-/
theorem items_eq_of_min {x : Interval} (hlo : 0 ≤ x.lo.toInt) (hhi : 0 ≤ x.hi.toInt) {as : List α}
    {i j : Nat} (hi : min x.lo.toInt.toNat as.length = min i as.length)
    (hj : min x.hi.toInt.toNat as.length = min j as.length) :
    x.items as = (as.drop i).take (j + 1 - i) := by
  rw [items_eq_take_drop hlo]
  rcases Nat.lt_or_ge i as.length with hlt | hge
  . have hsame : x.lo.toInt.toNat = i := by omega
    rw [hsame]
    rw [List.take_eq_take_iff]
    rw [List.length_drop]
    omega
  . rw [List.drop_eq_nil_of_le (by omega)]
    rw [List.drop_eq_nil_of_le hge]
    rw [List.take_nil]
    rw [List.take_nil]

end Interval

namespace TokenStream

open Replay (replayed)
open TokenSource (nth take)

variable {μ : Type} {rule : LandingRule Replay PlainToken μ} {source : Replay} {s t : TokenStream rule}

section Numbers

variable (hstart : source.position = 0) (hsize : source.tokens.size ≤ Int32.maxValue.toInt)

include hstart hsize

/--
A token leads back to itself by its number, unless it is the end of a replay that is over early.
-/
theorem Reachable.getElem?_index_eq_iff (hs : Reachable rule source s) {i : Nat} {u : PlainToken}
    (hu : s.tape.tokens[i]? = some u) :
    s.tape.tokens[(Token.index u).toInt.toNat]? = some u ↔
      i < source.replayed ∨ source.replayed = source.tokens.size := by
  have hle := hs.records.size_le (Replay.endsAt hstart hsize)
  have hlist := source.replayed_le
  rw [hs.records.getElem?_tokens] at hu ⊢
  split at hu
  . next hi =>
    cases hu
    rcases Nat.lt_or_ge i source.replayed with hlt | hge
    . rw [Replay.toInt_index_nth_of_lt hstart hsize hlt]
      rw [Int.toNat_natCast]
      rw [if_pos hi]
      simp [hlt]
    . have hend : i = source.replayed := by omega
      rw [Replay.toInt_index_nth_of_le hstart hsize hge]
      rw [Int.toNat_natCast]
      -- On the tape there is nothing past the end of the input.
      split
      . next hin =>
        have hall : source.replayed = source.tokens.size := by omega
        rw [← hall]
        simp [hend]
      . next hout =>
        simp only [reduceCtorEq, false_iff]
        omega
  . contradiction

theorem Reachable.textBetween_nth (hs : Reachable rule source s) (i j : Nat) :
    (s.textBetween (some (nth source i)) (some (nth source j))).1 =
      spelling (((source.tokens.toList.take source.replayed).drop i).take (j + 1 - i)) := by
  have hlength := TokenSource.length_take source.replayed source
  have hi := Replay.min_index_nth hstart hsize i
  have hj := Replay.min_index_nth hstart hsize j
  have hlo := Replay.index_nth_nonneg hstart hsize i
  have hhi := Replay.index_nth_nonneg hstart hsize j
  rw [← hlength] at hi hj
  let x : Interval := ⟨Token.index (nth source i), Token.index (nth source j)⟩
  change (s.textIn x).1 = _
  rw [hs.textIn_eq_items (Replay.endsAt hstart hsize) (x := x) hlo hhi]
  rw [Interval.items_eq_of_min (x := x) hlo hhi hi hj]
  unfold spelling
  rw [List.map_take]
  rw [List.map_drop]
  rw [Replay.map_text_take hstart]
  rw [← List.map_drop]
  rw [← List.map_take]

theorem Reachable.textBetween_of_getElem? (hs : Reachable rule source s)
    (ht : Reachable rule source t) {i j : Nat} {u v : PlainToken} (hu : s.tape.tokens[i]? = some u)
    (hv : s.tape.tokens[j]? = some v) :
    (t.textBetween (some u) (some v)).1 =
      spelling (((source.tokens.toList.take source.replayed).drop i).take (j + 1 - i)) := by
  rw [hs.eq_nth_of_getElem? hu]
  rw [hs.eq_nth_of_getElem? hv]
  exact ht.textBetween_nth hstart hsize i j

end Numbers

theorem textBetween_of_eq_none (s : TokenStream rule) {u v : Option PlainToken}
    (h : u = none ∨ v = none) : s.textBetween u v = ("", s) := by
  rcases h with rfl | rfl
  . rfl
  . cases u <;> rfl

/--
The tokens of a replay are those of the list with their positions for numbers, up to the first that is
itself the end of the input. From there on it gives out an end that has the length of the list for its
number and starts right after the last token of the list. If the whole list is replayed, that is where
the last token before the end leads to. The number of the end is its position just in this case, and so
on a stream a token leads back to itself by its number just if it is replayed or the whole list is.
-/
theorem numbers_replayed (tokens : Array PlainToken) (name : String)
    (hsize : tokens.size ≤ Int32.maxValue.toInt) :
    let source : Replay := ⟨tokens, 0, name⟩
    let stop := source.replayed
    (∀ k, k < stop → ∃ t, tokens[k]? = some t ∧
      nth source k = { t with index := Offset.ofPosition k } ∧
      (Token.index (nth source k)).toInt = k) ∧
      (∀ k, stop ≤ k → Token.isEof (nth source k) = true ∧
        (Token.index (nth source k)).toInt = tokens.size ∧
        Token.start (nth source k) = Offset.past tokens.back? ∧
        Token.stop (nth source k) = Offset.pred (Token.start (nth source k)) ∧
        (stop = tokens.size →
          Token.start (nth source k) = Offset.past (take stop source).getLast?)) ∧
      (∀ k, (Token.index (nth source k)).toInt = (min k stop : Nat) ↔ k < stop ∨ stop = tokens.size) ∧
      ∀ {μ : Type} {rule : LandingRule Replay PlainToken μ} {s : TokenStream rule},
        Reachable rule source s → ∀ (i : Nat) (u : PlainToken), s.tape.tokens[i]? = some u →
          (s.tape.tokens[(Token.index u).toInt.toNat]? = some u ↔ i < stop ∨ stop = tokens.size) := by
  intro source stop
  refine ⟨?_, ?_, ?_, ?_⟩
  . intro k hk
    obtain ⟨t, ht, hnth⟩ := Replay.nth_of_lt (s := source) rfl hk
    exact ⟨t, ht, hnth, Replay.toInt_index_nth_of_lt rfl hsize hk⟩
  . intro k hk
    have hend : nth source k = source.endToken := Replay.nth_of_le rfl hk
    refine ⟨Replay.isEof_nth_of_le rfl hk, Replay.toInt_index_nth_of_le rfl hsize hk, ?_, ?_, ?_⟩
    . rw [hend]
      apply Replay.start_endToken
    . rw [hend]
      rfl
    . intro hall
      rw [hend]
      exact Replay.start_endToken_of_replayed_eq rfl hall
  . intro k
    exact Replay.toInt_index_nth_eq_iff rfl hsize k
  . intro μ rule s hs i u hu
    exact hs.getElem?_index_eq_iff rfl hsize hu

theorem numbers_replayed_listed_end :
    let source : Replay :=
      ⟨#[⟨1, "a", 0, 7, 0, 0⟩, ⟨2, " ", 1, 7, 1, 1⟩, ⟨-1, "?", 0, 7, 9, 9⟩, ⟨1, "b", 0, 7, 2, 6⟩], 0, ""⟩
    let whole : Replay := ⟨#[⟨1, "a", 0, 7, 0, 0⟩, ⟨2, " ", 1, 7, 1, 1⟩], 0, "whole"⟩
    let s : TokenStream (.onChannel 0) :=
      ((ofSource (.onChannel 0) () source {}).answers [.seek 9, .drain]).2
    source.tokens.size ≤ Int32.maxValue.toInt ∧ whole.tokens.size ≤ Int32.maxValue.toInt ∧
      Reachable (.onChannel 0) source s ∧ source.replayed = 2 ∧ whole.replayed = 2 ∧
      (Token.index (nth source 1)).toInt = 1 ∧ (Token.index (nth source 5)).toInt = 4 ∧
      Token.start (nth source 5) = 7 ∧ (Token.index (nth whole 5)).toInt = (min 5 2 : Nat) ∧
      Token.start (nth whole 5) = Offset.past (take whole.replayed whole).getLast? ∧
      s.tape.tokens[(Token.index (nth source 1)).toInt.toNat]? = some (nth source 1) ∧
      s.tape.tokens[(Token.index (nth source 2)).toInt.toNat]? ≠ some (nth source 2) := by
  intro source whole s
  have hsize : source.tokens.size ≤ Int32.maxValue.toInt := by decide
  have hsize' : whole.tokens.size ≤ Int32.maxValue.toInt := by decide
  have hstop : source.replayed = 2 := by decide +kernel
  have hstop' : whole.replayed = 2 := by decide +kernel
  have hs : Reachable (.onChannel 0) source s := (Reachable.ofSource () {}).answers [.seek 9, .drain]
  obtain ⟨hreplayed, hend, -, hback⟩ := numbers_replayed source.tokens "" hsize
  obtain ⟨-, hend', hnumber', -⟩ := numbers_replayed whole.tokens "whole" hsize'
  obtain ⟨-, -, -, hindex⟩ := hreplayed 1 (by decide +kernel)
  obtain ⟨-, hindex', hstart, -, -⟩ := hend 5 (by decide +kernel)
  refine ⟨hsize, hsize', hs, hstop, hstop', hindex, hindex',
    hstart.trans (by decide), ?_, ?_, ?_, ?_⟩
  . rw [← hstop']
    exact (hnumber' 5).mpr (.inr hstop')
  . exact (hend' 5 (by decide +kernel)).2.2.2.2 hstop'
  . exact (hback hs 1 _ (by decide +kernel)).mpr (.inl (by decide +kernel))
  . intro hself
    have := (hback hs 2 _ (by decide +kernel)).mp hself
    exact absurd this (by decide +kernel)

/--
The end of a replay that is over early has neither its position for a number nor the offset after the
last token replayed, and it does not lead back to itself.
-/
theorem index_nth_ne_position :
    let source : Replay :=
      ⟨#[⟨1, "a", 0, -1, 0, 0⟩, ⟨-1, "<EOF>", 0, -1, 1, 1⟩, ⟨2, "b", 0, -1, 5, 6⟩], 0, ""⟩
    let s : TokenStream (μ := Unit) .exact := (ofSource .exact () source {}).drain
    source.replayed = 1 ∧ Token.isEof (nth source 1) = true ∧
      (Token.index (nth source 1)).toInt = 3 ∧ Token.start (nth source 1) = 7 ∧
      Offset.past (take 1 source).getLast? = 1 ∧ s.tape.tokens[1]? = some (nth source 1) ∧
      s.tape.tokens[(Token.index (nth source 1)).toInt.toNat]? = none := by
  decide +kernel

/--
The text from one token to another that streams over a replay have on their tapes is that of the
tokens of the list from the one position to the other, up to where the replay ends. It makes no
difference what has been asked of the stream in the meantime. The text is empty where the first token
comes after the other or is the end of the input, and where either token is absent.
-/
theorem textBetween_replayed (tokens : Array PlainToken) (name : String)
    (hsize : tokens.size ≤ Int32.maxValue.toInt) {s : TokenStream rule}
    (hs : Reachable rule ⟨tokens, 0, name⟩ s) :
    let stop := (⟨tokens, 0, name⟩ : Replay).replayed
    (∀ (i j : Nat) (u v : PlainToken), s.tape.tokens[i]? = some u → s.tape.tokens[j]? = some v →
      ∀ requests : List (Request PlainToken),
        let text := ((s.answers requests).2.textBetween (some u) (some v)).1
        text = spelling (((tokens.toList.take stop).drop i).take (j + 1 - i)) ∧
          (j < i ∨ i = stop → text = "")) ∧
      ∀ u v : Option PlainToken, u = none ∨ v = none → s.textBetween u v = ("", s) := by
  intro stop
  constructor
  . intro i j u v hu hv requests text
    have htext : text = spelling (((tokens.toList.take stop).drop i).take (j + 1 - i)) :=
      hs.textBetween_of_getElem? rfl hsize (hs.answers requests) hu hv
    refine ⟨htext, ?_⟩
    rintro (hji | rfl)
    . have hzero : j + 1 - i = 0 := by omega
      rw [htext]
      rw [hzero]
      rfl
    . rw [htext]
      rw [List.drop_eq_nil_of_le (List.length_take_le ..)]
      rw [List.take_nil]
      rfl
  . intro u v h
    exact s.textBetween_of_eq_none h

theorem textBetween_replayed_past_listed_end :
    let source : Replay :=
      ⟨#[⟨1, "x", 0, 0, 0, 0⟩, ⟨2, " ", 1, 0, 1, 1⟩, ⟨3, "😀", 0, 0, 2, 2⟩, ⟨-1, "?", 0, 0, 3, 3⟩,
        ⟨1, "y", 0, 0, 4, 4⟩], 0, ""⟩
    let s : TokenStream (.onChannel 0) :=
      ((ofSource (.onChannel 0) () source {}).answers [.peek 9, .consume]).2
    let later := (s.answers [.pull 3, .seek 90, .look (-1)]).2
    source.tokens.size ≤ Int32.maxValue.toInt ∧ Reachable (.onChannel 0) source s ∧
      source.replayed = 3 ∧ (∀ i < 4, s.tape.tokens[i]? = some (nth source i)) ∧
      (later.textBetween (some (nth source 1)) (some (nth source 3))).1 = " 😀" ∧
      (later.textBetween (some (nth source 2)) (some (nth source 0))).1 = "" ∧
      (later.textBetween (some (nth source 3)) (some (nth source 3))).1 = "" ∧
      s.textBetween none (some (nth source 1)) = ("", s) := by
  intro source s later
  have hsize : source.tokens.size ≤ Int32.maxValue.toInt := by decide
  have hs : Reachable (.onChannel 0) source s :=
    (Reachable.ofSource () {}).answers [.peek 9, .consume]
  have htape : ∀ i < 4, s.tape.tokens[i]? = some (nth source i) := by decide +kernel
  obtain ⟨hbetween, habsent⟩ := textBetween_replayed source.tokens "" hsize hs
  refine ⟨hsize, hs, by decide +kernel, htape, ?_, ?_, ?_, habsent _ _ (.inl rfl)⟩
  . rw [(hbetween 1 3 _ _ (htape 1 (by decide)) (htape 3 (by decide)) _).1]
    decide +kernel
  . exact (hbetween 2 0 _ _ (htape 2 (by decide)) (htape 0 (by decide)) _).2 (.inl (by decide))
  . exact (hbetween 3 3 _ _ (htape 3 (by decide)) (htape 3 (by decide)) _).2 (.inr (by decide +kernel))

end TokenStream

end Lookahead
