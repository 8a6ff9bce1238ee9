import Lookahead.Proofs.TokenSource.Sequence
import Lookahead.TokenSource.Replay

/-!
This module contains the sequence of tokens that a replay gives out: those of the list, numbered as
they go, up to the first that is itself the end of the input, and from then on one and the same end of
the input. That end is made from the list as a whole, however much of it has been replayed.
-/

namespace Lookahead

namespace Offset

/--
The offset right after a token, or that of the start of the input if there is no token.
-/
def past : Option PlainToken → Int32
  | some t => succ t.stop
  | none => 0

end Offset

namespace Replay

open TokenSource (EndsAt after next nth take)

/--
How many tokens of the list are replayed: all before the first that is itself the end of the input.
-/
def replayed (s : Replay) : Nat := s.tokens.findIdx Token.isEof

theorem replayed_le (s : Replay) : s.replayed ≤ s.tokens.size := Array.findIdx_le_size

theorem start_endToken (s : Replay) : s.endToken.start = Offset.past s.tokens.back? := by
  unfold endToken Offset.past
  cases s.tokens.back? <;> rfl

section Next

variable {s : Replay}

theorem exists_current?_of_lt (h : s.position < s.replayed) :
    ∃ t, s.tokens[s.position]? = some t ∧ s.current? = some t := by
  have hsize := Nat.lt_of_lt_of_le h s.replayed_le
  have hopen : Token.isEof s.tokens[s.position] = false := Array.not_of_lt_findIdx h
  refine ⟨_, Array.getElem?_eq_getElem hsize, ?_⟩
  unfold current?
  rw [Array.getElem?_eq_getElem hsize]
  rw [Option.filter_some]
  rw [hopen]
  rfl

theorem current?_of_eq (h : s.position = s.replayed) : s.current? = none := by
  unfold current?
  rw [h]
  rcases Nat.eq_or_lt_of_le s.replayed_le with heq | hlt
  . rw [heq]
    rw [Array.getElem?_eq_none (Nat.le_refl _)]
    rfl
  . have heof : Token.isEof s.tokens[s.replayed] = true := Array.findIdx_getElem
    rw [Array.getElem?_eq_getElem hlt]
    rw [Option.filter_some]
    rw [heof]
    rfl

theorem next_of_lt (h : s.position < s.replayed) :
    ∃ t, s.tokens[s.position]? = some t ∧
      next s =
        ({ t with index := Offset.ofPosition s.position }, { s with position := s.position + 1 }) := by
  obtain ⟨t, ht, hcurrent⟩ := exists_current?_of_lt h
  refine ⟨t, ht, ?_⟩
  simp only [next]
  rw [hcurrent]

theorem next_of_eq (h : s.position = s.replayed) : next s = (s.endToken, s) := by
  simp only [next]
  rw [current?_of_eq h]

end Next

section Sequence

variable {s : Replay} (hstart : s.position = 0)

include hstart

/--
A replay goes on by one token with each pull, until it is over.
-/
theorem after_eq (n : Nat) : after n s = { s with position := min n s.replayed } := by
  induction n with
  | zero =>
    change s = _
    rw [Nat.zero_min]
    rw [← hstart]
  | succ n ih =>
    rw [TokenSource.after_succ]
    rw [ih]
    by_cases h : n < s.replayed
    . obtain ⟨t, -, hnext⟩ := next_of_lt (s := { s with position := min n s.replayed }) (by
        change min n s.replayed < s.replayed
        omega)
      rw [hnext]
      dsimp only
      congr 1
      omega
    . rw [next_of_eq]
      . dsimp only
        congr 1
        omega
      . change min n s.replayed = s.replayed
        omega

theorem nth_of_lt {k : Nat} (h : k < s.replayed) :
    ∃ t, s.tokens[k]? = some t ∧ nth s k = { t with index := Offset.ofPosition k } := by
  have hmin : min k s.replayed = k := by omega
  unfold nth
  rw [after_eq hstart]
  rw [hmin]
  obtain ⟨t, ht, hnext⟩ := next_of_lt (s := { s with position := k }) h
  exact ⟨t, ht, congrArg Prod.fst hnext⟩

theorem nth_of_le {k : Nat} (h : s.replayed ≤ k) : nth s k = s.endToken := by
  have hmin : min k s.replayed = s.replayed := by omega
  unfold nth
  rw [after_eq hstart]
  rw [hmin]
  rw [next_of_eq rfl]
  rfl

theorem isEof_nth_of_lt {k : Nat} (h : k < s.replayed) : Token.isEof (nth s k) = false := by
  obtain ⟨t, ht, hnth⟩ := nth_of_lt hstart h
  have hsize := Nat.lt_of_lt_of_le h s.replayed_le
  have hopen : Token.isEof s.tokens[k] = false := Array.not_of_lt_findIdx h
  rw [Array.getElem?_eq_getElem hsize] at ht
  cases ht
  rw [hnth]
  exact hopen

theorem isEof_nth_of_le {k : Nat} (h : s.replayed ≤ k) : Token.isEof (nth s k) = true := by
  rw [nth_of_le hstart h]
  rfl

/--
The number that a token is given makes no difference to its text.
-/
theorem map_text_take : (take s.replayed s).map Token.text =
    (s.tokens.toList.take s.replayed).map Token.text := by
  apply List.ext_getElem?
  intro k
  rw [List.getElem?_map]
  rw [List.getElem?_map]
  rw [TokenSource.getElem?_take]
  rw [List.getElem?_take]
  split
  . next hk =>
    obtain ⟨t, ht, hnth⟩ := nth_of_lt hstart hk
    rw [Array.getElem?_toList]
    rw [ht]
    rw [hnth]
    rfl
  . rfl

/--
With the whole list replayed the end of the input starts right after the last token before it.
-/
theorem start_endToken_of_replayed_eq (h : s.replayed = s.tokens.size) :
    s.endToken.start = Offset.past (take s.replayed s).getLast? := by
  rw [start_endToken]
  rw [Array.back?_eq_getElem?]
  rw [List.getLast?_eq_getElem?]
  rw [TokenSource.length_take]
  rw [TokenSource.getElem?_take]
  rw [h]
  split
  . next hlt =>
    obtain ⟨t, ht, hnth⟩ := nth_of_lt hstart (k := s.tokens.size - 1) (by omega)
    rw [ht]
    rw [hnth]
    rfl
  . next hge =>
    rw [Array.getElem?_eq_none (by omega)]

end Sequence

section Numbers

variable {s : Replay} (hstart : s.position = 0) (hsize : s.tokens.size ≤ Int32.maxValue.toInt)

include hstart hsize

theorem endsAt : EndsAt s s.replayed where
  isEof_nth := isEof_nth_of_le hstart (Nat.le_refl _)
  isEof_nth_of_lt := fun _ => isEof_nth_of_lt hstart
  lt_limit := by
    have hle := s.replayed_le
    have hmax : Int32.maxValue.toInt = 2147483647 := by decide
    unfold Position.limit
    omega

theorem toInt_index_nth_of_lt {k : Nat} (h : k < s.replayed) :
    (Token.index (nth s k)).toInt = k := by
  have hle := s.replayed_le
  obtain ⟨t, -, hnth⟩ := nth_of_lt hstart h
  rw [hnth]
  apply Offset.toInt_ofPosition
  omega

theorem toInt_index_nth_of_le {k : Nat} (h : s.replayed ≤ k) :
    (Token.index (nth s k)).toInt = s.tokens.size := by
  rw [nth_of_le hstart h]
  apply Offset.toInt_ofPosition hsize

/--
The end of the input is numbered by its position just if the whole list has been replayed by then.
-/
theorem toInt_index_nth_eq_iff (k : Nat) :
    (Token.index (nth s k)).toInt = (min k s.replayed : Nat) ↔
      k < s.replayed ∨ s.replayed = s.tokens.size := by
  rcases Nat.lt_or_ge k s.replayed with h | h
  . rw [toInt_index_nth_of_lt hstart hsize h]
    omega
  . rw [toInt_index_nth_of_le hstart hsize h]
    omega

/--
No token is numbered short of its position, nor past it if it is replayed.
-/
theorem min_index_nth (k : Nat) :
    min (Token.index (nth s k)).toInt.toNat s.replayed = min k s.replayed := by
  have hle := s.replayed_le
  rcases Nat.lt_or_ge k s.replayed with h | h
  . rw [toInt_index_nth_of_lt hstart hsize h]
    omega
  . rw [toInt_index_nth_of_le hstart hsize h]
    omega

theorem index_nth_nonneg (k : Nat) : 0 ≤ (Token.index (nth s k)).toInt := by
  rcases Nat.lt_or_ge k s.replayed with h | h
  . rw [toInt_index_nth_of_lt hstart hsize h]
    apply Int.natCast_nonneg
  . rw [toInt_index_nth_of_le hstart hsize h]
    apply Int.natCast_nonneg

end Numbers

end Replay

end Lookahead
