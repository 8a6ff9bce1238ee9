import Lookahead.Proofs.CharStream.Pieces
import Lookahead.Proofs.TokenSource.Sequence
import Lookahead.TokenSource.Words

/-!
This module contains the sources that cut a text into pieces: their tokens have the texts of pieces
that lie side by side and cover all of the text. The lexer for words is one of them.
-/

namespace Lookahead

namespace TokenSource

variable {σ τ : Type} [Token τ] [TokenSource σ τ]

/--
From position `start` on, the source cuts the text of `chars` into the pieces that the intervals
address, one for each of its tokens, and then has come to the end of the input.
-/
structure Cuts (source : σ) (chars : CharStream) (start : Int) (pieces : List Interval) : Prop where
  tiles : Interval.Tiles start chars.size pieces
  texts : (take pieces.length source).map Token.text = pieces.map chars.textIn
  isEof_eq_false : ∀ t ∈ take pieces.length source, Token.isEof t = false
  isEof_nth : Token.isEof (nth source pieces.length) = true

namespace Cuts

variable {source : σ} {chars : CharStream} {start : Int} {pieces : List Interval}

theorem nil (hstart : start = chars.size) (heof : Token.isEof (next source).1 = true) :
    Cuts source chars start [] where
  tiles := hstart
  texts := rfl
  isEof_eq_false := by simp [take]
  isEof_nth := heof

theorem cons {x : Interval} (hlo : x.lo.toInt = start) (hhi : x.lo ≤ x.hi)
    (htext : Token.text (next source).1 = chars.textIn x)
    (heof : Token.isEof (next source).1 = false)
    (hrest : Cuts (next source).2 chars (x.hi.toInt + 1) pieces) :
    Cuts source chars start (x :: pieces) where
  tiles := ⟨hlo, hhi, hrest.tiles⟩
  texts := by
    rw [List.length_cons]
    unfold take
    rw [List.map_cons]
    rw [htext]
    rw [hrest.texts]
    rfl
  isEof_eq_false := by
    rw [List.length_cons]
    unfold take
    rw [List.forall_mem_cons]
    exact ⟨heof, hrest.isEof_eq_false⟩
  isEof_nth := hrest.isEof_nth

/--
Where the stream stands does not matter.
-/
theorem of_seek {p : Nat} (h : Cuts source (chars.seek p) start pieces) :
    Cuts source chars start pieces :=
  ⟨h.tiles, h.texts, h.isEof_eq_false, h.isEof_nth⟩

theorem endsAt (h : Cuts source chars 0 pieces) : EndsAt source pieces.length where
  isEof_nth := h.isEof_nth
  isEof_nth_of_lt := by
    intro i hi
    apply h.isEof_eq_false
    apply List.mem_of_getElem?
    rw [getElem?_take]
    rw [if_pos hi]
  lt_limit := by
    have hlength := h.tiles.add_length_le
    have hstop := h.tiles.stop_le
    unfold Position.limit
    omega

end Cuts

end TokenSource

namespace Words

open TokenSource (Cuts next)

theorem runLength_pos {cells : Cells} {c : UInt32} {room p : Nat} (hroom : 0 < room)
    (h : cells.get? p = some c) : 0 < runLength cells (isBlank c) room p := by
  obtain ⟨room, rfl⟩ := Nat.exists_eq_succ_of_ne_zero (Nat.ne_of_gt hroom)
  unfold runLength
  rw [h]
  simp

section Next

variable {w : Words}

theorem isEof_next_of_le (h : w.input.size ≤ w.input.cursor) : Token.isEof (next w).1 = true := by
  have hc : w.input.cells.get? w.input.cursor = none := by
    rw [Cells.get?_eq_getElem?_toList]
    apply List.getElem?_eq_none
    rw [Cells.length_toList]
    exact h
  simp only [next]
  rw [hc]
  rfl

theorem next_of_lt (h : w.input.cursor < w.input.size) :
    ∃ stop, w.input.cursor < stop ∧ stop ≤ w.input.size ∧
      Token.text (next w).1 =
        w.input.textIn ⟨Offset.ofPosition w.input.cursor, Offset.ofPosition (stop - 1)⟩ ∧
      Token.isEof (next w).1 = false ∧
      (next w).2 = ⟨w.input.seek stop, w.count + 1⟩ := by
  obtain ⟨c, hc⟩ : ∃ c, w.input.cells.get? w.input.cursor = some c := by
    have hlength : w.input.cursor < w.input.cells.toList.length := by
      rw [Cells.length_toList]
      exact h
    rw [Cells.get?_eq_getElem?_toList]
    exact ⟨_, List.getElem?_eq_getElem hlength⟩
  have hpos := runLength_pos (Nat.sub_pos_of_lt h) hc
  have hle := runLength_le w.input.cells (isBlank c) (w.input.size - w.input.cursor) w.input.cursor
  refine ⟨w.input.cursor + runLength w.input.cells (isBlank c)
    (w.input.size - w.input.cursor) w.input.cursor, by omega, by omega, ?_⟩
  simp only [next]
  rw [hc]
  refine ⟨rfl, ?_, rfl⟩
  change ((if isBlank c then blankKind else wordKind) == Symbol.eof) = false
  split <;> rfl

end Next

/--
Whatever the text, the lexer cuts it up from where it stands.
-/
theorem exists_cuts {w : Words} (hsize : w.input.size ≤ Int32.maxValue.toInt)
    (hcursor : w.input.cursor ≤ w.input.size) :
    ∃ pieces, Cuts w w.input w.input.cursor pieces := by
  generalize hleft : w.input.size - w.input.cursor = left
  induction left using Nat.strongRecOn generalizing w with
  | ind left ih =>
    rcases Nat.eq_or_lt_of_le hcursor with hend | hlt
    . refine ⟨[], .nil ?_ ?_⟩
      . rw [hend]
      . apply isEof_next_of_le
        exact Nat.le_of_eq hend.symm
    . obtain ⟨stop, hstart, hstop, htext, heof, hnext⟩ := next_of_lt hlt
      have hrest := ih (w.input.size - stop) (by omega) (w := (next w).2)
      rw [hnext] at hrest
      obtain ⟨pieces, hpieces⟩ := hrest hsize hstop rfl
      have hlo : (Offset.ofPosition w.input.cursor).toInt = w.input.cursor := by
        apply Offset.toInt_ofPosition
        omega
      have hhi : (Offset.ofPosition (stop - 1)).toInt = (stop - 1 : Nat) := by
        apply Offset.toInt_ofPosition
        omega
      let x : Interval := ⟨Offset.ofPosition w.input.cursor, Offset.ofPosition (stop - 1)⟩
      refine ⟨x :: pieces, ?_⟩
      apply Cuts.cons (x := x) hlo _ htext heof
      . rw [hnext]
        rw [hhi]
        have hstop : ((stop - 1 : Nat) : Int) + 1 = stop := by omega
        rw [hstop]
        exact hpieces.of_seek
      . rw [Int32.le_iff_toInt_le]
        rw [hlo]
        rw [hhi]
        omega

end Words

end Lookahead
