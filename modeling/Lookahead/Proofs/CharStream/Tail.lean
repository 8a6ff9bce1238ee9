import Lookahead.Proofs.CharStream.Text
import Lookahead.Proofs.CodeBuffer.Refusal
import Lookahead.Proofs.SymbolCursor.Contract

/-!
This module contains streams on buffers that have been read in part. The read position tells how much
is left out at the front, and what remains is found in the same places as on the whole of the buffer,
only nearer to the start.
-/

namespace Lookahead

namespace CodeBuffer

theorem cells_foldl_setPosition (b : CodeBuffer) (positions : List Nat) :
    (positions.foldl setPosition b).cells = b.cells := by
  induction positions generalizing b with
  | nil => rfl
  | cons p rest ih => exact ih (b.setPosition p)

/--
Of several positions to move to only the last one counts.
-/
theorem position_foldl_setPosition {b : CodeBuffer} (h : b.position = 0) (positions : List Nat) :
    (positions.foldl setPosition b).position = min (positions.getLastD 0) b.size := by
  rcases List.eq_nil_or_concat positions with rfl | ⟨init, p, rfl⟩
  . rw [List.foldl_nil]
    rw [h]
    exact (Nat.zero_min _).symm
  . rw [List.concat_eq_append]
    rw [List.foldl_append]
    rw [List.foldl_cons, List.foldl_nil]
    rw [position_setPosition]
    unfold size
    rw [cells_foldl_setPosition]
    rw [List.getLastD_concat]

theorem Built.foldl_setPosition {b : CodeBuffer} (h : b.Built) (positions : List Nat) :
    (positions.foldl CodeBuffer.setPosition b).Built := by
  induction positions generalizing b with
  | nil => exact h
  | cons p rest ih => exact ih (.setPosition p h)

theorem toList_unread (b : CodeBuffer) : b.unread.toList = b.cells.toList.drop b.position := by
  have hlength : (b.cells.toList.drop b.position).length = b.cells.size - b.position := by
    rw [List.length_drop]
    rw [Cells.length_toList]
  unfold unread size
  rw [Cells.toList_extract]
  rw [List.extract_eq_take_drop]
  exact List.take_of_length_le (Nat.le_of_eq hlength)

theorem size_unread (b : CodeBuffer) : b.unread.size = b.remaining := by
  rw [← Cells.length_toList]
  rw [toList_unread]
  rw [List.length_drop]
  rw [Cells.length_toList]
  rfl

theorem width_unread (b : CodeBuffer) : b.unread.width = b.width := Cells.width_extract ..

end CodeBuffer

namespace CharStream

open CodeBuffer (Builder)
open SymbolCursor (place symbolAt)

section Shift

variable {whole b : CodeBuffer} {q : Nat}

theorem symbolAt?_of_drop (h : b.unread.toList = whole.unread.toList.drop q) (j : Nat) :
    b.symbolAt? j = whole.symbolAt? (q + j) := by
  unfold CodeBuffer.symbolAt?
  rw [h]
  rw [List.getElem?_drop]

theorem symbolAt_of_drop (h : b.unread.toList = whole.unread.toList.drop q) {x : Int}
    (hx : 0 ≤ x) : symbolAt b.symbolAt? x = symbolAt whole.symbolAt? (x + q) := by
  have hq : (x + q).toNat = q + x.toNat := by omega
  rw [SymbolCursor.symbolAt_of_nonneg _ hx]
  rw [SymbolCursor.symbolAt_of_nonneg _ (by omega)]
  rw [symbolAt?_of_drop h]
  rw [hq]

/--
Looking around on the rest of a buffer is looking around on all of it from as many positions further
on as have been left out, but for what lies before the rest.
-/
theorem look_of_drop (hb : b.Built) (hwhole : whole.Built)
    (h : b.unread.toList = whole.unread.toList.drop q) (hsize : whole.unread.size ≤ Position.limit)
    (name name' : String) (c : Nat) {i : Int} (hi : i ≠ 0) :
    ((ofBuffer b name').seek c).look i =
      if 0 ≤ place c i then ((ofBuffer whole name).seek (c + q)).look i else Symbol.eof := by
  have hrest : Reachable b ((ofBuffer b name').seek c) := .answer (.seek c) (.ofBuffer name')
  have hall : Reachable whole ((ofBuffer whole name).seek (c + q)) :=
    .answer (.seek (c + q)) (.ofBuffer name)
  have hlength : b.unread.size ≤ Position.limit := by
    rw [← Cells.length_toList] at hsize ⊢
    rw [h]
    rw [List.length_drop]
    omega
  rw [hrest.look_eq hb hlength hi]
  rw [hall.look_eq hwhole hsize hi]
  change symbolAt b.symbolAt? (place c i) =
    if 0 ≤ place c i then symbolAt whole.symbolAt? (place (c + q) i) else Symbol.eof
  split
  . next hplace =>
    rw [symbolAt_of_drop h hplace]
    rw [SymbolCursor.place_add]
  . next hplace => exact SymbolCursor.symbolAt_of_neg _ (Int.not_le.mp hplace)

theorem textIn_of_drop (hb : b.Built) (hwhole : whole.Built)
    (h : b.unread.toList = whole.unread.toList.drop q) (name name' : String) {x y : Interval}
    (hx : 0 ≤ x.lo) (hlo : y.lo.toInt = x.lo.toInt + q) (hhi : y.hi.toInt = x.hi.toInt + q) :
    (ofBuffer b name').textIn x = (ofBuffer whole name).textIn y := by
  have hy : 0 ≤ y.lo := by
    rw [Int32.le_iff_toInt_le] at hx ⊢
    rw [hlo]
    exact Int.le_trans hx (Int.le_add_of_nonneg_right (Int.natCast_nonneg q))
  rw [textIn_of_nonneg (hb.isPlain.extract ..) hx]
  rw [textIn_of_nonneg (hwhole.isPlain.extract ..) hy]
  change Utf16.text (x.items b.unread.toList) = Utf16.text (y.items whole.unread.toList)
  rw [h]
  rw [Interval.items_drop (Int32.le_iff_toInt_le.mp hx) hlo hhi]

theorem text_of_drop (hb : b.Built) (hwhole : whole.Built)
    (h : b.unread.toList = whole.unread.toList.drop q) (name name' : String) :
    (ofBuffer whole name).text =
      Utf16.text (whole.unread.toList.take q) ++ (ofBuffer b name').text := by
  rw [text_eq_of_isPlain (hwhole.isPlain.extract ..)]
  rw [text_eq_of_isPlain (hb.isPlain.extract ..)]
  change Utf16.text whole.unread.toList = _ ++ Utf16.text b.unread.toList
  rw [h]
  rw [← Utf16.text_append]
  rw [List.take_append_drop]

end Shift

/--
A stream on a buffer whose read position has been moved is the stream on the whole buffer from
position `q` on, where the last move went or the buffer ends. It is as wide, and as long as what
remains. Looks and texts are those of the whole stream `q` positions further on, with the end of the
input before the start, and the code points left out make up the rest of the text.
-/
theorem shift_ofBuffer (chunks : List Utf16.Chunk) (positions : List Nat) (name name' : String)
    (hsize : (Builder.appendEach {} chunks).build.size ≤ Position.limit) :
    let whole := (Builder.appendEach {} chunks).build
    let b := positions.foldl CodeBuffer.setPosition whole
    let q := min (positions.getLastD 0) whole.size
    let s := ofBuffer whole name
    let t := ofBuffer b name'
    b.position = q ∧ b.remaining + b.position = whole.size ∧
      t.size = b.remaining ∧ t.width = s.width ∧
      (∀ (c : Nat) (i : Int), 0 < i →
        (t.seek c).look i = (s.seek (c + q)).look i ∧
          (t.seek c).look (-i) =
            if i ≤ c then (s.seek (c + q)).look (-i) else Symbol.eof) ∧
      (∀ x y : Interval, 0 ≤ x.lo → y.lo.toInt = x.lo.toInt + q → y.hi.toInt = x.hi.toInt + q →
        t.textIn x = s.textIn y) ∧
      s.text = Utf16.text (whole.cells.toList.take q) ++ t.text := by
  intro whole b q s t
  have hwhole : whole.Built := Builder.built_appendEach chunks
  have hb : b.Built := hwhole.foldl_setPosition positions
  have hcells : b.cells = whole.cells := whole.cells_foldl_setPosition positions
  have hposition : b.position = q := CodeBuffer.position_foldl_setPosition rfl positions
  have hall : whole.unread.toList = whole.cells.toList := whole.toList_unread
  have hdrop : b.unread.toList = whole.unread.toList.drop q := by
    rw [b.toList_unread]
    rw [hcells]
    rw [hposition]
    rw [hall]
  have hunread : whole.unread.size ≤ Position.limit := by
    rw [whole.size_unread]
    exact hsize
  refine ⟨hposition, ?_, b.size_unread, ?_, ?_, ?_, ?_⟩
  . rw [Nat.add_comm]
    rw [b.position_add_remaining]
    unfold CodeBuffer.size
    rw [hcells]
  . change b.unread.width = whole.unread.width
    rw [b.width_unread]
    rw [whole.width_unread]
    unfold CodeBuffer.width
    rw [hcells]
  . intro c i hi
    constructor
    . rw [look_of_drop hb hwhole hdrop hunread name name' c (by omega)]
      rw [SymbolCursor.place_of_pos hi]
      rw [if_pos (by omega)]
    . rw [look_of_drop hb hwhole hdrop hunread name name' c (by omega)]
      rw [SymbolCursor.place_neg_of_pos hi]
      simp only [Int.sub_nonneg]
      rfl
  . intro x y hx hlo hhi
    exact textIn_of_drop hb hwhole hdrop name name' hx hlo hhi
  . rw [← hall]
    exact text_of_drop hb hwhole hdrop name name'

theorem shift_ofBuffer_past_pair :
    let chunks : List Utf16.Chunk := [.flat [0x61, 0xD83D], .scattered, .flat [0xDE00, 0x62, 0x63]]
    let whole := (Builder.appendEach {} chunks).build
    let b := [9, 2].foldl CodeBuffer.setPosition whole
    let s := ofBuffer whole "whole"
    let t := ofBuffer b ""
    whole.size ≤ Position.limit ∧ b.position = 2 ∧ b.remaining + b.position = 4 ∧ t.size = 2 ∧
      (t.seek 1).look 1 = (s.seek 3).look 1 ∧ (t.seek 1).look (-1) = (s.seek 3).look (-1) ∧
      (t.seek 1).look (-2) = Symbol.eof ∧ t.textIn ⟨0, 9⟩ = s.textIn ⟨2, 11⟩ ∧
      s.text = "a😀" ++ t.text := by
  intro chunks whole b s t
  have hsize : whole.size ≤ Position.limit := by decide +kernel
  obtain ⟨hposition, hremaining, hlength, -, hlook, htextIn, htext⟩ :=
    shift_ofBuffer chunks [9, 2] "whole" "" hsize
  have hq : min ([9, 2].getLastD 0) whole.size = 2 := by decide +kernel
  rw [hq] at hposition hlook htextIn htext
  refine ⟨hsize, hposition, ?_, ?_, ?_, ?_, ?_, ?_, ?_⟩
  . rw [hremaining]
    decide +kernel
  . rw [hlength]
    decide +kernel
  . exact (hlook 1 1 (by decide)).1
  . exact (hlook 1 1 (by decide)).2
  . exact (hlook 1 2 (by decide)).2
  . exact htextIn ⟨0, 9⟩ ⟨2, 11⟩ (by decide) (by decide) (by decide)
  . rw [htext]
    decide +kernel

end CharStream

end Lookahead
