import Lookahead.Proofs.CharStream.Text
import Lookahead.Proofs.Interval.Tiles

/-!
This module contains character streams on strings, cut into pieces. A stream on a string holds its
characters, and the texts of pieces that lie side by side make up the text of all that they cover.
-/

namespace Lookahead

namespace CharStream

open CodeBuffer (Builder)

section Cut

variable {s : CharStream} {start stop : Int} {xs : List Interval}

theorem join_textIn_of_tiles (h : s.cells.IsPlain) (ht : Interval.Tiles start stop xs)
    (hstart : 0 ≤ start) :
    String.join (xs.map s.textIn) =
      Utf16.text ((s.cells.toList.drop start.toNat).take (stop - start).toNat) := by
  induction xs generalizing start with
  | nil =>
    rw [Interval.Tiles] at ht
    simp [ht, Utf16.text]
  | cons x rest ih =>
    have hle := Interval.Tiles.add_length_le ht.2.2
    obtain ⟨hlo, hhi, hrest⟩ := ht
    rw [Int32.le_iff_toInt_le] at hhi
    have hdrop : (x.hi.toInt + 1).toNat = start.toNat + (x.hi.toInt + 1 - start).toNat := by omega
    have htake : (stop - start).toNat =
        (x.hi.toInt + 1 - start).toNat + (stop - (x.hi.toInt + 1)).toNat := by omega
    have hzero : 0 ≤ x.lo := by
      rw [Int32.le_iff_toInt_le]
      rw [hlo]
      exact hstart
    rw [List.map_cons]
    rw [String.join_cons]
    rw [ih hrest (by omega)]
    rw [textIn_of_nonneg h hzero]
    rw [Interval.items_eq_take_drop (by omega)]
    rw [← Utf16.text_append]
    rw [hlo]
    rw [hdrop]
    rw [htake]
    rw [List.take_add]
    rw [List.drop_drop]

theorem join_textIn_drop_take (h : s.cells.IsPlain) (ht : Interval.Tiles start stop xs)
    (hstart : 0 ≤ start) {i j : Nat} (hi : i < xs.length) (hj : j < xs.length) (hij : i ≤ j) :
    String.join (((xs.take (j + 1)).drop i).map s.textIn) = s.textIn ⟨xs[i].lo, xs[j].hi⟩ := by
  have hstart' := ht.le_lo hi
  have hlo : 0 ≤ xs[i].lo.toInt := by omega
  rw [join_textIn_of_tiles h (ht.drop_take hi hj hij) hlo]
  rw [textIn_of_nonneg h (x := ⟨xs[i].lo, xs[j].hi⟩) (Int32.le_iff_toInt_le.mpr hlo)]
  rw [Interval.items_eq_take_drop (x := ⟨xs[i].lo, xs[j].hi⟩) hlo]

end Cut

section String

variable (s : String) (settings : CharSettings)

theorem toList_cells_ofString : (ofString s settings).cells.toList = s.toList.map Char.val := by
  unfold ofString
  rw [cells_ofBuilder]
  unfold Builder.ofString
  rw [Builder.toList_build_pushAll]
  rw [Utf16.decode_ofString]

theorem isPlain_cells_ofString : (ofString s settings).cells.IsPlain := by
  unfold ofString
  rw [cells_ofBuilder]
  apply Builder.isPlain_build_pushAll

theorem size_ofString : (ofString s settings).size = s.toList.length := by
  unfold size
  rw [← Cells.length_toList]
  rw [toList_cells_ofString]
  rw [List.length_map]

theorem text_toList_cells_ofString : Utf16.text (ofString s settings).cells.toList = s := by
  rw [toList_cells_ofString]
  unfold Utf16.text
  rw [List.map_map]
  simp [Function.comp_def]

end String

end CharStream

end Lookahead
