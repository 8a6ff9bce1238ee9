import Lookahead.CharStream.Opening
import Lookahead.Proofs.CodeBuffer.Text
import Lookahead.Proofs.Interval.Items

/-!
This module contains the texts of character streams. The text of an interval is made of just the
code points that the interval addresses, at whichever width the stream stores them.
-/

namespace Lookahead

namespace CharStream

open CodeBuffer (Builder)

section Plain

variable {s : CharStream}

theorem text_eq_of_isPlain (h : s.cells.IsPlain) : s.text = Utf16.text s.cells.toList := by
  unfold text size
  rw [Cells.extract_size]
  exact Cells.text_eq_text_toList h

theorem extract_eq_items {x : Interval} (h : 0 ≤ x.lo.toInt) (points : List UInt32) :
    let start := min x.lo.toInt.toNat points.length
    let requested := (x.hi.toInt - x.lo.toInt + 1).toNat
    points.extract start (start + min requested (points.length - start)) = x.items points := by
  intro start requested
  have hrequested : (x.hi.toInt + 1 - x.lo.toInt).toNat = requested := by omega
  have hdrop : points.drop start = points.drop x.lo.toInt.toNat := List.drop_eq_drop_min.symm
  rw [Interval.items_eq_take_drop h]
  rw [hrequested]
  rw [List.extract_eq_take_drop]
  rw [Nat.add_sub_cancel_left]
  rw [← List.length_drop]
  rw [← List.take_eq_take_min]
  rw [hdrop]

theorem textIn_of_nonneg (h : s.cells.IsPlain) {x : Interval} (hx : 0 ≤ x.lo) :
    s.textIn x = Utf16.text (x.items s.cells.toList) := by
  have hsize : s.size = s.cells.toList.length := (Cells.length_toList _).symm
  have hlo : ¬x.lo < 0 := Int32.not_lt.mpr hx
  rw [Int32.le_iff_toInt_le] at hx
  unfold textIn
  dsimp only
  rw [Cells.text_eq_text_toList (h.extract ..)]
  rw [Cells.toList_extract]
  rw [hsize]
  rw [extract_eq_items hx]
  by_cases hrequested : x.hi.toInt - x.lo.toInt + 1 < 0
  . have hhi : x.hi < x.lo := by
      rw [Int32.lt_iff_toInt_lt]
      omega
    rw [Interval.items_eq_nil hhi]
    simp [hrequested, Utf16.text]
  . rw [if_neg (by simp [hlo, hrequested])]

theorem textIn_eq_of_isPlain (h : s.cells.IsPlain) (x : Interval) :
    s.textIn x =
      if x.lo < 0 ∨ x.hi < x.lo then "" else Utf16.text (x.items s.cells.toList) := by
  by_cases hlo : x.lo < 0
  . simp [textIn, hlo]
  . rw [textIn_of_nonneg h (Int32.not_lt.mp hlo)]
    by_cases hhi : x.hi < x.lo
    . rw [Interval.items_eq_nil hhi]
      simp [hhi, Utf16.text]
    . rw [if_neg (by simp [hlo, hhi])]

theorem textIn_append_textIn (h : s.cells.IsPlain) {a b c : Int32} (ha : 0 ≤ a)
    (hab : a.toInt ≤ b.toInt + 1) (hbc : b ≤ c) (hb : b < Int32.maxValue) :
    s.textIn ⟨a, b⟩ ++ s.textIn ⟨b + 1, c⟩ = s.textIn ⟨a, c⟩ := by
  have hnext : 0 ≤ b + 1 := by
    rw [Int32.le_iff_toInt_le] at ha ⊢
    rw [Interval.toInt_add_one hb]
    exact Int.le_trans ha hab
  rw [textIn_of_nonneg h (x := ⟨a, b⟩) ha]
  rw [textIn_of_nonneg h (x := ⟨b + 1, c⟩) hnext]
  rw [textIn_of_nonneg h (x := ⟨a, c⟩) ha]
  rw [← Utf16.text_append]
  rw [Interval.items_append_items ha hab hbc hb]

end Plain

theorem cells_ofBuilder (b : Builder) (settings : CharSettings) :
    (ofBuilder b settings).cells = b.build.cells := Cells.extract_size _

/--
A stream on chunks in one piece holds the code points of all their units. Its text has a replacement
character for each surrogate without a partner, the text of an interval is that of the code points
it addresses, and the texts of intervals side by side make up the text of both.
-/
theorem textIn_ofChunks {chunks : List Utf16.Chunk} {units : List (List UInt16)}
    (h : chunks.map Utf16.Chunk.units? = units.map some) (settings : CharSettings) :
    let points := Utf16.decode units.flatten
    ∃ s, ofChunks chunks settings = .ok s ∧
      (∀ chunk, chunks = [chunk] → ofChunk chunk settings = .ok s) ∧
      s.size = points.length ∧
      s.text = String.ofList (Utf16.lossy units.flatten) ∧
      (∀ x : Interval, s.textIn x =
        if x.lo < 0 ∨ x.hi < x.lo then "" else Utf16.text (x.items points)) ∧
      ∀ a b c : Int32, 0 ≤ a → a.toInt ≤ b.toInt + 1 → b ≤ c → b < Int32.maxValue →
        s.textIn ⟨a, b⟩ ++ s.textIn ⟨b + 1, c⟩ = s.textIn ⟨a, c⟩ := by
  intro points
  let s := ofBuilder (.pushAll {} units.flatten) settings
  have hs : ofChunks chunks settings = .ok s := by
    unfold ofChunks
    rw [Builder.ofChunks_eq_pushAll h]
    rfl
  have hcells : s.cells = (Builder.pushAll {} units.flatten).build.cells := cells_ofBuilder ..
  have hpoints : s.cells.toList = points := by
    rw [hcells]
    apply Builder.toList_build_pushAll
  have hplain : s.cells.IsPlain := by
    rw [hcells]
    apply Builder.isPlain_build_pushAll
  refine ⟨s, hs, ?_, ?_, ?_, ?_, ?_⟩
  . intro chunk hchunk
    rw [← hs]
    rw [hchunk]
    rfl
  . rw [← hpoints]
    exact (Cells.length_toList _).symm
  . rw [text_eq_of_isPlain hplain]
    rw [hpoints]
    apply Utf16.text_decode
  . intro x
    rw [textIn_eq_of_isPlain hplain]
    rw [hpoints]
  . intro a b c ha hab hbc hb
    exact textIn_append_textIn hplain ha hab hbc hb

theorem textIn_ofChunks_lone_low :
    ([.flat [0x20AC, 0xDE00], .flat [0x61]] : List Utf16.Chunk).map Utf16.Chunk.units? =
        [[0x20AC, 0xDE00], [0x61]].map some ∧
      ∃ s, ofChunks [.flat [0x20AC, 0xDE00], .flat [0x61]] {} = .ok s ∧ s.size = 3 ∧
        s.text = "€\uFFFDa" ∧ s.textIn ⟨1, 7⟩ = "\uFFFDa" ∧ s.textIn ⟨-1, 7⟩ = "" ∧
        s.textIn ⟨0, 0⟩ ++ s.textIn ⟨0 + 1, 1⟩ = s.textIn ⟨0, 1⟩ := by
  have hunits : ([.flat [0x20AC, 0xDE00], .flat [0x61]] : List Utf16.Chunk).map
      Utf16.Chunk.units? = [[0x20AC, 0xDE00], [0x61]].map some := by decide
  obtain ⟨s, hs, -, hsize, htext, htextIn, happend⟩ := textIn_ofChunks hunits {}
  refine ⟨hunits, s, hs, ?_, ?_, ?_, ?_, ?_⟩
  . rw [hsize]
    decide
  . rw [htext]
    decide
  . rw [htextIn]
    decide
  . rw [htextIn]
    decide
  . exact happend 0 0 1 (by decide) (by decide) (by decide) (by decide)

end CharStream

end Lookahead
