import Lookahead.Proofs.TokenSource.Cutting
import Lookahead.Proofs.TokenStream.Text

/-!
This module contains what becomes of a text on its way through a lexer and a token stream. If the
lexer cuts the text into pieces, the stream has all of the text and any part of it between two tokens.
-/

namespace Lookahead

namespace TokenStream

open TokenSource (Cuts EndsAt take)

variable {σ τ μ : Type} [Token τ] [TokenSource σ τ] {rule : LandingRule σ τ μ}

section Cuts

variable {source : σ} {chars : CharStream} {pieces : List Interval} {s : TokenStream rule}

theorem Reachable.text_fst_of_cuts (hs : Reachable rule source s) (h : Cuts source chars 0 pieces)
    (hplain : chars.cells.IsPlain) : s.text.1 = Utf16.text chars.cells.toList := by
  rw [hs.text_eq_spelling h.endsAt]
  unfold spelling
  rw [h.texts]
  rw [CharStream.join_textIn_of_tiles hplain h.tiles (Int.le_refl 0)]
  have hsize : chars.cells.toList.length = ((chars.size : Int) - 0).toNat := by
    rw [Cells.length_toList]
    exact (Int.toNat_natCast chars.size).symm
  rw [← hsize]
  simp

theorem Reachable.textIn_eq_of_cuts (hs : Reachable rule source s)
    (h : Cuts source chars 0 pieces) (hplain : chars.cells.IsPlain) {i j : Nat} (hij : i ≤ j)
    (hj : j < pieces.length) :
    (s.textIn ⟨Offset.ofPosition i, Offset.ofPosition j⟩).1 =
      chars.textIn ⟨pieces[i].lo, pieces[j].hi⟩ := by
  have hlength := h.tiles.add_length_le
  have hstop := h.tiles.stop_le
  have hmax : Int32.maxValue.toInt = 2147483647 := by decide
  have hlo := Offset.toInt_ofPosition (p := i) (by omega)
  have hhi := Offset.toInt_ofPosition (p := j) (by omega)
  rw [hs.textIn_eq_items h.endsAt (by dsimp only; omega) (by dsimp only; omega)]
  rw [Interval.items_eq_take_drop (by dsimp only; omega)]
  dsimp only
  rw [hlo]
  rw [hhi]
  have htake : ((j : Int) + 1 - i).toNat = j + 1 - i := by omega
  rw [htake]
  rw [Int.toNat_natCast]
  unfold spelling
  rw [List.map_take]
  rw [List.map_drop]
  rw [h.texts]
  rw [← CharStream.join_textIn_drop_take hplain h.tiles (Int.le_refl 0) (by omega) hj hij]
  rw [List.drop_take]
  rw [List.map_take]
  rw [List.map_drop]

end Cuts

/--
A source that cuts a string into pieces loses nothing of it: any stream over the source has the string
for its text, and the text from one token to another is what lies between their pieces. The lexer for
words cuts every string that is not too long for its offsets.
-/
theorem text_eq_of_cuts (string : String) (settings : CharSettings) :
    let chars := CharStream.ofString string settings
    (∀ {σ τ μ : Type} [Token τ] [TokenSource σ τ] {source : σ} {pieces : List Interval},
      Cuts source chars 0 pieces →
      ∀ {rule : LandingRule σ τ μ} {s : TokenStream rule}, Reachable rule source s →
        s.text.1 = string ∧
          ∀ i j, (hij : i ≤ j) → (hj : j < pieces.length) →
            (s.textIn ⟨Offset.ofPosition i, Offset.ofPosition j⟩).1 =
              chars.textIn ⟨pieces[i].lo, pieces[j].hi⟩) ∧
      (string.length ≤ Int32.maxValue.toInt → ∃ pieces, Cuts (Words.mk chars 0) chars 0 pieces) := by
  intro chars
  have hplain := CharStream.isPlain_cells_ofString string settings
  constructor
  . intro σ τ μ _ _ source pieces h rule s hs
    constructor
    . rw [hs.text_fst_of_cuts h hplain]
      apply CharStream.text_toList_cells_ofString
    . intro i j hij hj
      exact hs.textIn_eq_of_cuts h hplain hij hj
  . intro hlength
    apply Words.exists_cuts (w := ⟨chars, 0⟩)
    . rw [CharStream.size_ofString]
      exact hlength
    . apply Nat.zero_le

theorem text_eq_of_cuts_words :
    let string := "let x\t= 😀\n"
    let chars := CharStream.ofString string {}
    let pieces : List Interval :=
      [⟨0, 2⟩, ⟨3, 3⟩, ⟨4, 4⟩, ⟨5, 5⟩, ⟨6, 6⟩, ⟨7, 7⟩, ⟨8, 8⟩, ⟨9, 9⟩]
    let rule : LandingRule Words PlainToken Unit := .onChannel 0
    let s : TokenStream rule :=
      ((ofSource rule () ⟨chars, 0⟩ {}).answers [.consume, .look 2, .seek 3]).2
    Cuts (Words.mk chars 0) chars 0 pieces ∧ Reachable rule ⟨chars, 0⟩ s ∧ s.text.1 = string ∧
      (s.textIn ⟨2, 6⟩).1 = chars.textIn ⟨4, 8⟩ ∧
      ∃ found, Cuts (Words.mk chars 0) chars 0 found := by
  intro string chars pieces rule s
  have hcuts : Cuts (Words.mk chars 0) chars 0 pieces := by
    constructor
    . decide +kernel
    . decide +kernel
    . decide +kernel
    . decide +kernel
  have hs : Reachable rule ⟨chars, 0⟩ s := (Reachable.ofSource () {}).answers [.consume, .look 2, .seek 3]
  obtain ⟨hpieces, hfound⟩ := text_eq_of_cuts string {}
  obtain ⟨htext, hin⟩ := hpieces hcuts hs
  exact ⟨hcuts, hs, htext, hin 2 6 (by decide) (by decide), hfound (by decide +kernel)⟩

end TokenStream

end Lookahead
