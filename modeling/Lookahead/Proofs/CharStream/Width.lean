import Lookahead.CharStream.Request
import Lookahead.Proofs.CharStream.Text

/-!
This module contains what the width of a character stream has to do with its answers, which is
nothing: streams on the same code points cannot be told apart by what they answer, even if one of
them stores its code points more widely because of a text that has been read already.
-/

namespace Lookahead

namespace CharStream

/--
The streams have the same code points, at whatever width, and the cursor in the same place.
-/
structure Agrees (s t : CharStream) : Prop where
  toList_eq : s.cells.toList = t.cells.toList
  cursor_eq : s.cursor = t.cursor
  isPlain_left : s.cells.IsPlain
  isPlain_right : t.cells.IsPlain

namespace Agrees

variable {s t : CharStream}

theorem size_eq (h : s.Agrees t) : s.size = t.size := by
  unfold size
  rw [← Cells.length_toList]
  rw [← Cells.length_toList]
  rw [h.toList_eq]

theorem symbolAt?_eq (h : s.Agrees t) : s.symbolAt? = t.symbolAt? := by
  funext p
  unfold symbolAt?
  rw [Cells.get?_eq_getElem?_toList]
  rw [Cells.get?_eq_getElem?_toList]
  rw [h.toList_eq]

theorem look_eq (h : s.Agrees t) (i : Int) : s.look i = t.look i := by
  unfold look
  rw [h.cursor_eq]
  rw [h.symbolAt?_eq]

theorem textIn_eq (h : s.Agrees t) (x : Interval) : s.textIn x = t.textIn x := by
  rw [textIn_eq_of_isPlain h.isPlain_left]
  rw [textIn_eq_of_isPlain h.isPlain_right]
  rw [h.toList_eq]

theorem text_eq (h : s.Agrees t) : s.text = t.text := by
  rw [text_eq_of_isPlain h.isPlain_left]
  rw [text_eq_of_isPlain h.isPlain_right]
  rw [h.toList_eq]

theorem seek (h : s.Agrees t) (p : Nat) : (s.seek p).Agrees (t.seek p) :=
  ⟨h.toList_eq, rfl, h.isPlain_left, h.isPlain_right⟩

/--
Streams that agree consume alike, and agree afterwards.
-/
theorem consume (h : s.Agrees t) :
    (s.consume = (.error .consumeEof, s) ∧ t.consume = (.error .consumeEof, t)) ∨
      ∃ s' t', s.consume = (.ok (), s') ∧ t.consume = (.ok (), t') ∧ s'.Agrees t' := by
  unfold CharStream.consume
  rw [h.size_eq]
  rw [h.cursor_eq]
  split
  . exact .inl ⟨rfl, rfl⟩
  . exact .inr ⟨_, _, rfl, rfl, h.toList_eq, rfl, h.isPlain_left, h.isPlain_right⟩

theorem answer (h : s.Agrees t) (request : Request) :
    (s.answer request).1 = (t.answer request).1 ∧
      (s.answer request).2.Agrees (t.answer request).2 := by
  cases request with
  | consume =>
    rcases h.consume with ⟨hs, ht⟩ | ⟨s', t', hs, ht, h'⟩
    . simp [CharStream.answer, SymbolCursor.consume, hs, ht, h]
    . simp [CharStream.answer, SymbolCursor.consume, hs, ht, h']
  | look i => exact ⟨congrArg Answer.symbol (h.look_eq i), h⟩
  | mark => exact ⟨rfl, h⟩
  | release marker => exact ⟨rfl, h⟩
  | seek p => exact ⟨rfl, h.seek p⟩
  | size => exact ⟨congrArg Answer.count h.size_eq, h⟩
  | textIn x => exact ⟨congrArg Answer.text (h.textIn_eq x), h⟩
  | text => exact ⟨congrArg Answer.text h.text_eq, h⟩

theorem answers_eq (h : s.Agrees t) (requests : List Request) :
    s.answers requests = t.answers requests := by
  induction requests generalizing s t with
  | nil => rfl
  | cons request rest ih =>
    obtain ⟨hanswer, hnext⟩ := h.answer request
    unfold answers
    dsimp only
    rw [hanswer]
    rw [hnext.cursor_eq]
    rw [ih hnext]

end Agrees

/--
Streams on the unread parts of two buffers answer alike, whatever they are asked, if the code points
there are the same numbers.
-/
theorem answers_ofBuffer {b b' : CodeBuffer} (h : b.Built) (h' : b'.Built)
    (hunread : b.unread.toList = b'.unread.toList) (name name' : String)
    (requests : List Request) :
    (ofBuffer b name).answers requests = (ofBuffer b' name').answers requests := by
  apply Agrees.answers_eq
  constructor
  . exact hunread
  . rfl
  . exact h.isPlain.extract ..
  . exact h'.isPlain.extract ..

theorem answers_ofBuffer_past_pair :
    let b := (CodeBuffer.Builder.pushAll {} [0xD83D, 0xDE00, 0xDC00, 0x20AC]).build.setPosition 1
    let b' := (CodeBuffer.Builder.pushAll {} [0xDC00, 0x20AC]).build
    let requests := [.textIn ⟨0, 0⟩, .look 1, .consume, .look (-1), .text, .seek 5, .consume]
    b.Built ∧ b'.Built ∧ b.unread.toList = b'.unread.toList ∧ b.width ≠ b'.width ∧
      (ofBuffer b "").answers requests = (ofBuffer b' "").answers requests := by
  intro b b' requests
  have h : b.Built := by
    apply CodeBuffer.Built.setPosition 1
    exact @CodeBuffer.Built.build [.flat [0xD83D, 0xDE00, 0xDC00, 0x20AC]] _ rfl
  have h' : b'.Built := @CodeBuffer.Built.build [.flat [0xDC00, 0x20AC]] _ rfl
  have hunread : b.unread.toList = b'.unread.toList := by decide +kernel
  exact ⟨h, h', hunread, by decide, answers_ofBuffer h h' hunread "" "" requests⟩

end CharStream

end Lookahead
