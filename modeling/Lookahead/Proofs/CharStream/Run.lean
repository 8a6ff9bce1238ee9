import Lookahead.CharStream.Request
import Lookahead.Proofs.CodeBuffer.Text

/-!
This module contains the runs of character streams. Whatever is asked of a stream, its code points
stay those of the buffer, each of which is a symbol of its own number.
-/

namespace Lookahead

namespace CodeBuffer

/--
The symbol at position `q` of the unread part, which is the code point there.
-/
def symbolAt? (b : CodeBuffer) (q : Nat) : Option Int32 := b.unread.toList[q]?.map UInt32.toInt32

end CodeBuffer

namespace CharStream

/--
The states of streams on `b`: new ones, and those after one more request.
-/
inductive Reachable (b : CodeBuffer) : CharStream → Prop where
  | ofBuffer (name : String) : Reachable b (ofBuffer b name)
  | answer {s : CharStream} (request : Request) :
    Reachable b s → Reachable b (s.answer request).2

theorem consume_cases (s : CharStream) :
    s.consume = (.error .consumeEof, s) ∨
      s.consume = (.ok (), { s with cursor := s.cursor + 1 }) := by
  unfold consume
  split
  . exact .inl rfl
  . exact .inr rfl

/--
All that a request does to a stream is to move the cursor.
-/
theorem exists_seek_eq_answer (s : CharStream) (request : Request) :
    ∃ p, (s.answer request).2 = s.seek p := by
  cases request with
  | consume =>
    rcases s.consume_cases with h | h
    . exact ⟨s.cursor, by simp [CharStream.answer, SymbolCursor.consume, h, CharStream.seek]⟩
    . exact ⟨s.cursor + 1, by simp [CharStream.answer, SymbolCursor.consume, h, CharStream.seek]⟩
  | seek p => exact ⟨p, rfl⟩
  | _ => exact ⟨s.cursor, rfl⟩

theorem cells_answer (s : CharStream) (request : Request) :
    (s.answer request).2.cells = s.cells := by
  obtain ⟨p, h⟩ := s.exists_seek_eq_answer request
  rw [h]
  rfl

/--
The stream after a sequence of requests.
-/
def after (s : CharStream) : List Request → CharStream
  | [] => s
  | request :: rest => (s.answer request).2.after rest

theorem exists_seek_eq_after (s : CharStream) (requests : List Request) :
    ∃ p, s.after requests = s.seek p := by
  induction requests generalizing s with
  | nil => exact ⟨s.cursor, rfl⟩
  | cons request rest ih =>
    obtain ⟨q, hfirst⟩ := s.exists_seek_eq_answer request
    obtain ⟨p, hrest⟩ := ih (s.answer request).2
    rw [hfirst] at hrest
    refine ⟨p, ?_⟩
    unfold after
    rw [hfirst]
    exact hrest

theorem Reachable.cells_eq {b : CodeBuffer} {s : CharStream} (h : s.Reachable b) :
    s.cells = b.unread := by
  induction h with
  | ofBuffer name => rfl
  | @answer s request _ ih =>
    rw [cells_answer]
    exact ih

theorem toInt_toInt32 {c : UInt32} (h : c.toNat < 0x110000) : c.toInt32.toInt = c.toNat := by
  apply BitVec.toInt_eq_toNat_of_lt
  change 2 * c.toNat < 2 ^ 32
  omega

theorem symbol?_eq {c : UInt32} (h : c.toNat < 0x110000) : symbol? c = some c.toInt32 := by
  unfold symbol?
  rw [if_pos]
  rw [UInt32.lt_iff_toNat_lt]
  exact Nat.lt_trans h (by decide)

theorem Reachable.symbolAt?_eq {b : CodeBuffer} {s : CharStream} (h : s.Reachable b)
    (hb : b.Built) : s.symbolAt? = b.symbolAt? := by
  funext q
  unfold symbolAt? CodeBuffer.symbolAt?
  rw [Cells.get?_eq_getElem?_toList]
  rw [h.cells_eq]
  cases hc : b.unread.toList[q]? with
  | none => rfl
  | some c => exact symbol?_eq (hb.toNat_lt_of_mem_unread (List.mem_of_getElem? hc))

end CharStream

end Lookahead
