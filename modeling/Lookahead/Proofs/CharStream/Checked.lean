import Lookahead.Proofs.CharStream.Tail
import Lookahead.Proofs.CodeBuffer.Checked

/-!
This module contains the operations of a character stream with every step checked that is not defined
everywhere: to go one on from the cursor, to go one back from a distance, and to measure an interval and
cut it out of the text. However the buffer was made and read before, every request has an answer, the
same as without the checks, and a look comes to the end of the input just outside of the text.
-/

namespace Lookahead

namespace CharStream

open CodeBuffer (Builder)
open SymbolCursor (place)

section Operations

variable (s : CharStream)

def checkedLook (i : Int) : Option Int32 :=
  if i = 0 then
    some Symbol.invalid
  else
    do
      let distance ← if 0 < i then Position.checkedPredDistance i else some i
      return ((Position.offset? s.cursor distance).bind s.symbolAt?).getD Symbol.eof

def checkedConsume : Option (Except Fault Unit × CharStream) :=
  if s.size ≤ s.cursor then
    some (.error .consumeEof, s)
  else
    do
      let cursor ← Position.checkedSucc s.cursor
      return (.ok (), { s with cursor })

def checkedTextIn (x : Interval) : Option String := do
  let reach ← Position.checkedDistance (x.hi.toInt - x.lo.toInt)
  let requested ← Position.checkedDistance (reach + 1)
  if x.lo < 0 ∨ requested < 0 then
    return ""
  else
    let start := min x.lo.toInt.toNat s.size
    let available ← Position.checkedSub s.size start
    let stop ← Position.checkedAdd start (min requested.toNat available)
    let cells ← s.cells.checkedExtract start stop
    return cells.text

def checkedText : Option String := (s.cells.checkedExtract 0 s.size).map Cells.text

/--
The answer to a request that has been checked, which is the answer itself where there is nothing to
check.
-/
def checkedAnswer (request : Request) : Option (Answer × CharStream) :=
  match request with
  | .consume => do
    match ← s.checkedConsume with
    | (.ok (), s) => return (.done, s)
    | (.error fault, s) => return (.refused fault, s)
  | .look i => (s.checkedLook i).map fun symbol => (.symbol symbol, s)
  | .textIn x => (s.checkedTextIn x).map fun text => (.text text, s)
  | .text => s.checkedText.map fun text => (.text text, s)
  | request => some (s.answer request)

end Operations

def checkedAnswers (s : CharStream) : List Request → Option (List (Answer × Nat))
  | [] => some []
  | request :: rest => do
    let (a, s) ← s.checkedAnswer request
    let as ← s.checkedAnswers rest
    return (a, s.cursor) :: as

section Checked

variable {s : CharStream}

theorem checkedLook_eq (s : CharStream) (i : Int) : s.checkedLook i = some (s.look i) := by
  unfold checkedLook look
  split
  . rfl
  . by_cases hi : 0 < i
    . rw [if_pos hi]
      rw [if_pos hi]
      rw [Position.checkedPredDistance_of_pos hi]
      rfl
    . rw [if_neg hi]
      rw [if_neg hi]
      rfl

theorem checkedText_eq (s : CharStream) : s.checkedText = some s.text := by
  have hcells : s.cells.checkedExtract 0 s.size = some (s.cells.extract 0 s.size) :=
    Cells.checkedExtract_of_le (Nat.zero_le _) (Nat.le_refl _)
  unfold checkedText
  rw [hcells]
  rfl

theorem checkedConsume_eq (hsize : s.size ≤ Position.limit) : s.checkedConsume = some s.consume := by
  unfold checkedConsume consume
  split
  . rfl
  . next h =>
    rw [Position.checkedSucc_of_lt (by omega)]
    rfl

theorem checkedTextIn_eq (hsize : s.size ≤ Position.limit) (x : Interval) :
    s.checkedTextIn x = some (s.textIn x) := by
  have hlo := x.lo.le_toInt
  have hlo' := x.lo.toInt_lt
  have hhi := x.hi.le_toInt
  have hhi' := x.hi.toInt_lt
  have hreach := @Position.checkedDistance_of_narrow (x.hi.toInt - x.lo.toInt) (by omega) (by omega)
  have hrequested :=
    @Position.checkedDistance_of_narrow (x.hi.toInt - x.lo.toInt + 1) (by omega) (by omega)
  have hstart : min x.lo.toInt.toNat s.size ≤ s.size := Nat.min_le_right ..
  unfold checkedTextIn textIn
  rw [hreach]
  dsimp only [bind, Option.bind]
  rw [hrequested]
  dsimp only
  split
  . rfl
  . rw [Position.checkedSub_of_le hstart]
    dsimp only
    rw [Position.checkedAdd_of_le (by omega)]
    dsimp only
    rw [Cells.checkedExtract_of_le (Nat.le_add_right ..) (by unfold size; omega)]
    rfl

/--
No request fails wherever the cursor is.
-/
theorem checkedAnswer_eq (hsize : s.size ≤ Position.limit) (request : Request) :
    s.checkedAnswer request = some (s.answer request) := by
  cases request with
  | consume =>
    unfold checkedAnswer
    rw [checkedConsume_eq hsize]
    rcases s.consume_cases with h | h
    . simp [answer, SymbolCursor.consume, h]
    . simp [answer, SymbolCursor.consume, h]
  | look i => exact congrArg (Option.map _) (s.checkedLook_eq i)
  | textIn x => exact congrArg (Option.map _) (checkedTextIn_eq hsize x)
  | text => exact congrArg (Option.map _) s.checkedText_eq
  | _ => rfl

theorem size_answer (s : CharStream) (request : Request) : (s.answer request).2.size = s.size :=
  congrArg Cells.size (s.cells_answer request)

theorem checkedAnswers_eq (hsize : s.size ≤ Position.limit) (requests : List Request) :
    s.checkedAnswers requests = some (s.answers requests) := by
  induction requests generalizing s with
  | nil => rfl
  | cons request rest ih =>
    unfold checkedAnswers answers
    rw [checkedAnswer_eq hsize]
    dsimp only [bind, Option.bind]
    rw [ih (by rw [size_answer]; exact hsize)]
    rfl

end Checked

section Ends

theorem toInt32_ne_eof {c : UInt32} (h : c.toNat < 0x110000) : c.toInt32 ≠ Symbol.eof := by
  intro heof
  have hc := toInt_toInt32 h
  rw [heof] at hc
  exact absurd hc (Int.ne_of_lt (Int.lt_of_lt_of_le (by decide) (Int.natCast_nonneg _)))

variable {b : CodeBuffer} {s : CharStream}

theorem Reachable.look_eq_eof_iff (hs : s.Reachable b) (hb : b.Built) (hsize : s.size ≤ Position.limit)
    (i : Int) :
    s.look i = Symbol.eof ↔ i ≠ 0 ∧ ¬(0 ≤ place s.cursor i ∧ place s.cursor i < s.size) := by
  by_cases hi : i = 0
  . rw [hi]
    simp [look, Symbol.invalid, Symbol.eof]
  . rw [hs.look_eq hb hsize hi]
    rcases Int.lt_or_le (place s.cursor i) 0 with hneg | hstart
    . rw [SymbolCursor.symbolAt_of_neg _ hneg]
      exact ⟨fun _ => ⟨hi, by omega⟩, fun _ => rfl⟩
    . rw [SymbolCursor.symbolAt_of_nonneg _ hstart]
      have hlength : b.unread.toList.length = s.size := by
        rw [Cells.length_toList]
        rw [← hs.cells_eq]
        rfl
      unfold CodeBuffer.symbolAt?
      rcases Nat.lt_or_ge (place s.cursor i).toNat s.size with hstop | hstop
      . rw [List.getElem?_eq_getElem (hlength ▸ hstop)]
        have hne := toInt32_ne_eof (hb.toNat_lt_of_mem_unread (List.getElem_mem (hlength ▸ hstop)))
        exact ⟨fun heof => absurd heof hne, fun hout => absurd ⟨hstart, by omega⟩ hout.2⟩
      . rw [List.getElem?_eq_none (hlength ▸ hstop)]
        exact ⟨fun _ => ⟨hi, by omega⟩, fun _ => rfl⟩

end Ends

/--
However the units come in chunks, and wherever the read position and the cursor are put, making a
buffer, reading on from it, and every request to the stream on it succeed with all steps checked, the
same as without the checks. No chunk makes the builder wider more than twice, and a high and a low
surrogate are all that is ever combined, to a code point past the basic plane. Every code point stored
is a symbol of its own number, and the end of the input is not one of them, so that a look comes to it
just outside of the text.
-/
theorem checkedAnswers_ofBuffer (chunks : List Utf16.Chunk) (positions : List Nat) (name : String)
    (hsize : (Builder.appendEach {} chunks).build.size ≤ Position.limit) :
    let whole := (Builder.appendEach {} chunks).build
    let b := positions.foldl CodeBuffer.setPosition whole
    let s := ofBuffer b name
    Builder.checkedAppendEach {} chunks = some (Builder.appendEach {} chunks) ∧
      (∀ high low c, Utf16.checkedCombine high low = some c →
        Utf16.IsHigh high ∧ Utf16.IsLow low ∧ 0x10000 ≤ c.toNat ∧ c.toNat ≤ 0x10FFFF) ∧
      (b.position ≤ b.size ∧ b.checkedRemaining = some b.remaining ∧
        b.checkedUnread = some b.unread) ∧
      (∀ requests, s.checkedAnswers requests = some (s.answers requests)) ∧
      (∀ c ∈ s.cells.toList,
        ∃ symbol, symbol? c = some symbol ∧ symbol.toInt = c.toNat ∧ symbol ≠ Symbol.eof) ∧
      ∀ (p : Nat) (i : Int),
        (s.seek p).look i = Symbol.eof ↔ i ≠ 0 ∧ ¬(0 ≤ place p i ∧ place p i < s.size) := by
  intro whole b s
  have hb : b.Built := (Builder.built_appendEach chunks).foldl_setPosition positions
  have hs : s.Reachable b := .ofBuffer name
  have hlength : s.size ≤ Position.limit := by
    calc s.size = b.remaining := b.size_unread
      _ ≤ b.size := Nat.sub_le ..
      _ = whole.size := congrArg Cells.size (whole.cells_foldl_setPosition positions)
      _ ≤ Position.limit := hsize
  refine ⟨?_, ?_, ⟨?_, ?_, ?_⟩, ?_, ?_, ?_⟩
  . exact Builder.holds_empty.checkedAppendEach_eq chunks
  . intro high low c h
    exact Utf16.pair_of_checkedCombine h
  . exact b.position_le_size
  . exact b.checkedRemaining_eq
  . exact b.checkedUnread_eq
  . intro requests
    exact checkedAnswers_eq hlength requests
  . intro c hc
    have hlt := hb.toNat_lt_of_mem_unread hc
    exact ⟨c.toInt32, symbol?_eq hlt, toInt_toInt32 hlt, toInt32_ne_eof hlt⟩
  . intro p i
    have hseek : (s.seek p).Reachable b := hs.answer (.seek p)
    exact hseek.look_eq_eof_iff hb hlength i

/--
A chunk that makes the builder wider twice and leaves a surrogate waiting beyond a refused one, with the
read position and the cursor as far out as they get.
-/
theorem checkedAnswers_ofBuffer_far_out :
    let chunks : List Utf16.Chunk :=
      [.flat [0x61, 0x20AC, 0xD83D], .scattered, .flat [0xDE00, 0xDC00]]
    let builder := Builder.appendEach {} chunks
    let b := [Position.limit, 1].foldl CodeBuffer.setPosition builder.build
    let s := ofBuffer b ""
    builder.build.size ≤ Position.limit ∧
      Builder.checkedAppendEach {} chunks = some builder ∧
      b.checkedRemaining = some 3 ∧ b.checkedUnread = some (.points #[0x20AC, 0x1F600, 0xDC00]) ∧
      s.checkedAnswers [.textIn ⟨1, Int32.maxValue⟩, .textIn ⟨Int32.maxValue, Int32.minValue⟩,
        .seek Position.limit, .look Position.offsetLimit, .look (-Position.offsetLimit - 1), .consume] =
          some [(.text "😀�", 0), (.text "", 0), (.done, Position.limit),
            (.symbol Symbol.eof, Position.limit), (.symbol Symbol.eof, Position.limit),
            (.refused .consumeEof, Position.limit)] ∧
      (s.seek 3).look 1 = Symbol.eof ∧ (s.seek 3).look (-1) ≠ Symbol.eof := by
  intro chunks builder b s
  have hsize : builder.build.size ≤ Position.limit := by decide +kernel
  obtain ⟨hmaking, -, ⟨-, hremaining, hunread⟩, hanswers, -, hends⟩ :=
    checkedAnswers_ofBuffer chunks [Position.limit, 1] "" hsize
  refine ⟨hsize, hmaking, ?_, ?_, ?_, ?_, ?_⟩
  . rw [hremaining]
    decide +kernel
  . rw [hunread]
    decide +kernel
  . rw [hanswers]
    decide +kernel
  . rw [hends]
    decide +kernel
  . rw [Ne, hends]
    decide +kernel

end CharStream

end Lookahead
