import Lookahead.Proofs.CharStream.Opening
import Lookahead.Proofs.CharStream.Text
import Lookahead.Proofs.Utf16.Queue

/-!
This module contains what becomes of a text when some of its chunks are refused. A chunk that does
not lie in one piece leaves no trace in a builder, so the others make the same buffer as they do by
themselves; a stream on such chunks is refused as a whole.
-/

namespace Lookahead

namespace Utf16

namespace Chunk

/--
The units of a chunk, whether or not they can be taken from it.
-/
def contents : Chunk → List UInt16
  | flat units => units
  | ring r => r.toList
  | scattered => []

/--
The units lie in one piece: if they are in a ring, there are none past its last slot.
-/
def InOnePiece : Chunk → Prop
  | flat _ => True
  | ring r => r.back = []
  | scattered => False

instance : DecidablePred InOnePiece
  | flat _ => inferInstanceAs (Decidable True)
  | ring r => inferInstanceAs (Decidable (r.back = []))
  | scattered => inferInstanceAs (Decidable False)

/--
The chunks that can be had: a ring is what edits within its capacity have made of it.
-/
def Valid : Chunk → Prop
  | ring r => ∃ capacity edits, Ring.Fits capacity edits ∧ Ring.ofEdits capacity edits = r
  | _ => True

theorem Valid.units?_eq {c : Chunk} (h : c.Valid) :
    c.units? = if c.InOnePiece then some c.contents else none := by
  cases c with
  | flat units => rfl
  | ring r =>
    obtain ⟨capacity, edits, hfits, rfl⟩ := h
    have hring := Ring.represents_ofEdits hfits
    change (Ring.ofEdits capacity edits).flat? =
      if (Ring.ofEdits capacity edits).back = [] then some (Ring.ofEdits capacity edits).toList
      else none
    rw [hring.toList_eq]
    exact hring.flat?_eq
  | scattered => rfl

theorem map_units?_eq {chunks : List Chunk} (h : ∀ c ∈ chunks, c.Valid)
    (hpiece : ∀ c ∈ chunks, c.InOnePiece) :
    chunks.map units? = (chunks.map contents).map some := by
  rw [List.map_map]
  apply List.map_congr_left
  intro c hc
  rw [(h c hc).units?_eq]
  rw [if_pos (hpiece c hc)]
  rfl

theorem filterMap_units?_eq {chunks : List Chunk} (h : ∀ c ∈ chunks, c.Valid) :
    chunks.filterMap units? = (chunks.filter InOnePiece).map contents := by
  induction chunks with
  | nil => rfl
  | cons c rest ih =>
    have hrest := ih fun c hc => h c (List.mem_cons_of_mem _ hc)
    rw [List.filterMap_cons]
    rw [(h c List.mem_cons_self).units?_eq]
    rw [List.filter_cons]
    by_cases hpiece : c.InOnePiece <;> simp [hpiece, hrest]

end Chunk

end Utf16

namespace CodeBuffer

namespace Builder

open Utf16 (Chunk)

/--
Add chunks one after the other, and go on as if nothing had happened when one is refused.
-/
def appendEach (b : Builder) : List Chunk → Builder
  | [] => b
  | chunk :: rest => (b.append chunk).2.appendEach rest

/--
The units of those chunks that are not refused.
-/
def received (chunks : List Chunk) : List UInt16 := (chunks.filterMap Chunk.units?).flatten

theorem appendEach_eq_pushAll (b : Builder) (chunks : List Chunk) :
    b.appendEach chunks = b.pushAll (received chunks) := by
  induction chunks generalizing b with
  | nil => rfl
  | cons chunk rest ih =>
    unfold appendEach append received
    rw [List.filterMap_cons]
    cases chunk.units? with
    | none => exact ih b
    | some units =>
      dsimp only
      rw [List.flatten_cons]
      rw [pushAll_append]
      exact ih (b.pushAll units)

theorem holds_appendEach (chunks : List Chunk) :
    (appendEach {} chunks).Holds (received chunks) := by
  rw [appendEach_eq_pushAll]
  exact holds_empty.pushAll _

theorem built_appendEach (chunks : List Chunk) : (appendEach {} chunks).build.Built := by
  rw [appendEach_eq_pushAll]
  exact .build (ofChunks_flat _)

theorem appendAll_fst_of_none {chunks : List Chunk} {c : Chunk} (hc : c ∈ chunks)
    (hnone : c.units? = none) (b : Builder) :
    (b.appendAll chunks).1 = .error .notContiguous := by
  induction chunks generalizing b with
  | nil => contradiction
  | cons chunk rest ih =>
    unfold appendAll append
    cases hunits : chunk.units? with
    | none => rfl
    | some units =>
      have hrest : c ∈ rest := by
        rcases List.mem_cons.mp hc with rfl | hrest
        . rw [hnone] at hunits
          contradiction
        . exact hrest
      exact ih hrest (b.pushAll units)

theorem ofChunks_of_none {chunks : List Chunk} {c : Chunk} (hc : c ∈ chunks)
    (hnone : c.units? = none) : ofChunks chunks = .error .notContiguous := by
  have hrefused := appendAll_fst_of_none hc hnone {}
  unfold ofChunks
  split
  . next hall =>
    rw [hall] at hrefused
    contradiction
  . next hall =>
    rw [hall] at hrefused
    cases hrefused
    rfl

section Valid

variable {chunks : List Chunk} (h : ∀ c ∈ chunks, c.Valid)

include h

theorem append_eq_ite (b : Builder) {c : Chunk} (hc : c ∈ chunks) :
    b.append c =
      if c.InOnePiece then (.ok (), b.pushAll c.contents) else (.error .notContiguous, b) := by
  unfold append
  rw [(h c hc).units?_eq]
  by_cases hpiece : c.InOnePiece
  . rw [if_pos hpiece, if_pos hpiece]
  . rw [if_neg hpiece, if_neg hpiece]

theorem received_eq_flatMap :
    received chunks = (chunks.filter Chunk.InOnePiece).flatMap Chunk.contents := by
  unfold received
  rw [Chunk.filterMap_units?_eq h]
  rw [List.flatMap_def]

theorem ofChunks_filter :
    ofChunks (chunks.filter Chunk.InOnePiece) = .ok (appendEach {} chunks) := by
  have hvalid : ∀ c ∈ chunks.filter Chunk.InOnePiece, c.Valid := by
    intro c hc
    exact h c (List.mem_filter.mp hc).1
  have hpiece : ∀ c ∈ chunks.filter Chunk.InOnePiece, c.InOnePiece := by
    intro c hc
    exact of_decide_eq_true (List.mem_filter.mp hc).2
  rw [ofChunks_eq_pushAll (Chunk.map_units?_eq hvalid hpiece)]
  rw [appendEach_eq_pushAll]
  rw [received_eq_flatMap h]
  rfl

end Valid

open CharStream (ofBuilder)

section Stream

variable {chunks : List Chunk} (h : ∀ c ∈ chunks, c.Valid)

include h

theorem appendEach_of_inOnePiece (hpiece : ∀ c ∈ chunks, c.InOnePiece) :
    appendEach {} chunks = pushAll {} (chunks.flatMap Chunk.contents) := by
  have hfilter : chunks.filter Chunk.InOnePiece = chunks := by
    rw [List.filter_eq_self]
    intro c hc
    exact decide_eq_true (hpiece c hc)
  rw [appendEach_eq_pushAll]
  rw [received_eq_flatMap h]
  rw [hfilter]

/--
The stream on chunks in one piece is the one on the builder that they have been added to.
-/
theorem ofChunks_of_inOnePiece (hpiece : ∀ c ∈ chunks, c.InOnePiece) (settings : CharSettings) :
    CharStream.ofChunks chunks settings = .ok (ofBuilder (appendEach {} chunks) settings) := by
  unfold CharStream.ofChunks
  rw [ofChunks_eq_pushAll (Chunk.map_units?_eq h hpiece)]
  rw [appendEach_of_inOnePiece h hpiece]
  rw [← List.flatMap_def]
  rfl

theorem ofChunks_of_not_inOnePiece (hpiece : ∃ c ∈ chunks, ¬c.InOnePiece) (settings : CharSettings) :
    CharStream.ofChunks chunks settings = .error .notContiguous := by
  obtain ⟨c, hc, hpiece⟩ := hpiece
  have hnone := (h c hc).units?_eq
  rw [if_neg hpiece] at hnone
  unfold CharStream.ofChunks
  rw [ofChunks_of_none hc hnone]
  rfl

end Stream

/--
Chunks that are refused are as good as not there. A builder refuses just those that do not lie in one
piece. However many chunks it has been given, it is the builder of the others among them, in what it
stores, at which width, with which surrogate waiting and with which journal, so that pairs are merged
over a refused chunk. A stream is refused if any chunk is. If none is it is the stream on all their units
at once, which holds the code points of these units and stands before the first one. That is so whenever
there is room for it, as there is unless the room at first or the text is out of proportion. A ring
brings the contents of the queue that it stands for, both halves in order, of which there is a second
one only past the last slot.
-/
theorem refused_leave_no_trace {chunks : List Chunk} (h : ∀ c ∈ chunks, c.Valid)
    (settings : CharSettings) :
    (∀ c ∈ chunks, ∀ b : Builder,
      b.append c =
        if c.InOnePiece then (.ok (), b.pushAll c.contents) else (.error .notContiguous, b)) ∧
      (∀ k, ofChunks ((chunks.take k).filter Chunk.InOnePiece) =
        .ok (appendEach {} (chunks.take k))) ∧
      (appendEach {} chunks).build.cells.toList =
        Utf16.decode ((chunks.filter Chunk.InOnePiece).flatMap Chunk.contents) ∧
      ((∃ c ∈ chunks, ¬c.InOnePiece) →
        CharStream.ofChunks chunks settings = .error .notContiguous) ∧
      ((∀ c ∈ chunks, c.InOnePiece) →
        ∃ s, CharStream.ofChunks chunks settings = .ok s ∧
          CharStream.ofChunk (.flat (chunks.flatMap Chunk.contents)) settings = .ok s ∧
          s.cells = (appendEach {} chunks).build.cells ∧
          s.cells.toList = Utf16.decode (chunks.flatMap Chunk.contents) ∧
          s.cursor = 0 ∧ s.name = settings.sourceName.getD "") ∧
      (∀ r, CharStream.ofChunks? chunks settings = some r →
        r = CharStream.ofChunks chunks settings) ∧
      (4 * max (settings.initialCapacity.getD 0) (4 * (received chunks).length) ≤ byteLimit →
        CharStream.ofChunks? chunks settings = some (CharStream.ofChunks chunks settings)) ∧
      ∀ capacity edits, Utf16.Ring.Fits capacity edits →
        let r := Utf16.Ring.ofEdits capacity edits
        r.front ++ r.back = Utf16.Ring.contents edits ∧
          (r.back = [] ↔ r.head + r.length ≤ r.capacity) := by
  refine ⟨?_, ?_, ?_, ?_, ?_, ?_, ?_, ?_⟩
  . intro c hc b
    exact append_eq_ite h b hc
  . intro k
    apply ofChunks_filter
    intro c hc
    exact h c (List.mem_of_mem_take hc)
  . rw [(holds_appendEach chunks).toList_build]
    rw [received_eq_flatMap h]
  . intro hpiece
    exact ofChunks_of_not_inOnePiece h hpiece settings
  . intro hpiece
    have hcells := CharStream.cells_ofBuilder (appendEach {} chunks) settings
    refine ⟨_, ofChunks_of_inOnePiece h hpiece settings, ?_, hcells, ?_, rfl, rfl⟩
    . rw [appendEach_of_inOnePiece h hpiece]
      rfl
    . rw [hcells]
      rw [appendEach_of_inOnePiece h hpiece]
      apply toList_build_pushAll
  . intro r hr
    exact CharStream.ofChunks_of_ofChunks? hr
  . intro hroom
    exact CharStream.ofChunks?_eq_some hroom
  . intro capacity edits hfits
    have hring := Utf16.Ring.represents_ofEdits hfits
    exact ⟨hring.toList_eq, hring.back_eq_nil_iff⟩

theorem refused_leave_no_trace_between_pair :
    let wrapped : List Utf16.Ring.Edit := [.pushFront 0x62, .pushBack 0x63]
    let emptied : List Utf16.Ring.Edit := [.pushBack 0x62, .popFront, .popBack, .pushBack 0xDE00]
    let chunks : List Chunk := [.flat [0x61, 0xD83D], .ring (.ofEdits 2 wrapped), .scattered,
      .ring (.ofEdits 2 emptied)]
    let others : List Chunk := [.flat [0x61, 0xD83D], .ring (.ofEdits 2 emptied)]
    (∀ c ∈ chunks, c.Valid) ∧
      ({} : Builder).append (.ring (.ofEdits 2 wrapped)) = (.error .notContiguous, {}) ∧
      ofChunks others = .ok (appendEach {} chunks) ∧
      (appendEach {} chunks).build.cells.toList = [0x61, 0x1F600] ∧
      CharStream.ofChunks? chunks {} = some (.error .notContiguous) ∧
      (∃ s, CharStream.ofChunks? others { initialCapacity := some 1 } = some (.ok s) ∧
        s.cells.toList = [0x61, 0x1F600]) ∧
      Utf16.Ring.Fits 2 wrapped ∧ Utf16.Ring.contents wrapped = [0x62, 0x63] ∧
      (Utf16.Ring.ofEdits 2 wrapped).front ++ (Utf16.Ring.ofEdits 2 wrapped).back =
        Utf16.Ring.contents wrapped := by
  intro wrapped emptied chunks others
  have hwrapped : Utf16.Ring.Fits 2 wrapped := by decide
  have hemptied : Utf16.Ring.Fits 2 emptied := by decide
  have h : ∀ c ∈ chunks, c.Valid := by
    intro c hc
    simp only [chunks, List.mem_cons, List.not_mem_nil, or_false] at hc
    rcases hc with rfl | rfl | rfl | rfl
    . trivial
    . exact ⟨2, wrapped, hwrapped, rfl⟩
    . trivial
    . exact ⟨2, emptied, hemptied, rfl⟩
  have hothers : ∀ c ∈ others, c.Valid := by
    intro c hc
    apply h
    simp only [others, List.mem_cons, List.not_mem_nil, or_false] at hc
    rcases hc with rfl | rfl <;> simp [chunks]
  obtain ⟨happend, htake, hlist, hrefused, -, -, hroom, hrings⟩ := refused_leave_no_trace h {}
  obtain ⟨-, -, -, -, hopen, -, hroom', -⟩ :=
    refused_leave_no_trace hothers { initialCapacity := some 1 }
  refine ⟨h, ?_, ?_, ?_, ?_, ?_, hwrapped, by decide, ?_⟩
  . exact happend (.ring (.ofEdits 2 wrapped)) (by simp [chunks]) {}
  . exact htake 4
  . rw [hlist]
    decide
  . rw [hroom (by decide)]
    rw [hrefused ⟨.scattered, by simp [chunks], by decide⟩]
  . obtain ⟨s, hs, -, -, hpoints, -⟩ := hopen (by decide)
    refine ⟨s, ?_, ?_⟩
    . rw [hroom' (by decide)]
      rw [hs]
    . rw [hpoints]
      decide
  . exact (hrings 2 wrapped hwrapped).1

end Builder

end CodeBuffer

end Lookahead
