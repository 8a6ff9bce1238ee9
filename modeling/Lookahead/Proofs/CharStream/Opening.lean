import Lookahead.CharStream.Opening
import Lookahead.Proofs.CodeBuffer.Room

/-!
This module contains what it takes to open a character stream. A stream that opens is the one on the
buffer of its text, whichever room it has been opened with, and it opens wherever the room at first and
the text are not out of proportion to what an array can have.
-/

namespace Lookahead

namespace CharStream

open CodeBuffer (Allotment byteLimit)

section Open

variable {settings : CharSettings}

theorem ofAllotment?_eq {a : Allotment} {s : CharStream} (h : ofAllotment? a settings = some s) :
    s = ofBuilder a.builder settings := by
  simp only [ofAllotment?, Option.bind_eq_bind, Option.bind_eq_some_iff] at h
  obtain ⟨b, hb, h⟩ := h
  cases h
  rw [Allotment.build_of_build? hb]
  rfl

theorem ofChunks_of_ofChunks? {chunks : List Utf16.Chunk} {r : Except Fault CharStream}
    (h : ofChunks? chunks settings = some r) : r = ofChunks chunks settings := by
  simp only [ofChunks?, Option.bind_eq_bind, Option.bind_eq_some_iff] at h
  obtain ⟨a, ha, ⟨result, next⟩, hall, h⟩ := h
  have happend := Allotment.appendAll_of_appendAll? hall
  rw [Allotment.builder_of_allot? ha] at happend
  unfold ofChunks CodeBuffer.Builder.ofChunks
  rw [happend]
  cases result with
  | ok done =>
    obtain ⟨s, hs, rfl⟩ := Option.map_eq_some_iff.mp h
    rw [ofAllotment?_eq hs]
    rfl
  | error fault =>
    cases h
    rfl

end Open

/--
There is room for chunks if there would be room for four code points for each of their units, and for the
room at first, even at full width.
-/
theorem ofChunks?_eq_some {chunks : List Utf16.Chunk} {settings : CharSettings}
    (h : 4 * max (settings.initialCapacity.getD 0)
      (4 * (chunks.filterMap Utf16.Chunk.units?).flatten.length) ≤ byteLimit) :
    ofChunks? chunks settings = some (ofChunks chunks settings) := by
  let n := max (settings.initialCapacity.getD 0)
    (4 * (chunks.filterMap Utf16.Chunk.units?).flatten.length)
  obtain ⟨a, ha, hcapacity⟩ :=
    @Allotment.exists_allot? n h (settings.initialCapacity.getD 0) (Nat.le_max_left ..) {}
  have hchunks :
      4 * (a.builder.stored + (chunks.filterMap Utf16.Chunk.units?).flatten.length) ≤ n := by
    have hempty : ({} : CodeBuffer.Builder).stored = 0 := rfl
    rw [Allotment.builder_of_allot? ha]
    rw [hempty]
    rw [Nat.zero_add]
    exact Nat.le_max_right ..
  obtain ⟨result, next, hall, hroom, hstored⟩ := Allotment.exists_appendAll? h hcapacity hchunks
  have hopen : ∃ r, ofChunks? chunks settings = some r := by
    unfold ofChunks? Allotment.ofCapacity?
    rw [ha]
    dsimp only [Option.bind_eq_bind, Option.bind_some]
    rw [hall]
    cases result with
    | ok done =>
      obtain ⟨b, hb⟩ := Allotment.exists_build? h hroom hstored
      unfold ofAllotment?
      dsimp only [Option.bind_some]
      rw [hb]
      exact ⟨_, rfl⟩
    | error fault => exact ⟨_, rfl⟩
  obtain ⟨r, hr⟩ := hopen
  rw [hr]
  rw [ofChunks_of_ofChunks? hr]

end CharStream

end Lookahead
