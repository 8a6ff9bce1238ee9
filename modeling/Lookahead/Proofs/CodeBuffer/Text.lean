import Lookahead.Proofs.CodeBuffer.Chunking
import Lookahead.Proofs.Utf16.Characters

/-!
This module contains the texts of buffers. Units are read as UTF-16 and code points one by one,
which comes to the same as long as no unit opens a surrogate pair. Builders never store such a unit
at that width, so the text of a buffer that was built is the text of its code points.
-/

namespace Lookahead

namespace Cells

@[simp]
theorem extract_size (cells : Cells) : cells.extract 0 cells.size = cells := by
  cases cells <;> simp [extract, size]

/--
No unit opens a surrogate pair, so each is a code point of its own.
-/
def IsPlain : Cells → Prop
  | units a => ∀ u ∈ a.toList, ¬Utf16.IsHigh u
  | _ => True

theorem text_eq_text_toList {cells : Cells} (h : cells.IsPlain) :
    cells.text = Utf16.text cells.toList := by
  cases cells with
  | bytes a =>
    simp only [text, toList, Utf16.text, List.map_map]
    rfl
  | units a =>
    simp only [text, toList]
    rw [Utf16.decode_eq_map_of_not_isHigh h]
  | points a => rfl

theorem IsPlain.extract {cells : Cells} (h : cells.IsPlain) (start stop : Nat) :
    (cells.extract start stop).IsPlain := by
  cases cells with
  | units a =>
    intro u hu
    apply h
    rw [Array.toList_extract] at hu
    exact List.mem_of_mem_drop (List.mem_of_mem_take hu)
  | _ => trivial

theorem not_isHigh_toUInt16 (b : UInt8) : ¬Utf16.IsHigh b.toUInt16 := by
  have hb := b.toNat_lt
  rw [Utf16.isHigh_iff]
  rw [UInt8.toNat_toUInt16]
  omega

theorem IsPlain.widen {cells : Cells} (h : cells.IsPlain) (w : Width) :
    (cells.widen w).IsPlain := by
  cases cells with
  | bytes a =>
    cases w with
    | unit =>
      intro u hu
      rw [Array.toList_map] at hu
      rcases List.mem_map.mp hu with ⟨b, -, rfl⟩
      exact not_isHigh_toUInt16 b
    | _ => trivial
  | units a =>
    cases w with
    | point => trivial
    | _ => exact h
  | points a => trivial

end Cells

namespace CodeBuffer

namespace Builder

theorem isPlain_widen {b : Builder} (h : b.cells.IsPlain) (w : Width) :
    (b.widen w).cells.IsPlain := by
  unfold widen
  split
  . exact h.widen w
  . exact h

theorem isPlain_store {b : Builder} (h : b.cells.IsPlain) {u : UInt16}
    (hu : Width.needed u ≤ b.width) : (b.store u).cells.IsPlain := by
  unfold store
  cases hb : b.cells with
  | units a =>
    rw [hb] at h
    have hw : b.width = .unit := by simp [width, hb, Cells.width]
    rw [hw] at hu
    rw [Width.needed_le_unit_iff] at hu
    intro v hv
    rw [Array.toList_push] at hv
    rcases List.mem_append.mp hv with hv | hv
    . exact h v hv
    . rw [List.mem_singleton] at hv
      rwa [hv]
  | _ => trivial

theorem isPlain_pushAll {b : Builder} (h : b.cells.IsPlain) (units : List UInt16) :
    (b.pushAll units).cells.IsPlain := by
  induction units generalizing b with
  | nil => exact h
  | cons u rest ih =>
    apply ih
    apply isPlain_store
    . exact isPlain_widen h _
    . apply le_width_widen

theorem isPlain_build {b : Builder} (h : b.cells.IsPlain) : b.build.cells.IsPlain := by
  change b.close.cells.IsPlain
  unfold close
  split
  . trivial
  . exact h

theorem isPlain_build_pushAll (units : List UInt16) :
    (pushAll {} units).build.cells.IsPlain := by
  apply isPlain_build
  apply isPlain_pushAll
  trivial

end Builder

/--
The buffers that can be had: those built of chunks, with the read position moved anywhere.
-/
inductive Built : CodeBuffer → Prop where
  | build {chunks : List Utf16.Chunk} {b : Builder} :
    Builder.ofChunks chunks = .ok b → Built b.build
  | setPosition {b : CodeBuffer} (p : Nat) : Built b → Built (b.setPosition p)

theorem Built.isPlain {b : CodeBuffer} (h : b.Built) : b.cells.IsPlain := by
  induction h with
  | build hb =>
    obtain ⟨units, rfl⟩ := Builder.exists_pushAll_of_ofChunks hb
    apply Builder.isPlain_build_pushAll
  | setPosition p _ ih => exact ih

theorem Built.exists_decode {b : CodeBuffer} (h : b.Built) :
    ∃ units, b.cells.toList = Utf16.decode units := by
  induction h with
  | build hb =>
    obtain ⟨units, rfl⟩ := Builder.exists_pushAll_of_ofChunks hb
    exact ⟨units, Builder.toList_build_pushAll units⟩
  | setPosition p _ ih => exact ih

theorem Built.toNat_lt_of_mem_unread {b : CodeBuffer} (h : b.Built) {c : UInt32}
    (hc : c ∈ b.unread.toList) : c.toNat < 0x110000 := by
  obtain ⟨units, hunits⟩ := h.exists_decode
  unfold unread at hc
  rw [Cells.toList_extract] at hc
  rw [hunits] at hc
  exact Utf16.toNat_lt_of_mem_decode (List.mem_of_mem_drop (List.mem_of_mem_take hc))

end CodeBuffer

end Lookahead
