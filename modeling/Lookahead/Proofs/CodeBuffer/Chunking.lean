import Lookahead.CodeBuffer.Builder
import Lookahead.Proofs.Utf16.RoundTrip

/-!
This module contains what builders make of the units they are given. A builder stands between units
and code points: what it stores, with the surrogate that waits in front of the units still to come,
is read as all of the units would be. That holds at each width and carries over from one chunk to the
next, so a buffer does not depend on the chunks its text arrived in.
-/

namespace Lookahead

namespace Width

theorem le_iff_bits_le {v w : Width} : v ≤ w ↔ v.bits ≤ w.bits := Iff.rfl

theorem lt_iff_bits_lt {v w : Width} : v < w ↔ v.bits < w.bits := Iff.rfl

theorem needed_le_byte_iff {u : UInt16} : needed u ≤ byte ↔ ¬Utf16.IsHigh u ∧ u ≤ 0xFF := by
  rw [le_iff_bits_le]
  unfold needed
  split
  . next h => simp [h, bits]
  . next h =>
    split
    . next hu => simp [h, hu, bits]
    . next hu => simpa [h, bits] using hu

theorem needed_le_unit_iff {u : UInt16} : needed u ≤ unit ↔ ¬Utf16.IsHigh u := by
  rw [le_iff_bits_le]
  unfold needed
  split
  . next h => simp [h, bits]
  . next h => split <;> simp [h, bits]

end Width

namespace CodeBuffer

namespace Builder

/--
What is stored, with the high surrogate that waits in front of what follows, is read as `units` are.
Only at full width does a surrogate wait.
-/
structure Holds (b : Builder) (units : List UInt16) : Prop where
  decode_append : ∀ rest, Utf16.decode (units ++ rest) =
    b.cells.toList ++ Utf16.decode (b.pending.toList ++ rest)
  isHigh_of_pending : ∀ u, b.pending = some u → Utf16.IsHigh u
  width_of_pending : ∀ u, b.pending = some u → b.width = .point

theorem holds_empty : Holds {} [] := by
  constructor <;> simp [Cells.empty, Cells.toList]

section Widen

@[simp]
theorem toList_cells_widen (b : Builder) (w : Width) :
    (b.widen w).cells.toList = b.cells.toList := by
  unfold widen
  split
  . simp
  . rfl

@[simp]
theorem pending_widen (b : Builder) (w : Width) : (b.widen w).pending = b.pending := by
  unfold widen
  split <;> rfl

theorem width_widen (b : Builder) (w : Width) :
    (b.widen w).width = if b.width < w then w else b.width := by
  unfold widen
  split
  . next h =>
    rw [Width.lt_iff_bits_lt] at h
    unfold width at h ⊢
    cases hb : b.cells <;> cases w <;> simp_all [Cells.widen, Cells.width, Width.bits]
  . rfl

theorem le_width_widen (b : Builder) (w : Width) : w ≤ (b.widen w).width := by
  rw [width_widen]
  split
  . exact Nat.le_refl _
  . next h => exact Nat.le_of_not_lt h

end Widen

theorem Holds.widen {b : Builder} {units : List UInt16} (h : b.Holds units) (w : Width) :
    (b.widen w).Holds units where
  decode_append := by simpa using h.decode_append
  isHigh_of_pending := by simpa using h.isHigh_of_pending
  width_of_pending := by
    intro u hu
    rw [pending_widen] at hu
    rw [width_widen]
    rw [h.width_of_pending u hu]
    cases w <;> rfl

section Store

theorem pushMerging.decode_pushFresh (points : Array UInt32) (u : UInt16) (rest : List UInt16) :
    (pushFresh points u).1.toList ++ Utf16.decode ((pushFresh points u).2.toList ++ rest) =
      points.toList ++ Utf16.decode (u :: rest) := by
  unfold pushFresh
  split
  . rfl
  . next h =>
    rw [Utf16.decode_cons_of_not_isHigh h]
    simp

theorem pushMerging.isHigh_pushFresh {points : Array UInt32} {u v : UInt16}
    (h : (pushFresh points u).2 = some v) : Utf16.IsHigh v := by
  unfold pushFresh at h
  split at h
  . next hu =>
    rw [Option.some.injEq] at h
    rwa [← h]
  . contradiction

theorem decode_pushMerging (points : Array UInt32) {pending : Option UInt16}
    (hp : ∀ v, pending = some v → Utf16.IsHigh v) (u : UInt16) (rest : List UInt16) :
    (pushMerging points pending u).1.toList ++
        Utf16.decode ((pushMerging points pending u).2.toList ++ rest) =
      points.toList ++ Utf16.decode (pending.toList ++ u :: rest) := by
  unfold pushMerging
  cases pending with
  | none => apply pushMerging.decode_pushFresh
  | some high =>
    dsimp only
    split
    . next hu =>
      rw [Option.toList_some]
      rw [List.singleton_append]
      rw [Utf16.decode_cons_cons_of_isLow (hp high rfl) hu]
      simp
    . next hu =>
      rw [pushMerging.decode_pushFresh]
      rw [Option.toList_some]
      rw [List.singleton_append]
      rw [Utf16.decode_cons_cons_of_not_isLow hu]
      simp

theorem isHigh_pushMerging {points : Array UInt32} {pending : Option UInt16} {u v : UInt16}
    (h : (pushMerging points pending u).2 = some v) : Utf16.IsHigh v := by
  unfold pushMerging at h
  split at h
  . split at h
    . contradiction
    . exact pushMerging.isHigh_pushFresh h
  . exact pushMerging.isHigh_pushFresh h

theorem width_store (b : Builder) (u : UInt16) : (b.store u).width = b.width := by
  unfold store width
  split <;> simp_all [Cells.width]

theorem toUInt32_toUInt8 {u : UInt16} (h : u ≤ 0xFF) : u.toUInt8.toUInt32 = u.toUInt32 := by
  apply UInt32.toNat_inj.mp
  rw [UInt16.le_iff_toNat_le] at h
  simp at h ⊢
  omega

end Store

theorem Holds.pending_eq_none {b : Builder} {units : List UInt16} (h : b.Holds units)
    (hw : b.width ≠ .point) : b.pending = none := by
  cases hp : b.pending with
  | none => rfl
  | some u => exact absurd (h.width_of_pending u hp) hw

theorem Holds.store {b : Builder} {units : List UInt16} (h : b.Holds units) {u : UInt16}
    (hu : Width.needed u ≤ b.width) : (b.store u).Holds (units ++ [u]) := by
  have hdecode := fun rest => h.decode_append (u :: rest)
  -- At the two narrow widths nothing waits and the unit is a code point of its own.
  cases hb : b.cells with
  | bytes a =>
    have hw : b.width = .byte := by simp [width, hb, Cells.width]
    have hp := h.pending_eq_none (by simp [hw])
    rw [hw] at hu
    rw [Width.needed_le_byte_iff] at hu
    constructor
    . intro rest
      rw [List.append_assoc]
      rw [List.singleton_append]
      rw [hdecode]
      simp [Builder.store, hb, hp, Cells.toList, toUInt32_toUInt8 hu.2,
        Utf16.decode_cons_of_not_isHigh hu.1]
    . simp [Builder.store, hb, hp]
    . simp [Builder.store, hb, hp]
  | units a =>
    have hw : b.width = .unit := by simp [width, hb, Cells.width]
    have hp := h.pending_eq_none (by simp [hw])
    rw [hw] at hu
    rw [Width.needed_le_unit_iff] at hu
    constructor
    . intro rest
      rw [List.append_assoc]
      rw [List.singleton_append]
      rw [hdecode]
      simp [Builder.store, hb, hp, Cells.toList, Utf16.decode_cons_of_not_isHigh hu]
    . simp [Builder.store, hb, hp]
    . simp [Builder.store, hb, hp]
  | points a =>
    constructor
    . intro rest
      rw [List.append_assoc]
      rw [List.singleton_append]
      rw [hdecode]
      simp [Builder.store, hb, Cells.toList, decode_pushMerging a h.isHigh_of_pending]
    . intro v hv
      simp only [Builder.store, hb] at hv
      exact isHigh_pushMerging hv
    . intro v hv
      rw [width_store]
      simp [width, hb, Cells.width]

theorem Holds.push {b : Builder} {units : List UInt16} (h : b.Holds units) (u : UInt16) :
    (b.push u).Holds (units ++ [u]) := by
  unfold Builder.push
  apply Holds.store
  . exact h.widen _
  . apply le_width_widen

theorem Holds.pushAll {b : Builder} {units : List UInt16} (h : b.Holds units)
    (more : List UInt16) : (b.pushAll more).Holds (units ++ more) := by
  induction more generalizing b units with
  | nil => simpa [Builder.pushAll] using h
  | cons u more ih =>
    have := ih (h.push u)
    rw [List.append_assoc] at this
    exact this

/--
A surrogate that waits at the end of the text is a code point of its own.
-/
theorem Holds.toList_build_eq_append {b : Builder} {units : List UInt16} (h : b.Holds units) :
    b.build.cells.toList = b.cells.toList ++ b.pending.toList.map UInt16.toUInt32 := by
  change b.close.cells.toList = _
  unfold close
  cases hp : b.pending with
  | none => cases b.cells <;> simp
  | some u =>
    have hw := h.width_of_pending u hp
    cases hb : b.cells with
    | points a => simp [Cells.toList]
    | _ => simp [width, hb, Cells.width] at hw

theorem Holds.toList_build {b : Builder} {units : List UInt16} (h : b.Holds units) :
    b.build.cells.toList = Utf16.decode units := by
  have hdecode := h.decode_append []
  rw [List.append_nil] at hdecode
  rw [List.append_nil] at hdecode
  rw [hdecode]
  rw [h.toList_build_eq_append]
  cases b.pending <;> rfl

theorem toList_build_pushAll (units : List UInt16) :
    (pushAll {} units).build.cells.toList = Utf16.decode units :=
  (holds_empty.pushAll units).toList_build

section Chunks

open Utf16 (Chunk)

/--
Chunks in one piece are taken like one chunk of all their units.
-/
theorem appendAll_eq_pushAll {chunks : List Chunk} {units : List (List UInt16)}
    (h : chunks.map Chunk.units? = units.map some) (b : Builder) :
    b.appendAll chunks = (.ok (), b.pushAll units.flatten) := by
  induction chunks generalizing units b with
  | nil =>
    rw [List.map_nil] at h
    rw [List.map_eq_nil_iff.mp h.symm]
    rfl
  | cons chunk rest ih =>
    cases units with
    | nil => simp at h
    | cons us units =>
      simp only [List.map_cons, List.cons.injEq] at h
      have happend : b.append chunk = (.ok (), b.pushAll us) := by
        unfold append
        rw [h.1]
      unfold appendAll
      rw [happend]
      rw [List.flatten_cons]
      rw [pushAll_append]
      exact ih h.2 (b.pushAll us)

theorem ofChunks_eq_pushAll {chunks : List Chunk} {units : List (List UInt16)}
    (h : chunks.map Chunk.units? = units.map some) :
    ofChunks chunks = .ok (pushAll {} units.flatten) := by
  unfold ofChunks
  rw [appendAll_eq_pushAll h]

theorem ofChunks_flat (units : List UInt16) : ofChunks [.flat units] = .ok (pushAll {} units) := rfl

theorem exists_pushAll_eq_appendAll (b : Builder) (chunks : List Chunk) :
    ∃ units, (b.appendAll chunks).2 = b.pushAll units := by
  induction chunks generalizing b with
  | nil => exact ⟨[], rfl⟩
  | cons chunk rest ih =>
    unfold appendAll append
    cases chunk.units? with
    | none => exact ⟨[], rfl⟩
    | some us =>
      obtain ⟨more, hmore⟩ := ih (b.pushAll us)
      refine ⟨us ++ more, ?_⟩
      rw [pushAll_append]
      exact hmore

theorem exists_pushAll_of_ofChunks {chunks : List Chunk} {b : Builder} (h : ofChunks chunks = .ok b) :
    ∃ units, b = pushAll {} units := by
  obtain ⟨units, hunits⟩ := exists_pushAll_eq_appendAll {} chunks
  refine ⟨units, ?_⟩
  rw [← hunits]
  unfold ofChunks at h
  split at h
  . next hall =>
    cases h
    rw [hall]
  . contradiction

end Chunks

/--
Chunks in one piece make a buffer of the code points of all their units. It gives the units back,
has no pair of surrogates left in it, and equals the buffer of other chunks just if those bring the
same units.
-/
theorem build_ofChunks {chunks : List Utf16.Chunk} {units : List (List UInt16)}
    (h : chunks.map Utf16.Chunk.units? = units.map some) :
    ∃ b, ofChunks chunks = .ok b ∧
      b.build.cells.toList = Utf16.decode units.flatten ∧
      Utf16.encode b.build.cells.toList = units.flatten ∧
      (∀ high low, Utf16.IsHigh high → Utf16.IsLow low →
        ¬[high.toUInt32, low.toUInt32] <:+: b.build.cells.toList) ∧
      ∀ (chunks' : List Utf16.Chunk) (units' : List (List UInt16)),
        chunks'.map Utf16.Chunk.units? = units'.map some →
        ∃ b', ofChunks chunks' = .ok b' ∧
          (b'.build = b.build ↔ units'.flatten = units.flatten) := by
  have hlist := toList_build_pushAll units.flatten
  refine ⟨pushAll {} units.flatten, ofChunks_eq_pushAll h, hlist, ?_, ?_, ?_⟩
  . rw [hlist]
    apply Utf16.encode_decode
  . intro high low hh hl
    rw [hlist]
    exact Utf16.not_isInfix_decode hh hl _
  . intro chunks' units' h'
    refine ⟨pushAll {} units'.flatten, ofChunks_eq_pushAll h', ?_, ?_⟩
    . intro heq
      apply Utf16.decode_injective
      rw [← hlist]
      rw [← toList_build_pushAll units'.flatten]
      rw [heq]
    . intro heq
      rw [heq]

theorem build_ofChunks_split_pair :
    ([.flat [0x61, 0xD83D], .flat [], .ring ⟨#[0xD800, 0xDE00], 1, 1⟩, .flat [0xD800]] :
        List Utf16.Chunk).map Utf16.Chunk.units? = [[0x61, 0xD83D], [], [0xDE00], [0xD800]].map some ∧
      ∃ b, ofChunks [.flat [0x61, 0xD83D], .flat [], .ring ⟨#[0xD800, 0xDE00], 1, 1⟩,
          .flat [0xD800]] = .ok b ∧
        b.build.cells.toList = [0x61, 0x1F600, 0xD800] := by
  have hunits : ([.flat [0x61, 0xD83D], .flat [], .ring ⟨#[0xD800, 0xDE00], 1, 1⟩,
      .flat [0xD800]] : List Utf16.Chunk).map Utf16.Chunk.units? =
      [[0x61, 0xD83D], [], [0xDE00], [0xD800]].map some := by decide
  obtain ⟨b, hb, hlist, -⟩ := build_ofChunks hunits
  refine ⟨hunits, b, hb, ?_⟩
  rw [hlist]
  decide

end Builder

end CodeBuffer

end Lookahead
