import Lookahead.CodeBuffer.Room
import Lookahead.Proofs.CodeBuffer.Chunking

/-!
This module contains what the room for code points has to do with the code points, which is nothing as
long as there is some: an allotment that has not run out holds the same builder as if none had been
asked for. How much is asked for is bounded by the room at first and the number of units, and so is
whether there is any.
-/

namespace Lookahead

namespace Width

theorem bytes_le_four (w : Width) : w.bytes ≤ 4 := by
  cases w <;> decide

theorem mul_bytes_le (w : Width) (count : Nat) : count * w.bytes ≤ 4 * count := by
  rw [Nat.mul_comm]
  exact Nat.mul_le_mul_right _ w.bytes_le_four

end Width

namespace CodeBuffer

theorem ceilPowerOfTwo_le {n : Nat} (h : 0 < n) : ceilPowerOfTwo n ≤ 2 * n := by
  unfold ceilPowerOfTwo
  split
  . omega
  . have hle : 2 ^ (n - 1).log2 ≤ n - 1 := Nat.log2_self_le (by omega)
    rw [Nat.one_shiftLeft]
    rw [Nat.pow_succ]
    omega

namespace Builder

/--
The number of code points if no unit comes any more, with the surrogate that waits among them.
-/
def stored (b : Builder) : Nat := b.cells.size + b.pending.toList.length

theorem size_cells_le_stored (b : Builder) : b.cells.size ≤ b.stored := Nat.le_add_right ..

theorem size_cells_widen (b : Builder) (w : Width) : (b.widen w).cells.size = b.cells.size := by
  rw [← Cells.length_toList]
  rw [← Cells.length_toList]
  rw [toList_cells_widen]

theorem stored_widen (b : Builder) (w : Width) : (b.widen w).stored = b.stored := by
  unfold stored
  rw [size_cells_widen]
  rw [pending_widen]

theorem size_pushFresh_le (points : Array UInt32) (u : UInt16) :
    (pushMerging.pushFresh points u).1.size + (pushMerging.pushFresh points u).2.toList.length ≤
      points.size + 1 := by
  unfold pushMerging.pushFresh
  split <;> simp

theorem size_pushMerging_le (points : Array UInt32) (pending : Option UInt16) (u : UInt16) :
    (pushMerging points pending u).1.size + (pushMerging points pending u).2.toList.length ≤
      points.size + pending.toList.length + 1 := by
  unfold pushMerging
  cases pending with
  | none => apply size_pushFresh_le
  | some high =>
    dsimp only
    split
    . simp
    . have hfresh := size_pushFresh_le (points.push high.toUInt32) u
      rw [Array.size_push] at hfresh
      exact hfresh

/--
A unit makes for one more code point at most.
-/
theorem stored_store_le (b : Builder) (u : UInt16) : (b.store u).stored ≤ b.stored + 1 := by
  unfold store stored
  split
  . next hb =>
    rw [hb]
    simp only [Cells.size, Array.size_push]
    omega
  . next hb =>
    rw [hb]
    simp only [Cells.size, Array.size_push]
    omega
  . next hb =>
    rw [hb]
    apply size_pushMerging_le

theorem stored_push_le (b : Builder) (u : UInt16) : (b.push u).stored ≤ b.stored + 1 := by
  have hstore := stored_store_le (b.widen (.needed u)) u
  rw [stored_widen] at hstore
  exact hstore

theorem stored_pushAll_le (b : Builder) (units : List UInt16) :
    (b.pushAll units).stored ≤ b.stored + units.length := by
  induction units generalizing b with
  | nil => exact Nat.le_refl _
  | cons u rest ih =>
    have hrest := ih (b.push u)
    have hpush := b.stored_push_le u
    change ((b.push u).pushAll rest).stored ≤ b.stored + (rest.length + 1)
    omega

theorem size_close_le (b : Builder) : b.close.cells.size ≤ b.stored := by
  unfold close stored
  dsimp only
  split
  . next hb hp =>
    rw [hb, hp]
    simp [Cells.size]
  . omega

end Builder

namespace Allotment

section Builder

variable {a a' : Allotment}

theorem builder_of_allot? {b : Builder} {count : Nat} (h : allot? b count = some a) :
    a.builder = b := by
  unfold allot? at h
  split at h
  . cases h
    rfl
  . contradiction

theorem builder_of_reserve? {needed : Nat} (h : a.reserve? needed = some a') :
    a'.builder = a.builder := by
  unfold reserve? at h
  split at h
  . exact builder_of_allot? h
  . cases h
    rfl

theorem builder_of_widen? {w : Width} {units : List UInt16} (h : a.widen? w units = some a') :
    a'.builder = a.builder.widen w := by
  unfold widen? at h
  split at h
  . exact builder_of_allot? h
  . next hw =>
    cases h
    exact (if_neg hw).symm

theorem builder_of_grow? {b : Builder} {capacity : Nat} (h : grow? b capacity = some a') :
    a'.builder = b := by
  unfold grow? at h
  split at h
  . cases h
    rfl
  . exact builder_of_allot? h

theorem builder_of_push? {u : UInt16} {rest : List UInt16} (h : a.push? u rest = some a') :
    a'.builder = a.builder.push u := by
  simp only [push?, Option.bind_eq_bind, Option.bind_eq_some_iff] at h
  obtain ⟨wide, hwide, hgrow⟩ := h
  rw [builder_of_grow? hgrow]
  rw [builder_of_widen? hwide]
  rfl

theorem builder_of_pushAll? {units : List UInt16} (h : a.pushAll? units = some a') :
    a'.builder = a.builder.pushAll units := by
  induction units generalizing a with
  | nil =>
    cases h
    rfl
  | cons u rest ih =>
    simp only [pushAll?, Option.bind_eq_bind, Option.bind_eq_some_iff] at h
    obtain ⟨next, hnext, hrest⟩ := h
    rw [ih hrest]
    rw [builder_of_push? hnext]
    rfl

theorem builder_of_appendUnits? {units : List UInt16} (h : a.appendUnits? units = some a') :
    a'.builder = a.builder.pushAll units := by
  simp only [appendUnits?, Option.bind_eq_bind, Option.bind_eq_some_iff] at h
  obtain ⟨roomy, hroomy, hall⟩ := h
  rw [builder_of_pushAll? hall]
  rw [builder_of_reserve? hroomy]

/--
As long as there is room a chunk is taken or refused as it is without asking for any.
-/
theorem append_of_append? {chunk : Utf16.Chunk} {r : Except Fault Unit}
    (h : a.append? chunk = some (r, a')) : a.builder.append chunk = (r, a'.builder) := by
  unfold append? at h
  unfold Builder.append
  cases hunits : chunk.units? with
  | none =>
    rw [hunits] at h
    cases h
    rfl
  | some units =>
    rw [hunits] at h
    simp only [Option.bind_eq_bind, Option.bind_eq_some_iff] at h
    obtain ⟨next, hnext, h⟩ := h
    cases h
    rw [builder_of_appendUnits? hnext]

theorem appendAll_of_appendAll? {chunks : List Utf16.Chunk} {r : Except Fault Unit}
    (h : a.appendAll? chunks = some (r, a')) : a.builder.appendAll chunks = (r, a'.builder) := by
  induction chunks generalizing a with
  | nil =>
    cases h
    rfl
  | cons chunk rest ih =>
    simp only [appendAll?, Option.bind_eq_bind, Option.bind_eq_some_iff] at h
    obtain ⟨⟨result, next⟩, hnext, hrest⟩ := h
    unfold Builder.appendAll
    rw [append_of_append? hnext]
    cases result with
    | ok done => exact ih hrest
    | error fault =>
      cases hrest
      rfl

theorem build_of_build? {b : CodeBuffer} (h : a.build? = some b) : b = a.builder.build := by
  simp only [build?, Option.bind_eq_bind, Option.bind_eq_some_iff] at h
  obtain ⟨_, -, h⟩ := h
  cases h
  rfl

end Builder

/-!
An array asks for no more than `n` if that is the room it has at first, or four times the number of code
points in the end: a power of two and the doubling of a full array cost a factor of two each.
-/

section Bound

variable {a : Allotment} {n : Nat} (hn : 4 * n ≤ byteLimit)

include hn

theorem exists_allot? {count : Nat} (hcount : count ≤ n) (b : Builder) :
    ∃ a, allot? b count = some a ∧ a.capacity ≤ n := by
  have hbytes := b.width.mul_bytes_le count
  refine ⟨{ builder := b, capacity := count }, ?_, hcount⟩
  exact if_pos (by omega)

theorem exists_reserve? (hcapacity : a.capacity ≤ n) {needed : Nat}
    (hneeded : 4 * (a.builder.stored + needed) ≤ n) :
    ∃ a', a.reserve? needed = some a' ∧ a'.capacity ≤ n := by
  have hsize := a.builder.size_cells_le_stored
  unfold reserve?
  split
  . have hceil := @ceilPowerOfTwo_le (a.capacity + needed) (by omega)
    exact exists_allot? hn (by omega) _
  . exact ⟨a, rfl, hcapacity⟩

theorem exists_widen? (hcapacity : a.capacity ≤ n) {units : List UInt16}
    (hunits : 4 * (a.builder.stored + units.length) ≤ n) (w : Width) :
    ∃ a', a.widen? w units = some a' ∧ a'.capacity ≤ n := by
  have hsize := a.builder.size_cells_le_stored
  unfold widen?
  split
  . exact exists_allot? hn (by omega) _
  . exact ⟨a, rfl, hcapacity⟩

theorem exists_grow? {capacity : Nat} (hcapacity : capacity ≤ n) {b : Builder}
    (hb : 4 * b.cells.size ≤ n) : ∃ a, grow? b capacity = some a ∧ a.capacity ≤ n := by
  unfold grow?
  split
  . exact ⟨_, rfl, hcapacity⟩
  . exact exists_allot? hn (by omega) _

theorem exists_push? (hcapacity : a.capacity ≤ n) {u : UInt16} {rest : List UInt16}
    (hunits : 4 * (a.builder.stored + (u :: rest).length) ≤ n) :
    ∃ a', a.push? u rest = some a' ∧ a'.capacity ≤ n := by
  obtain ⟨wide, hwide, hroom⟩ := exists_widen? hn hcapacity hunits (.needed u)
  have hbuilder : wide.builder.store u = a.builder.push u := by
    rw [builder_of_widen? hwide]
    rfl
  have hpush := a.builder.stored_push_le u
  have hsize := (a.builder.push u).size_cells_le_stored
  unfold push?
  rw [hwide]
  apply exists_grow? hn hroom
  rw [hbuilder]
  rw [List.length_cons] at hunits
  omega

theorem exists_pushAll? (hcapacity : a.capacity ≤ n) {units : List UInt16}
    (hunits : 4 * (a.builder.stored + units.length) ≤ n) :
    ∃ a', a.pushAll? units = some a' ∧ a'.capacity ≤ n := by
  induction units generalizing a with
  | nil => exact ⟨a, rfl, hcapacity⟩
  | cons u rest ih =>
    obtain ⟨next, hnext, hroom⟩ := exists_push? hn hcapacity hunits
    have hpush := a.builder.stored_push_le u
    rw [← builder_of_push? hnext] at hpush
    rw [List.length_cons] at hunits
    unfold pushAll?
    rw [hnext]
    exact ih hroom (by omega)

theorem exists_appendUnits? (hcapacity : a.capacity ≤ n) {units : List UInt16}
    (hunits : 4 * (a.builder.stored + units.length) ≤ n) :
    ∃ a', a.appendUnits? units = some a' ∧ a'.capacity ≤ n := by
  obtain ⟨roomy, hroomy, hroom⟩ := exists_reserve? hn hcapacity hunits
  unfold appendUnits?
  rw [hroomy]
  apply exists_pushAll? hn hroom
  rw [builder_of_reserve? hroomy]
  exact hunits

theorem exists_appendAll? (hcapacity : a.capacity ≤ n) {chunks : List Utf16.Chunk}
    (hchunks :
      4 * (a.builder.stored + (chunks.filterMap Utf16.Chunk.units?).flatten.length) ≤ n) :
    ∃ r a', a.appendAll? chunks = some (r, a') ∧ a'.capacity ≤ n ∧ 4 * a'.builder.stored ≤ n := by
  induction chunks generalizing a with
  | nil => exact ⟨.ok (), a, rfl, hcapacity, by omega⟩
  | cons chunk rest ih =>
    rw [List.filterMap_cons] at hchunks
    unfold appendAll? append?
    cases hunits : chunk.units? with
    | none => exact ⟨_, a, rfl, hcapacity, by omega⟩
    | some units =>
      rw [hunits] at hchunks
      simp only [List.flatten_cons, List.length_append] at hchunks
      have hneeded : 4 * (a.builder.stored + units.length) ≤ n := by omega
      obtain ⟨next, hnext, hroom⟩ := exists_appendUnits? hn hcapacity hneeded
      have hstored := a.builder.stored_pushAll_le units
      rw [← builder_of_appendUnits? hnext] at hstored
      dsimp only
      rw [hnext]
      exact ih hroom (by omega)

theorem exists_build? (hcapacity : a.capacity ≤ n) (hstored : 4 * a.builder.stored ≤ n) :
    ∃ b, a.build? = some b := by
  have hclose := a.builder.size_close_le
  obtain ⟨_, hgrow, -⟩ := exists_grow? hn hcapacity (b := a.builder.close) (by omega)
  unfold build?
  rw [hgrow]
  exact ⟨_, rfl⟩

end Bound

end Allotment

end CodeBuffer

end Lookahead
