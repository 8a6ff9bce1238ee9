import Lookahead.Proofs.CodeBuffer.Width

/-!
This module contains what builders record. A builder goes to a wider width when a unit comes that the
present one does not hold, and records how much it has stored by then. As long as nothing has been
merged that is the index of the unit in the text, so the record tells where in the text the first units
of their kind are, however the text was cut into chunks.
-/

namespace Lookahead

/--
The event is a promotion by the unit at an index from `start` up to, not including, `stop`.
-/
def Event.isPromotionIn (start stop : Nat) : Event → Bool
  | .promoted _ _ size => decide (start ≤ size ∧ size < stop)
  | _ => false

namespace CodeBuffer

namespace Builder

open Utf16 (Chunk)

/--
The promotions of a text: at most one to two bytes, by the first unit above `0xFF`, and at most one to
the full width, by the first high surrogate. If these are the same unit there is only the latter.
-/
def promotions (units : List UInt16) : List Event :=
  match units.findIdx? fun u => 0xFF < u, units.findIdx? fun u => Utf16.IsHigh u with
  | none, _ => []
  | some f, none => [.promoted .byte .unit f]
  | some f, some h =>
    if f = h then [.promoted .byte .point h]
    else [.promoted .byte .unit f, .promoted .unit .point h]

/--
The promotions by the units of a text that comes after `start` units of width `w`.
-/
def promotionsFrom (w : Width) (start : Nat) : List UInt16 → List Event
  | [] => []
  | u :: rest =>
    if w < Width.needed u then
      .promoted w (Width.needed u) start :: promotionsFrom (Width.needed u) (start + 1) rest
    else
      promotionsFrom w (start + 1) rest

section Text

theorem promotionsFrom_point (start : Nat) (units : List UInt16) :
    promotionsFrom .point start units = [] := by
  induction units generalizing start with
  | nil => rfl
  | cons u rest ih =>
    unfold promotionsFrom
    rw [if_neg (Width.not_point_lt _)]
    apply ih

theorem promotionsFrom_unit (start : Nat) (units : List UInt16) :
    promotionsFrom .unit start units =
      match units.findIdx? fun u => Utf16.IsHigh u with
      | none => []
      | some h => [.promoted .unit .point (start + h)] := by
  induction units generalizing start with
  | nil => rfl
  | cons u rest ih =>
    unfold promotionsFrom
    rw [List.findIdx?_cons]
    by_cases hu : Utf16.IsHigh u
    . rw [Width.needed_of_isHigh hu]
      rw [promotionsFrom_point]
      simp [hu, Width.lt_iff_bits_lt, Width.bits]
    . have hwidth : ¬Width.unit < Width.needed u := by
        rw [Width.needed_of_not_isHigh hu]
        split <;> decide
      rw [if_neg hwidth]
      rw [ih]
      cases rest.findIdx? fun u => Utf16.IsHigh u with
      | none => simp [hu]
      | some h => simp [hu, Nat.add_right_comm, Nat.add_assoc]

theorem promotionsFrom_byte (start : Nat) (units : List UInt16) :
    promotionsFrom .byte start units =
      match units.findIdx? fun u => 0xFF < u, units.findIdx? fun u => Utf16.IsHigh u with
      | none, _ => []
      | some f, none => [.promoted .byte .unit (start + f)]
      | some f, some h =>
        if f = h then [.promoted .byte .point (start + h)]
        else [.promoted .byte .unit (start + f), .promoted .unit .point (start + h)] := by
  induction units generalizing start with
  | nil => rfl
  | cons u rest ih =>
    unfold promotionsFrom
    rw [List.findIdx?_cons]
    rw [List.findIdx?_cons]
    by_cases hhigh : Utf16.IsHigh u
    . rw [Width.needed_of_isHigh hhigh]
      rw [promotionsFrom_point]
      simp [hhigh, Width.lt_of_isHigh hhigh, Width.lt_iff_bits_lt, Width.bits]
    . rw [Width.needed_of_not_isHigh hhigh]
      by_cases hwide : 0xFF < u
      . rw [if_pos hwide]
        rw [promotionsFrom_unit]
        cases rest.findIdx? fun u => Utf16.IsHigh u with
        | none => simp [hhigh, hwide, Width.lt_iff_bits_lt, Width.bits]
        | some h =>
          simp [hhigh, hwide, Width.lt_iff_bits_lt, Width.bits, Nat.add_right_comm, Nat.add_assoc]
      . rw [if_neg hwide]
        rw [ih]
        cases rest.findIdx? fun u => 0xFF < u with
        | none => simp [hwide, Width.lt_iff_bits_lt]
        | some f =>
          cases rest.findIdx? fun u => Utf16.IsHigh u with
          | none =>
            simp [hhigh, hwide, Width.lt_iff_bits_lt, Nat.add_right_comm, Nat.add_assoc]
          | some h =>
            simp [hhigh, hwide, Width.lt_iff_bits_lt, Nat.add_right_comm, Nat.add_assoc]

theorem promotionsFrom_zero (units : List UInt16) :
    promotionsFrom .byte 0 units = promotions units := by
  rw [promotionsFrom_byte]
  unfold promotions
  simp only [Nat.zero_add]

theorem isPromotionIn_of_mem {w : Width} {start : Nat} {units : List UInt16} {e : Event}
    (h : e ∈ promotionsFrom w start units) : e.isPromotionIn start (start + units.length) := by
  induction units generalizing w start with
  | nil => contradiction
  | cons u rest ih =>
    have hrest : ∀ {w : Width}, e ∈ promotionsFrom w (start + 1) rest →
        e.isPromotionIn start (start + (u :: rest).length) := by
      intro w h
      have hlater := ih h
      cases e with
      | promoted source target size =>
        simp only [Event.isPromotionIn, decide_eq_true_eq, List.length_cons] at hlater ⊢
        omega
      | _ => contradiction
    unfold promotionsFrom at h
    split at h
    . rcases List.mem_cons.mp h with rfl | h
      . simp [Event.isPromotionIn]
      . exact hrest h
    . exact hrest h

end Text

section Journal

theorem width_push (b : Builder) (u : UInt16) :
    (b.push u).width = if b.width < Width.needed u then Width.needed u else b.width := by
  unfold push
  rw [width_store]
  apply width_widen

theorem journal_push (b : Builder) (u : UInt16) :
    (b.push u).journal.toList = b.journal.toList ++
      if b.width < Width.needed u then [.promoted b.width (Width.needed u) b.cells.size]
      else [] := by
  have hstore : ∀ b : Builder, (b.store u).journal = b.journal := by
    intro b
    unfold store
    split <;> rfl
  unfold push
  rw [hstore]
  unfold widen
  split
  . apply Array.toList_push
  . exact (List.append_nil _).symm

/--
As long as the width is not the full one every unit is a code point of its own.
-/
theorem size_cells_pushAll {units : List UInt16} (h : (pushAll {} units).width ≠ .point) :
    (pushAll {} units).cells.size = units.length := by
  have hholds := holds_empty.pushAll units
  have hplain : ∀ u ∈ units, ¬Utf16.IsHigh u := by
    intro u hu hhigh
    rw [width_pushAll_empty] at h
    exact h (if_pos ⟨u, hu, hhigh⟩)
  have hdecode := hholds.decode_append []
  rw [hholds.pending_eq_none h] at hdecode
  rw [List.nil_append, List.append_nil] at hdecode
  rw [Utf16.decode_eq_map_of_not_isHigh hplain] at hdecode
  rw [← Cells.length_toList]
  simpa [Utf16.decode] using (congrArg List.length hdecode).symm

/--
What the units of a further text add to the record.
-/
theorem journal_pushAll_append (units more : List UInt16) :
    (pushAll {} (units ++ more)).journal.toList = (pushAll {} units).journal.toList ++
      promotionsFrom (Width.ofUnits units) units.length more := by
  induction more generalizing units with
  | nil => simp [promotionsFrom]
  | cons u rest ih =>
    have hpush : pushAll {} (units ++ [u]) = (pushAll {} units).push u := pushAll_append ..
    have hwidth := width_push (pushAll {} units) u
    have hlength : (units ++ [u]).length = units.length + 1 := by simp
    have hnext := ih (units ++ [u])
    rw [← hpush] at hwidth
    rw [width_pushAll_empty, width_pushAll_empty] at hwidth
    rw [List.append_assoc] at hnext
    rw [hwidth] at hnext
    rw [hlength] at hnext
    rw [hpush] at hnext
    rw [journal_push] at hnext
    rw [width_pushAll_empty] at hnext
    unfold promotionsFrom
    split at hnext
    . next h =>
      have hpoint : (pushAll {} units).width ≠ .point := by
        rw [width_pushAll_empty]
        intro hw
        rw [hw] at h
        exact Width.not_point_lt _ h
      rw [size_cells_pushAll hpoint] at hnext
      rw [if_pos h]
      simpa using hnext
    . next h =>
      rw [if_neg h]
      simpa using hnext

theorem journal_pushAll (units : List UInt16) :
    (pushAll {} units).journal.toList = promotions units := by
  have hjournal := journal_pushAll_append [] units
  rw [List.nil_append] at hjournal
  rw [hjournal]
  rw [← promotionsFrom_zero]
  rfl

theorem isPromotionIn_eq_false {e : Event} {start stop start' stop' : Nat}
    (h : e.isPromotionIn start stop) (hdisjoint : stop ≤ start' ∨ stop' ≤ start) :
    e.isPromotionIn start' stop' = false := by
  cases e with
  | promoted source target size =>
    simp only [Event.isPromotionIn, decide_eq_true_eq, decide_eq_false_iff_not] at h ⊢
    omega
  | _ => contradiction

/--
The promotions by the units of a stretch of the text are those by units with an index in the stretch.
-/
theorem filter_promotions (us vs ws : List UInt16) :
    (promotions (us ++ vs ++ ws)).filter (Event.isPromotionIn us.length (us ++ vs).length) =
      promotionsFrom (Width.ofUnits us) us.length vs := by
  have hlength : (us ++ vs).length = us.length + vs.length := List.length_append
  rw [← journal_pushAll]
  rw [journal_pushAll_append]
  rw [journal_pushAll_append]
  rw [journal_pushAll]
  rw [← promotionsFrom_zero]
  rw [hlength]
  rw [List.filter_append, List.filter_append]
  rw [List.filter_eq_nil_iff.mpr, List.filter_eq_self.mpr, List.filter_eq_nil_iff.mpr]
  . rw [List.nil_append, List.append_nil]
  . intro e he
    rw [isPromotionIn_eq_false (isPromotionIn_of_mem he) (.inr (Nat.le_refl _))]
    exact Bool.false_ne_true
  . intro e he
    exact isPromotionIn_of_mem he
  . intro e he
    have hle : 0 + us.length ≤ us.length := Nat.le_of_eq (Nat.zero_add _)
    rw [isPromotionIn_eq_false (isPromotionIn_of_mem he) (.inl hle)]
    exact Bool.false_ne_true

end Journal

section Close

theorem isSome_pending_pushAll (units : List UInt16) :
    (pushAll {} units).pending.isSome = units.getLast?.any fun u => Utf16.IsHigh u := by
  rw [Bool.eq_iff_iff]
  rw [Option.isSome_iff_exists]
  rw [Option.any_eq_true]
  simp only [pending_pushAll_eq_some_iff, decide_eq_true_eq]

theorem journal_close (units : List UInt16) :
    (pushAll {} units).close.journal.toList = promotions units ++
      [.built (Width.ofUnits units) (Utf16.decode units).length
        (units.getLast?.any fun u => Utf16.IsHigh u)] := by
  let b := pushAll {} units
  have hsize : b.close.cells.size = (Utf16.decode units).length := by
    rw [← toList_build_pushAll units]
    exact (Cells.length_toList _).symm
  have hwidth : b.close.cells.width = Width.ofUnits units := by
    rw [← width_pushAll_empty units]
    exact b.width_build
  have hclose : b.close.journal = b.journal.push
      (.built b.close.cells.width b.close.cells.size b.pending.isSome) := rfl
  rw [hclose]
  rw [hsize]
  rw [hwidth]
  rw [isSome_pending_pushAll]
  rw [Array.toList_push]
  rw [journal_pushAll]

end Close

section Chunks

theorem received_append (chunks more : List Chunk) :
    received (chunks ++ more) = received chunks ++ received more := by
  unfold received
  rw [List.filterMap_append]
  rw [List.flatten_append]

/--
The record after one more chunk is the record before it with the promotions by units of the chunk.
-/
theorem journal_appendEach_take_succ (chunks : List Chunk) (k : Nat) :
    (appendEach {} (chunks.take (k + 1))).journal.toList =
      (appendEach {} (chunks.take k)).journal.toList ++
        (promotions (received chunks)).filter
          (Event.isPromotionIn (received (chunks.take k)).length
            (received (chunks.take (k + 1))).length) := by
  let us := received (chunks.take k)
  let vs := received ((chunks.drop k).take 1)
  let ws := received (chunks.drop (k + 1))
  have htake : received (chunks.take (k + 1)) = us ++ vs := by
    rw [List.take_add]
    apply received_append
  have hall : received chunks = us ++ vs ++ ws := by
    rw [← htake]
    rw [← received_append]
    rw [List.take_append_drop]
  rw [appendEach_eq_pushAll]
  rw [appendEach_eq_pushAll]
  rw [hall]
  rw [htake]
  rw [filter_promotions]
  apply journal_pushAll_append

end Chunks

/--
What a builder has on record depends on the units that it has received and not on the chunks that
brought them: a promotion by the first unit that needs two bytes and one by the first high surrogate,
each with the index of that unit, recorded as the chunk with the unit is added. Closing the builder
records its width, the number of its code points, with the surrogate that waits among them, and whether
one waits, which is just if the text ends in a high surrogate.
-/
theorem journal_appendEach (chunks : List Chunk) :
    let b := appendEach {} chunks
    let units := received chunks
    b.journal.toList = promotions units ∧
      (∀ k, (appendEach {} (chunks.take (k + 1))).journal.toList =
        (appendEach {} (chunks.take k)).journal.toList ++
          (promotions units).filter (Event.isPromotionIn (received (chunks.take k)).length
            (received (chunks.take (k + 1))).length)) ∧
      b.close.journal.toList = promotions units ++
        [.built b.build.width b.build.size (units.getLast?.any fun u => Utf16.IsHigh u)] ∧
      b.build.width = Width.ofUnits units ∧
      b.build.cells.toList = Utf16.decode units ∧ b.build.size = (Utf16.decode units).length := by
  intro b units
  have hb : b = pushAll {} units := appendEach_eq_pushAll ..
  have hlist : b.build.cells.toList = Utf16.decode units := (holds_appendEach chunks).toList_build
  have hsize : b.build.size = (Utf16.decode units).length := by
    rw [← hlist]
    exact (Cells.length_toList _).symm
  have hwidth : b.build.width = Width.ofUnits units := by
    rw [width_build]
    rw [hb]
    apply width_pushAll_empty
  refine ⟨?_, journal_appendEach_take_succ chunks, ?_, hwidth, hlist, hsize⟩
  . rw [hb]
    apply journal_pushAll
  . rw [hwidth]
    rw [hsize]
    rw [hb]
    apply journal_close

example :
    (appendEach {} [.flat [0x61, 0x20AC], .scattered, .flat [0x62, 0xD83D]]).close.journal.toList =
      [.promoted .byte .unit 1, .promoted .unit .point 3, .built .point 4 true] := by
  decide +kernel

end Builder

end CodeBuffer

end Lookahead
