import Lookahead.Proofs.CodeBuffer.Width
import Lookahead.Proofs.Position.Checked

/-!
This module contains the making and reading of buffers with every step checked that is not defined
everywhere: to combine surrogates, to cut a text and to cut what is stored. Chunks are taken in
stretches, as many units at a time as the present width holds, and between two stretches the builder
goes to a wider width, which it may do only twice for a chunk. None of that ever fails, and it comes to
the same as taking the units one by one.
-/

namespace Lookahead

namespace Utf16

open Position (checkedSub)

/--
The code point of a pair, which takes a high surrogate and a low one.
-/
def checkedCombine (high low : UInt16) : Option UInt32 :=
  if IsHigh high ∧ IsLow low then
    do
      let upper ← checkedSub high.toNat 0xD800
      let lower ← checkedSub low.toNat 0xDC00
      return UInt32.ofNat (0x10000 + upper * 0x400 + lower)
  else
    none

theorem checkedCombine_eq {high low : UInt16} (hh : IsHigh high) (hl : IsLow low) :
    checkedCombine high low = some (combine high low) := by
  have hc := toNat_combine hh hl
  unfold checkedCombine
  rw [if_pos ⟨hh, hl⟩]
  rw [Position.checkedSub_of_le (isHigh_iff.mp hh).1]
  rw [Position.checkedSub_of_le (isLow_iff.mp hl).1]
  dsimp only [bind, Option.bind, pure]
  rw [← hc]
  rw [UInt32.ofNat_toNat]

theorem pair_of_checkedCombine {high low : UInt16} {c : UInt32}
    (h : checkedCombine high low = some c) :
    IsHigh high ∧ IsLow low ∧ 0x10000 ≤ c.toNat ∧ c.toNat ≤ 0x10FFFF := by
  by_cases hpair : IsHigh high ∧ IsLow low
  . have hc := toNat_combine hpair.1 hpair.2
    have hhigh := isHigh_iff.mp hpair.1
    have hlow := isLow_iff.mp hpair.2
    rw [checkedCombine_eq hpair.1 hpair.2] at h
    cases h
    exact ⟨hpair.1, hpair.2, by omega, by omega⟩
  . unfold checkedCombine at h
    rw [if_neg hpair] at h
    contradiction

end Utf16

namespace Width

/--
How many widths there are that are wider.
-/
def wider : Width → Nat
  | byte => 2
  | unit => 1
  | point => 0

theorem wider_lt {v w : Width} (h : v < w) : w.wider < v.wider := by
  rw [lt_iff_bits_lt] at h
  cases v <;> cases w <;> simp [bits, wider] at h ⊢

end Width

namespace Cells

/--
The code points from index `start` up to index `stop`, which have to be in this order and not past the
end.
-/
def checkedExtract (cells : Cells) (start stop : Nat) : Option Cells :=
  if start ≤ stop ∧ stop ≤ cells.size then some (cells.extract start stop) else none

theorem checkedExtract_of_le {cells : Cells} {start stop : Nat} (h : start ≤ stop)
    (h' : stop ≤ cells.size) : cells.checkedExtract start stop = some (cells.extract start stop) :=
  if_pos ⟨h, h'⟩

end Cells

namespace CodeBuffer

def checkedRemaining (b : CodeBuffer) : Option Nat := Position.checkedSub b.size b.position

def checkedUnread (b : CodeBuffer) : Option Cells := b.cells.checkedExtract b.position b.size

theorem checkedRemaining_eq (b : CodeBuffer) : b.checkedRemaining = some b.remaining :=
  Position.checkedSub_of_le b.position_le_size

theorem checkedUnread_eq (b : CodeBuffer) : b.checkedUnread = some b.unread :=
  Cells.checkedExtract_of_le b.position_le_size (Nat.le_refl _)

namespace Builder

open Utf16 (Chunk)

/--
The first `n` units, which have to be there.
-/
def checkedTake (n : Nat) (units : List UInt16) : Option (List UInt16) :=
  if n ≤ units.length then some (units.take n) else none

/--
What follows the first `n` units, which have to be there.
-/
def checkedDrop (n : Nat) (units : List UInt16) : Option (List UInt16) :=
  if n ≤ units.length then some (units.drop n) else none

def checkedPushMerging (points : Array UInt32) (pending : Option UInt16) (u : UInt16) :
    Option (Array UInt32 × Option UInt16) :=
  match pending with
  | some high =>
    if Utf16.IsLow u then
      do
        let c ← Utf16.checkedCombine high u
        return (points.push c, none)
    else
      some (pushMerging.pushFresh (points.push high.toUInt32) u)
  | none => some (pushMerging.pushFresh points u)

def checkedPushMergingAll (points : Array UInt32) (pending : Option UInt16) :
    List UInt16 → Option (Array UInt32 × Option UInt16)
  | [] => some (points, pending)
  | u :: rest => do
    let (points, pending) ← checkedPushMerging points pending u
    checkedPushMergingAll points pending rest

/--
Store as many units as the present width holds. The rest of the units is left.
-/
def checkedStretch (b : Builder) (units : List UInt16) : Option (Builder × List UInt16) :=
  match b.cells with
  | .bytes a => do
    let stored := a ++ ((units.takeWhile (· ≤ 0xFF)).map UInt16.toUInt8).toArray
    let taken ← Position.checkedSub stored.size a.size
    let rest ← checkedDrop taken units
    return ({ b with cells := .bytes stored }, rest)
  | .units a => do
    let taken := units.findIdx fun u => Utf16.IsHigh u
    let held ← checkedTake taken units
    let rest ← checkedDrop taken units
    return ({ b with cells := .units (a ++ held.toArray) }, rest)
  | .points a => do
    let (a, pending) ← checkedPushMergingAll a b.pending units
    return ({ b with cells := .points a, pending }, [])

/--
Store the units stretch by stretch. As long as a unit is left that the present width does not hold the
builder goes to a wider width, but not more than `room` times.
-/
def checkedPushAll (room : Nat) (b : Builder) (units : List UInt16) : Option Builder := do
  let (b, rest) ← b.checkedStretch units
  match rest with
  | [] => some b
  | u :: rest =>
    match room with
    | 0 => none
    | room + 1 => checkedPushAll room (b.widen (.needed u)) (u :: rest)

def checkedAppend (b : Builder) (chunk : Chunk) : Option (Except Fault Unit × Builder) :=
  match chunk.units? with
  | some units => do
    return (.ok (), ← b.checkedPushAll 2 units)
  | none => some (.error .notContiguous, b)

def checkedAppendEach (b : Builder) : List Chunk → Option Builder
  | [] => some b
  | chunk :: rest => do
    let (_, b) ← b.checkedAppend chunk
    b.checkedAppendEach rest

section Stretch

variable {b : Builder} {us : List UInt16}

theorem widen_of_le {w : Width} (h : w ≤ b.width) : b.widen w = b :=
  if_neg (Nat.not_lt_of_le h)

theorem push_of_le {u : UInt16} (h : Width.needed u ≤ b.width) : b.push u = b.store u := by
  unfold push
  rw [widen_of_le h]

/--
Units that the present width holds are stored one by one, and the width stays.
-/
theorem pushAll_of_le {held : List UInt16} (h : ∀ u ∈ held, Width.needed u ≤ b.width) :
    b.pushAll held = held.foldl store b := by
  induction held generalizing b with
  | nil => rfl
  | cons u rest ih =>
    have hrest : ∀ v ∈ rest, Width.needed v ≤ (b.store u).width := by
      intro v hv
      rw [width_store]
      exact h v (List.mem_cons_of_mem u hv)
    change (b.push u).pushAll rest = rest.foldl store (b.store u)
    rw [push_of_le (h u List.mem_cons_self)]
    exact ih hrest

theorem foldl_store_bytes {a : Array UInt8} (hb : b.cells = .bytes a) (held : List UInt16) :
    held.foldl store b = { b with cells := .bytes (a ++ (held.map UInt16.toUInt8).toArray) } := by
  induction held generalizing b a with
  | nil => simp [← hb]
  | cons u rest ih =>
    have hstore : b.store u = { b with cells := .bytes (a.push u.toUInt8) } := by
      unfold store
      rw [hb]
    rw [List.foldl_cons]
    rw [hstore]
    rw [ih rfl]
    simp

theorem foldl_store_units {a : Array UInt16} (hb : b.cells = .units a) (held : List UInt16) :
    held.foldl store b = { b with cells := .units (a ++ held.toArray) } := by
  induction held generalizing b a with
  | nil => simp [← hb]
  | cons u rest ih =>
    have hstore : b.store u = { b with cells := .units (a.push u) } := by
      unfold store
      rw [hb]
    rw [List.foldl_cons]
    rw [hstore]
    rw [ih rfl]
    simp

theorem checkedPushMerging_eq (points : Array UInt32) {pending : Option UInt16}
    (hp : ∀ v, pending = some v → Utf16.IsHigh v) (u : UInt16) :
    checkedPushMerging points pending u = some (pushMerging points pending u) := by
  unfold checkedPushMerging pushMerging
  cases pending with
  | none => rfl
  | some high =>
    dsimp only
    split
    . next hu =>
      rw [Utf16.checkedCombine_eq (hp high rfl) hu]
      rfl
    . rfl

theorem checkedPushMergingAll_eq {a : Array UInt32} (hb : b.cells = .points a)
    (hp : ∀ v, b.pending = some v → Utf16.IsHigh v) (units : List UInt16) :
    (checkedPushMergingAll a b.pending units).map
        (fun (points, pending) => { b with cells := .points points, pending }) =
      some (units.foldl store b) := by
  induction units generalizing b a with
  | nil => simp [checkedPushMergingAll, ← hb]
  | cons u rest ih =>
    have hstore : b.store u = { b with
        cells := .points (pushMerging a b.pending u).1
        pending := (pushMerging a b.pending u).2 } := by
      unfold store
      rw [hb]
    have hrest := @ih (b.store u) (pushMerging a b.pending u).1 (by rw [hstore])
    rw [hstore] at hrest
    unfold checkedPushMergingAll
    rw [checkedPushMerging_eq a hp]
    rw [List.foldl_cons]
    rw [hstore]
    apply hrest
    intro v hv
    exact isHigh_pushMerging hv

theorem checkedDrop_length (held rest : List UInt16) :
    checkedDrop held.length (held ++ rest) = some rest := by
  unfold checkedDrop
  rw [if_pos (by simp)]
  rw [List.drop_left]

theorem needed_le_of_mem_takeWhile {w : Width} {units : List UInt16} :
    ∀ u ∈ units.takeWhile (Width.needed · ≤ w), Width.needed u ≤ w := by
  intro u hu
  exact of_decide_eq_true (List.all_eq_true.mp List.all_takeWhile u hu)

theorem lt_needed_of_dropWhile_eq_cons {w : Width} {units rest : List UInt16} {u : UInt16}
    (h : units.dropWhile (Width.needed · ≤ w) = u :: rest) : w < Width.needed u := by
  have hhead := List.head?_dropWhile_not (Width.needed · ≤ w) units
  rw [h] at hhead
  exact Nat.lt_of_not_le (of_decide_eq_false hhead)

theorem checkedStretch_bytes {a : Array UInt8} (hb : b.cells = .bytes a) (units : List UInt16) :
    b.checkedStretch units =
      some ((units.takeWhile (Width.needed · ≤ .byte)).foldl store b,
        units.dropWhile (Width.needed · ≤ .byte)) := by
  have hpred : (fun u : UInt16 => decide (u ≤ 0xFF)) = (Width.needed · ≤ .byte) := by
    funext u
    rw [decide_eq_decide]
    change u ≤ 0xFF ↔ Width.needed u ≤ .byte
    rw [Width.needed_le_byte_iff]
    constructor
    . intro hu
      exact ⟨fun hhigh => UInt16.not_le.mpr (Width.lt_of_isHigh hhigh) hu, hu⟩
    . exact And.right
  have hrest := checkedDrop_length (units.takeWhile (Width.needed · ≤ .byte))
    (units.dropWhile (Width.needed · ≤ .byte))
  rw [List.takeWhile_append_dropWhile] at hrest
  unfold checkedStretch
  rw [hb]
  dsimp only
  rw [hpred]
  rw [foldl_store_bytes hb]
  rw [Position.checkedSub_of_le (by simp)]
  simp [hrest]

theorem checkedStretch_units {a : Array UInt16} (hb : b.cells = .units a) (units : List UInt16) :
    b.checkedStretch units =
      some ((units.takeWhile (Width.needed · ≤ .unit)).foldl store b,
        units.dropWhile (Width.needed · ≤ .unit)) := by
  have hpred : (fun u => decide (Utf16.IsHigh u)) = fun u => !decide (Width.needed u ≤ .unit) := by
    funext u
    simp [Width.needed_le_unit_iff]
  unfold checkedStretch checkedTake checkedDrop
  rw [hb]
  dsimp only
  rw [if_pos List.findIdx_le_length]
  rw [if_pos List.findIdx_le_length]
  rw [hpred]
  rw [← List.takeWhile_eq_take_findIdx_not]
  rw [← List.dropWhile_eq_drop_findIdx_not]
  rw [foldl_store_units hb]
  rfl

theorem checkedStretch_points {a : Array UInt32} (hb : b.cells = .points a)
    (hp : ∀ v, b.pending = some v → Utf16.IsHigh v) (units : List UInt16) :
    b.checkedStretch units =
      some ((units.takeWhile (Width.needed · ≤ .point)).foldl store b,
        units.dropWhile (Width.needed · ≤ .point)) := by
  have hdrop : units.dropWhile (Width.needed · ≤ .point) = [] := by
    cases hrest : units.dropWhile (Width.needed · ≤ .point) with
    | nil => rfl
    | cons u rest => exact absurd (lt_needed_of_dropWhile_eq_cons hrest) (Width.not_point_lt _)
  have htake : units.takeWhile (Width.needed · ≤ .point) = units := by
    have happend := @List.takeWhile_append_dropWhile _ (Width.needed · ≤ .point) units
    rw [hdrop] at happend
    rwa [List.append_nil] at happend
  obtain ⟨merged, hmerged, hb'⟩ := Option.map_eq_some_iff.mp (checkedPushMergingAll_eq hb hp units)
  rw [htake]
  rw [hdrop]
  rw [← hb']
  unfold checkedStretch
  rw [hb]
  dsimp only
  rw [hmerged]
  rfl

/--
A stretch stores the units in front of the first one that the present width does not hold.
-/
theorem Holds.checkedStretch_eq (h : b.Holds us) (units : List UInt16) :
    b.checkedStretch units =
      some (b.pushAll (units.takeWhile (Width.needed · ≤ b.width)),
        units.dropWhile (Width.needed · ≤ b.width)) := by
  rw [pushAll_of_le needed_le_of_mem_takeWhile]
  cases hb : b.cells with
  | bytes a =>
    have hw : b.width = .byte := congrArg Cells.width hb
    rw [hw]
    exact checkedStretch_bytes hb units
  | units a =>
    have hw : b.width = .unit := congrArg Cells.width hb
    rw [hw]
    exact checkedStretch_units hb units
  | points a =>
    have hw : b.width = .point := congrArg Cells.width hb
    rw [hw]
    exact checkedStretch_points hb h.isHigh_of_pending units

theorem width_pushAll_takeWhile (units : List UInt16) :
    (b.pushAll (units.takeWhile (Width.needed · ≤ b.width))).width = b.width := by
  apply Width.eq_of_le_of_le
  . rw [width_pushAll_le_iff]
    exact ⟨Width.le_refl _, needed_le_of_mem_takeWhile⟩
  . apply le_width_pushAll

end Stretch

theorem pushAll_widen_needed (b : Builder) (u : UInt16) (rest : List UInt16) :
    (b.widen (.needed u)).pushAll (u :: rest) = b.pushAll (u :: rest) := by
  have hpush : (b.widen (.needed u)).push u = b.push u := push_of_le (b.le_width_widen _)
  change ((b.widen (.needed u)).push u).pushAll rest = (b.push u).pushAll rest
  rw [hpush]

/--
The unit after a stretch, if there is one, asks for a wider width, and going there the builder has
fewer widths left to go to.
-/
theorem Holds.checkedPushAll_eq {b : Builder} {us : List UInt16} (h : b.Holds us) {room : Nat}
    (hroom : b.width.wider ≤ room) (units : List UInt16) :
    b.checkedPushAll room units = some (b.pushAll units) := by
  let held := units.takeWhile (Width.needed · ≤ b.width)
  let rest := units.dropWhile (Width.needed · ≤ b.width)
  have happend : held ++ rest = units := List.takeWhile_append_dropWhile
  have hwidth : (b.pushAll held).width = b.width := width_pushAll_takeWhile units
  have hstretch : b.checkedStretch units = some (b.pushAll held, rest) := h.checkedStretch_eq units
  have hall : b.pushAll units = (b.pushAll held).pushAll rest := by
    rw [← pushAll_append]
    rw [happend]
  rw [hall]
  unfold checkedPushAll
  rw [hstretch]
  dsimp only [bind, Option.bind]
  cases hrest : rest with
  | nil => rfl
  | cons u rest =>
    have hlt : b.width < Width.needed u := lt_needed_of_dropWhile_eq_cons hrest
    have hwider := Width.wider_lt hlt
    cases room with
    | zero => omega
    | succ room =>
      have hnext : ((b.pushAll held).widen (.needed u)).width = Width.needed u := by
        rw [width_widen]
        rw [hwidth]
        rw [if_pos hlt]
      dsimp only
      rw [((h.pushAll held).widen _).checkedPushAll_eq (by rw [hnext]; omega)]
      rw [pushAll_widen_needed]
termination_by room

/--
Two widths are wider than the first one, so a chunk makes a builder wider no more than twice.
-/
theorem Holds.checkedAppend_eq {b : Builder} {us : List UInt16} (h : b.Holds us) (chunk : Chunk) :
    b.checkedAppend chunk = some (b.append chunk) := by
  have hroom : b.width.wider ≤ 2 := by
    cases b.width <;> decide
  unfold checkedAppend append
  cases chunk.units? with
  | none => rfl
  | some units =>
    dsimp only
    rw [h.checkedPushAll_eq hroom]
    rfl

theorem Holds.checkedAppendEach_eq {b : Builder} {us : List UInt16} (h : b.Holds us)
    (chunks : List Chunk) : b.checkedAppendEach chunks = some (b.appendEach chunks) := by
  induction chunks generalizing b us with
  | nil => rfl
  | cons chunk rest ih =>
    unfold checkedAppendEach appendEach
    rw [h.checkedAppend_eq]
    dsimp only [bind, Option.bind]
    unfold append
    cases chunk.units? with
    | none => exact ih h
    | some units => exact ih (h.pushAll units)

end Builder

end CodeBuffer

end Lookahead
