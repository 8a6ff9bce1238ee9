import Lookahead.Utf16.Chunk

/-!
This module contains rings as the queues that they stand for. The head goes round the slots as the
queue is edited, but that only decides where the contents lie: those from the head on and those from
the first slot on are together the contents of a queue that has no slots.
-/

namespace Lookahead

namespace Utf16

namespace Ring

/--
What an edit makes of a queue that holds `us`, front to back.
-/
def Edit.applyTo (us : List UInt16) : Edit → List UInt16
  | .pushBack u => us ++ [u]
  | .pushFront u => u :: us
  | .popFront => us.tail
  | .popBack => us.dropLast

def contents (edits : List Edit) : List UInt16 := edits.foldl Edit.applyTo []

/--
The queue gets no longer than `capacity` while it is edited.
-/
def Fits (capacity : Nat) (edits : List Edit) : Prop :=
  ∀ k ≤ edits.length, (contents (edits.take k)).length ≤ capacity

instance (capacity : Nat) (edits : List Edit) : Decidable (Fits capacity edits) :=
  inferInstanceAs (Decidable (∀ k ≤ edits.length, (contents (edits.take k)).length ≤ capacity))

/--
The slots from the head on, going round, hold `us`.
-/
structure Represents (r : Ring) (us : List UInt16) : Prop where
  length_eq : r.length = us.length
  length_le_capacity : us.length ≤ r.capacity
  head_lt : r.head < max r.capacity 1
  getElem?_slots : ∀ i < us.length, r.slots[(r.head + i) % r.capacity]? = us[i]?

section Slot

variable {head capacity i j : Nat}

theorem slot_eq (hhead : head < capacity) (hi : i < capacity) :
    (head + i) % capacity = if head + i < capacity then head + i else head + i - capacity := by
  split
  . next h => exact Nat.mod_eq_of_lt h
  . next h =>
    rw [Nat.mod_eq_sub_mod (by omega)]
    rw [Nat.mod_eq_of_lt (by omega)]

theorem slot_ne (hhead : head < capacity) (hij : i < j) (hj : j < capacity) :
    (head + j) % capacity ≠ (head + i) % capacity := by
  rw [slot_eq hhead hj]
  rw [slot_eq hhead (by omega)]
  split <;> split <;> omega

theorem slot_of_succ (head i capacity : Nat) :
    ((head + 1) % capacity + i) % capacity = (head + (i + 1)) % capacity := by
  rw [Nat.mod_add_mod]
  rw [Nat.add_right_comm]
  rfl

theorem slot_of_pred (hcapacity : 0 < capacity) (head i : Nat) :
    ((head + capacity - 1) % capacity + (i + 1)) % capacity = (head + i) % capacity := by
  have hround : head + capacity - 1 + (i + 1) = head + i + capacity := by omega
  rw [Nat.mod_add_mod]
  rw [hround]
  rw [Nat.add_mod_right]

theorem slot_lt (hcapacity : 0 < capacity) (i : Nat) : i % capacity < max capacity 1 :=
  Nat.lt_of_lt_of_le (Nat.mod_lt i hcapacity) (Nat.le_max_left ..)

end Slot

section Capacity

variable (r : Ring)

@[simp]
theorem capacity_pushBack (u : UInt16) : (r.pushBack u).capacity = r.capacity := by
  simp [pushBack, capacity]

@[simp]
theorem capacity_pushFront (u : UInt16) : (r.pushFront u).capacity = r.capacity := by
  simp [pushFront, capacity]

@[simp]
theorem capacity_popFront : r.popFront.capacity = r.capacity := by
  unfold popFront
  split <;> rfl

@[simp]
theorem capacity_popBack : r.popBack.capacity = r.capacity := rfl

theorem capacity_edit (e : Edit) : (r.edit e).capacity = r.capacity := by
  cases e <;> simp [edit]

end Capacity

@[simp]
theorem capacity_ofCapacity (capacity : Nat) : (ofCapacity capacity).capacity = capacity := by
  simp [ofCapacity, Ring.capacity]

theorem represents_ofCapacity (capacity : Nat) : (ofCapacity capacity).Represents [] where
  length_eq := rfl
  length_le_capacity := Nat.zero_le _
  head_lt := Nat.lt_of_lt_of_le Nat.zero_lt_one (Nat.le_max_right ..)
  getElem?_slots := by simp

section Edit

variable {r : Ring} {us : List UInt16}

theorem Represents.head_lt_capacity (h : r.Represents us) (hpos : 0 < r.capacity) :
    r.head < r.capacity := by
  have := h.head_lt
  omega

theorem Represents.pushBack (h : r.Represents us) (hroom : us.length < r.capacity) (u : UInt16) :
    (r.pushBack u).Represents (us ++ [u]) where
  length_eq := by simp [Ring.pushBack, h.length_eq]
  length_le_capacity := by simpa using Nat.succ_le_of_lt hroom
  head_lt := by
    rw [capacity_pushBack]
    exact h.head_lt
  getElem?_slots := by
    intro i hi
    rw [List.length_append, List.length_singleton] at hi
    rw [capacity_pushBack]
    simp only [Ring.pushBack]
    rw [h.length_eq]
    by_cases hlast : i = us.length
    . subst hlast
      rw [Array.getElem?_setIfInBounds_self_of_lt]
      . simp
      . exact Nat.mod_lt _ (by omega)
    . rw [Array.getElem?_setIfInBounds_ne]
      . rw [h.getElem?_slots i (by omega)]
        rw [List.getElem?_append_left (by omega)]
      . exact slot_ne (h.head_lt_capacity (by omega)) (by omega) hroom

theorem Represents.pushFront (h : r.Represents us) (hroom : us.length < r.capacity) (u : UInt16) :
    (r.pushFront u).Represents (u :: us) where
  length_eq := by simp [Ring.pushFront, h.length_eq]
  length_le_capacity := by simpa using Nat.succ_le_of_lt hroom
  head_lt := by
    rw [capacity_pushFront]
    exact slot_lt (by omega) _
  getElem?_slots := by
    intro i hi
    rw [List.length_cons] at hi
    have hpos : 0 < r.capacity := by omega
    have hhead := h.head_lt_capacity hpos
    rw [capacity_pushFront]
    simp only [Ring.pushFront]
    cases i with
    | zero =>
      rw [Nat.add_zero]
      rw [Nat.mod_mod]
      rw [Array.getElem?_setIfInBounds_self_of_lt]
      . rfl
      . exact Nat.mod_lt _ hpos
    | succ i =>
      rw [Array.getElem?_setIfInBounds_ne]
      . rw [slot_of_pred hpos]
        rw [h.getElem?_slots i (by omega)]
        rfl
      . have hne := slot_ne (Nat.mod_lt (r.head + r.capacity - 1) hpos) (Nat.succ_pos i) (by omega)
        rw [Nat.add_zero] at hne
        rw [Nat.mod_mod] at hne
        exact hne.symm

theorem Represents.popFront (h : r.Represents us) : r.popFront.Represents us.tail := by
  have hlength := h.length_eq
  have hcapacity := h.length_le_capacity
  unfold Ring.popFront
  split
  . next hempty =>
    rw [hempty] at hlength
    rw [List.eq_nil_of_length_eq_zero hlength.symm] at h
    rwa [List.eq_nil_of_length_eq_zero hlength.symm]
  . next hne =>
    constructor
    . rw [List.length_tail]
      rw [hlength]
    . rw [List.length_tail]
      change us.length - 1 ≤ r.capacity
      omega
    . exact slot_lt (by omega) (r.head + 1)
    . intro i hi
      rw [List.length_tail] at hi
      change r.slots[((r.head + 1) % r.capacity + i) % r.capacity]? = _
      rw [slot_of_succ]
      rw [h.getElem?_slots (i + 1) (by omega)]
      rw [List.getElem?_tail]

theorem Represents.popBack (h : r.Represents us) : r.popBack.Represents us.dropLast where
  length_eq := by simp [Ring.popBack, h.length_eq]
  length_le_capacity := by
    have := h.length_le_capacity
    rw [List.length_dropLast]
    rw [capacity_popBack]
    omega
  head_lt := h.head_lt
  getElem?_slots := by
    intro i hi
    rw [List.length_dropLast] at hi
    rw [List.getElem?_dropLast]
    rw [if_pos hi]
    exact h.getElem?_slots i (by omega)

/--
A ring with room for the outcome of an edit goes on standing for a queue.
-/
theorem Represents.edit (h : r.Represents us) {e : Edit}
    (hroom : (e.applyTo us).length ≤ r.capacity) : (r.edit e).Represents (e.applyTo us) := by
  cases e with
  | pushBack u =>
    rw [Edit.applyTo, List.length_append] at hroom
    exact h.pushBack hroom u
  | pushFront u =>
    rw [Edit.applyTo, List.length_cons] at hroom
    exact h.pushFront hroom u
  | popFront => exact h.popFront
  | popBack => exact h.popBack

theorem Represents.foldl_edit (h : r.Represents us) {edits : List Edit}
    (hroom : ∀ k ≤ edits.length,
      ((edits.take k).foldl Edit.applyTo us).length ≤ r.capacity) :
    (edits.foldl Ring.edit r).Represents (edits.foldl Edit.applyTo us) := by
  induction edits generalizing r us with
  | nil => exact h
  | cons e rest ih =>
    rw [List.foldl_cons]
    rw [List.foldl_cons]
    apply ih
    . apply h.edit
      exact hroom 1 (by simp)
    . intro k hk
      rw [capacity_edit]
      exact hroom (k + 1) (by simpa using hk)

end Edit

theorem represents_ofEdits {capacity : Nat} {edits : List Edit} (h : Fits capacity edits) :
    (ofEdits capacity edits).Represents (contents edits) := by
  apply (represents_ofCapacity capacity).foldl_edit
  intro k hk
  rw [capacity_ofCapacity]
  exact h k hk

section Halves

variable {r : Ring} {us : List UInt16}

theorem getElem?_toList_extract {slots : Array UInt16} {start stop i : Nat}
    (hi : i < min stop slots.size - start) :
    (slots.extract start stop).toList[i]? = slots[start + i]? := by
  rw [Array.getElem?_toList]
  rw [Array.getElem?_extract]
  rw [if_pos hi]

theorem length_front (r : Ring) :
    r.front.length = min (r.head + r.length) r.capacity - r.head := by
  unfold front
  rw [Array.length_toList, Array.size_extract]
  rfl

theorem Represents.length_back (h : r.Represents us) :
    r.back.length = r.head + r.length - r.capacity := by
  have hlength := h.length_eq
  have hcapacity := h.length_le_capacity
  have hhead := h.head_lt
  unfold back
  rw [Array.length_toList, Array.size_extract]
  unfold capacity at *
  omega

/--
Only contents that go past the last slot have a second half.
-/
theorem Represents.back_eq_nil_iff (h : r.Represents us) :
    r.back = [] ↔ r.head + r.length ≤ r.capacity := by
  rw [← List.length_eq_zero_iff]
  rw [h.length_back]
  omega

theorem Represents.toList_eq (h : r.Represents us) : r.toList = us := by
  have hlength := h.length_eq
  have hcapacity := h.length_le_capacity
  have hhead := h.head_lt
  have hfront := r.length_front
  have hback := h.length_back
  unfold toList
  apply List.ext_getElem
  . rw [List.length_append]
    omega
  . intro i hi hi'
    apply Option.some.inj
    rw [← List.getElem?_eq_getElem hi]
    rw [← List.getElem?_eq_getElem hi']
    rw [← h.getElem?_slots i hi']
    rw [slot_eq (h.head_lt_capacity (by omega)) (by omega)]
    -- A slot past the last one is one of the first, which the second half starts with.
    split
    . rw [List.getElem?_append_left (by omega)]
      unfold front
      rw [getElem?_toList_extract]
      unfold capacity at *
      omega
    . rw [List.getElem?_append_right (by omega)]
      unfold back
      rw [getElem?_toList_extract]
      . congr 1
        omega
      . unfold capacity at *
        omega

theorem Represents.flat?_eq (h : r.Represents us) :
    r.flat? = if r.back = [] then some us else none := by
  have hlength := h.length_le_capacity
  have hhead := h.head_lt
  unfold flat?
  rw [← h.length_eq] at hlength
  split
  . next hflat =>
    have hback : r.back = [] := h.back_eq_nil_iff.mpr (by omega)
    have hlist := h.toList_eq
    unfold toList at hlist
    rw [hback] at hlist
    rw [List.append_nil] at hlist
    rw [if_pos hback]
    rw [hlist]
  . next hflat =>
    rw [if_neg]
    rw [h.back_eq_nil_iff]
    omega

end Halves

end Ring

end Utf16

end Lookahead
