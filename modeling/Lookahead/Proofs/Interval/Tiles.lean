import Lookahead.Interval.Basic

/-!
This module contains intervals that lie side by side, as the pieces do into which something is cut.
-/

namespace Lookahead

namespace Interval

/--
None of the intervals is empty, the first starts at `start`, each of the others right after the one
before it, and the last stops right before `stop`.
-/
def Tiles (start stop : Int) : List Interval → Prop
  | [] => start = stop
  | x :: rest => x.lo.toInt = start ∧ x.lo ≤ x.hi ∧ Tiles (x.hi.toInt + 1) stop rest

instance instDecidableTiles (start stop : Int) : (xs : List Interval) → Decidable (Tiles start stop xs)
  | [] => inferInstanceAs (Decidable (start = stop))
  | x :: rest =>
    have := instDecidableTiles (x.hi.toInt + 1) stop rest
    inferInstanceAs (Decidable (_ ∧ _ ∧ _))

section Cut

variable {start stop : Int} {xs : List Interval}

theorem Tiles.add_length_le (h : Tiles start stop xs) : start + xs.length ≤ stop := by
  induction xs generalizing start with
  | nil =>
    rw [Tiles] at h
    simp [h]
  | cons x rest ih =>
    obtain ⟨hlo, hhi, hrest⟩ := h
    rw [Int32.le_iff_toInt_le] at hhi
    have := ih hrest
    rw [List.length_cons]
    omega

theorem Tiles.stop_le (h : Tiles start stop xs) : stop ≤ max start 0x80000000 := by
  induction xs generalizing start with
  | nil =>
    rw [Tiles] at h
    omega
  | cons x rest ih =>
    have hmax := x.hi.toInt_lt
    have := ih h.2.2
    omega

theorem Tiles.le_lo (h : Tiles start stop xs) {i : Nat} (hi : i < xs.length) :
    start ≤ xs[i].lo.toInt := by
  induction xs generalizing start i with
  | nil => contradiction
  | cons x rest ih =>
    obtain ⟨hlo, hhi, hrest⟩ := h
    rw [Int32.le_iff_toInt_le] at hhi
    cases i with
    | zero => exact Int.le_of_eq hlo.symm
    | succ i =>
      have := ih hrest (Nat.lt_of_succ_lt_succ hi)
      rw [List.getElem_cons_succ]
      omega

theorem Tiles.drop (h : Tiles start stop xs) {i : Nat} (hi : i < xs.length) :
    Tiles xs[i].lo.toInt stop (xs.drop i) := by
  induction xs generalizing start i with
  | nil => contradiction
  | cons x rest ih =>
    obtain ⟨hlo, hhi, hrest⟩ := h
    cases i with
    | zero => exact ⟨rfl, hhi, hrest⟩
    | succ i => apply ih hrest

theorem Tiles.take (h : Tiles start stop xs) {j : Nat} (hj : j < xs.length) :
    Tiles start (xs[j].hi.toInt + 1) (xs.take (j + 1)) := by
  induction xs generalizing start j with
  | nil => contradiction
  | cons x rest ih =>
    obtain ⟨hlo, hhi, hrest⟩ := h
    cases j with
    | zero => exact ⟨hlo, hhi, rfl⟩
    | succ j =>
      refine ⟨hlo, hhi, ?_⟩
      apply ih hrest

/--
The intervals from the one at index `i` to the one at index `j` lie side by side as well.
-/
theorem Tiles.drop_take (h : Tiles start stop xs) {i j : Nat} (hi : i < xs.length)
    (hj : j < xs.length) (hij : i ≤ j) :
    Tiles xs[i].lo.toInt (xs[j].hi.toInt + 1) ((xs.take (j + 1)).drop i) := by
  have htake : i < (xs.take (j + 1)).length := by
    rw [List.length_take]
    omega
  have hdrop := (h.take hj).drop htake
  rwa [List.getElem_take] at hdrop

end Cut

end Interval

end Lookahead
