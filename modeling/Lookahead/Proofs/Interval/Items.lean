import Lookahead.Interval.Basic

/-!
This module contains the items of a list that an interval addresses by their indices.
-/

namespace Lookahead

namespace Interval

variable {α : Type}

/--
The items whose indices are in the interval, in order.
-/
def items (x : Interval) (as : List α) : List α :=
  (as.zipIdx.filter fun a => x.lo.toInt ≤ a.2 ∧ a.2 ≤ x.hi.toInt).map Prod.fst

theorem map_filter_zipIdx (as : List α) (start stop k : Nat) :
    ((as.zipIdx k).filter fun a => start ≤ a.2 ∧ a.2 < stop).map Prod.fst =
      (as.drop (start - k)).take (stop - max start k) := by
  induction as generalizing k with
  | nil => simp
  | cons a as ih =>
    rw [List.zipIdx_cons]
    rw [List.filter_cons]
    -- The first index lies before the range, in it, or after it.
    by_cases hstart : k < start
    . rw [if_neg (by simp; omega)]
      rw [ih]
      have hdrop : start - k = start - (k + 1) + 1 := by omega
      have hmax : max start (k + 1) = max start k := by omega
      rw [hdrop]
      rw [hmax]
      rw [List.drop_succ_cons]
    . have hdrop : start - (k + 1) = start - k := by omega
      have hzero : start - k = 0 := by omega
      by_cases hstop : k < stop
      . have htake : stop - max start k = stop - max start (k + 1) + 1 := by omega
        rw [if_pos (by simp; omega)]
        rw [List.map_cons]
        rw [ih]
        rw [hdrop]
        rw [hzero]
        rw [htake]
        simp
      . have htake : stop - max start k = 0 := by omega
        have htake' : stop - max start (k + 1) = 0 := by omega
        rw [if_neg (by simp; omega)]
        rw [ih]
        rw [htake]
        rw [htake']
        simp

theorem items_eq_take_drop {x : Interval} (h : 0 ≤ x.lo.toInt) (as : List α) :
    x.items as = (as.drop x.lo.toInt.toNat).take (x.hi.toInt + 1 - x.lo.toInt).toNat := by
  have hfilter := map_filter_zipIdx as x.lo.toInt.toNat (x.hi.toInt + 1).toNat 0
  have htake : (x.hi.toInt + 1).toNat - max x.lo.toInt.toNat 0 =
      (x.hi.toInt + 1 - x.lo.toInt).toNat := by omega
  rw [htake] at hfilter
  rw [Nat.sub_zero] at hfilter
  rw [← hfilter]
  unfold items
  congr 2
  funext a
  rw [decide_eq_decide]
  omega

theorem items_drop {x y : Interval} {q : Nat} (hx : 0 ≤ x.lo.toInt)
    (hlo : y.lo.toInt = x.lo.toInt + q) (hhi : y.hi.toInt = x.hi.toInt + q) (as : List α) :
    x.items (as.drop q) = y.items as := by
  have hdrop : y.lo.toInt.toNat = q + x.lo.toInt.toNat := by omega
  have htake : y.hi.toInt + 1 - y.lo.toInt = x.hi.toInt + 1 - x.lo.toInt := by omega
  rw [items_eq_take_drop hx]
  rw [items_eq_take_drop (by omega)]
  rw [List.drop_drop]
  rw [hdrop]
  rw [htake]

theorem items_eq_nil {x : Interval} (h : x.hi < x.lo) (as : List α) : x.items as = [] := by
  rw [Int32.lt_iff_toInt_lt] at h
  unfold items
  rw [List.map_eq_nil_iff]
  rw [List.filter_eq_nil_iff]
  intro a _
  simp only [decide_eq_true_eq]
  omega

theorem toInt_add_one {b : Int32} (h : b < Int32.maxValue) : (b + 1).toInt = b.toInt + 1 := by
  rw [Int32.lt_iff_toInt_lt] at h
  have hmax : Int32.maxValue.toInt = 2147483647 := by decide
  have hle := b.le_toInt
  rw [Int32.toInt_add]
  have hone : (1 : Int32).toInt = 1 := by decide
  rw [hone]
  rw [Int.bmod_eq_of_le] <;> omega

/--
The items up to a bound and those after it, taken together.
-/
theorem items_append_items {a b c : Int32} (ha : 0 ≤ a) (hab : a.toInt ≤ b.toInt + 1) (hbc : b ≤ c)
    (hb : b < Int32.maxValue) (as : List α) :
    items ⟨a, b⟩ as ++ items ⟨b + 1, c⟩ as = items ⟨a, c⟩ as := by
  have hnext := toInt_add_one hb
  rw [Int32.le_iff_toInt_le] at ha hbc
  have hzero : (0 : Int32).toInt = 0 := by decide
  rw [hzero] at ha
  have hdrop : (b.toInt + 1).toNat = a.toInt.toNat + (b.toInt + 1 - a.toInt).toNat := by omega
  have htake : (c.toInt + 1 - a.toInt).toNat =
      (b.toInt + 1 - a.toInt).toNat + (c.toInt + 1 - (b.toInt + 1)).toNat := by omega
  rw [items_eq_take_drop (x := ⟨a, b⟩) ha]
  rw [items_eq_take_drop (x := ⟨a, c⟩) ha]
  rw [items_eq_take_drop (x := ⟨b + 1, c⟩) (by rw [hnext]; omega)]
  dsimp only
  rw [hnext]
  rw [hdrop]
  rw [htake]
  rw [List.take_add]
  rw [List.drop_drop]

end Interval

end Lookahead
