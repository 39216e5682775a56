import Mathlib.Data.List.Sort
import Mathlib.Data.List.Count

/-!
# The median of a list

The element in the middle of the sorted list, the upper one of two. A bound is below it exactly if it is
below enough of the elements, so what is known of their number is enough to compare medians.
-/

namespace MutableBitcoin.Lib
open List

variable {α : Type*} [LinearOrder α] {l : List α} {m : α}

def median (l : List α) : Option α := (l.insertionSort (· ≤ ·))[l.length / 2]?

lemma le_getElem_iff_countP (h : l.Pairwise (· ≤ ·)) {i : ℕ} (hi : i < l.length) :
    m ≤ l[i] ↔ l.length - i ≤ l.countP (m ≤ ·) := by
  constructor
  · intro hm
    have htail : (l.drop i).countP (m ≤ ·) = (l.drop i).length := by
      rw [countP_eq_length]
      intro a ha
      obtain ⟨j, hj, rfl⟩ := mem_iff_getElem.mp ha
      rw [getElem_drop, decide_eq_true_eq]
      apply hm.trans
      rcases Nat.eq_zero_or_pos j with rfl | hpos
      · exact le_rfl
      · exact pairwise_iff_getElem.mp h i (i + j) hi (by rw [length_drop] at hj; omega) (by omega)
    rw [length_drop] at htail
    rw [← htail]
    exact (drop_sublist i l).countP_le
  · intro hcount
    by_contra hm
    -- then nothing up to the place counts
    have hhead : (l.take (i + 1)).countP (m ≤ ·) = 0 := by
      rw [countP_eq_zero]
      intro a ha
      obtain ⟨j, hj, rfl⟩ := mem_iff_getElem.mp ha
      rw [length_take] at hj
      rw [getElem_take, decide_eq_true_eq]
      intro hle
      apply hm
      apply hle.trans
      rcases Nat.eq_or_lt_of_le (show j ≤ i by omega) with rfl | hlt
      · exact le_rfl
      · exact pairwise_iff_getElem.mp h j i (by omega) hi hlt
    have hsplit : (l.take (i + 1) ++ l.drop (i + 1)).countP (m ≤ ·) = _ := countP_append
    rw [take_append_drop, hhead] at hsplit
    have hle := countP_le_length (p := (m ≤ ·)) (l := l.drop (i + 1))
    rw [length_drop] at hle
    omega

lemma median_eq_none : median l = none ↔ l = [] := by
  unfold median
  rw [getElem?_eq_none_iff, length_insertionSort, ← length_eq_zero_iff]
  omega

lemma median_of_ne_nil (h : l ≠ []) : ∃ m, median l = some m :=
  Option.ne_none_iff_exists'.mp (fun hnone => h (median_eq_none.mp hnone))

/-- A bound is below the median if it is below the greater half of the elements. -/
theorem le_median_iff {c : α} (h : median l = some c) : m ≤ c ↔ l.length - l.length / 2 ≤ l.countP (m ≤ ·) := by
  unfold median at h
  obtain ⟨hi, rfl⟩ := List.getElem?_eq_some_iff.mp h
  rw [le_getElem_iff_countP (pairwise_insertionSort _ l) hi, length_insertionSort,
    (perm_insertionSort _ l).countP_eq]

/-- A new element that is no less than the median keeps it from falling, and so does dropping the last of an
odd number of elements at the same time. -/
theorem median_le_median_cons {a c c' : α} {n : ℕ} (hn : n % 2 = 1) (hlen : l.length ≤ n) (hc : median l = some c)
    (hac : c ≤ a) (hc' : median ((a :: l).take n) = some c') : c ≤ c' := by
  rw [le_median_iff hc']
  have hcount := (le_median_iff hc).mp le_rfl
  have hcons : (a :: l).countP (c ≤ ·) = l.countP (c ≤ ·) + 1 :=
    countP_cons_of_pos (decide_eq_true hac)
  rcases Nat.lt_or_ge l.length n with hlt | hge
  · rw [take_of_length_le (by rw [length_cons]; omega), hcons, length_cons]
    omega
  · have hsplit : ((a :: l).take n ++ (a :: l).drop n).countP (c ≤ ·) = _ := countP_append
    rw [take_append_drop, hcons] at hsplit
    have hlast := countP_le_length (p := (c ≤ ·)) (l := (a :: l).drop n)
    rw [length_drop, length_cons] at hlast
    rw [length_take, length_cons]
    omega

end MutableBitcoin.Lib
