import Mathlib.Algebra.Order.Field.Basic
import Mathlib.Data.List.GetD
import Mathlib.Data.List.Sort
import Mathlib.Tactic.Linarith
import Mathlib.Tactic.Positivity

/-! Order statistics by counting, and the straight line that stands for the data
between two counts. -/
namespace Buckets

section Order
variable {α : Type*} [LinearOrder α] {l : List α} {rank : ℕ}

/-- How many values lie below a limit. -/
def below (l : List α) (limit : α) : ℕ := l.countP fun v => v < limit

/-- The values below a limit come first. -/
theorem sorted_getElem_lt_iff (sorted : l.Pairwise (· ≤ ·)) {i : ℕ} (h : i < l.length) (limit : α) :
    l[i] < limit ↔ i < below l limit := by
  induction l generalizing i with
  | nil => simp at h
  | cons v vs ih =>
    obtain ⟨least, rest⟩ := List.pairwise_cons.mp sorted
    by_cases lt : v < limit
    · have count : below (v :: vs) limit = below vs limit + 1 := by simp [below, lt]
      cases i with
      | zero => simp [lt, count]
      | succ i =>
        rw [List.getElem_cons_succ, ih rest (by simpa using h), count]
        omega
    · have count : below (v :: vs) limit = 0 := by
        apply List.countP_eq_zero.mpr
        intro w hw
        simp only [decide_eq_true_eq]
        cases hw with
        | head =>
          exact lt
        | tail _ later =>
          exact not_lt.mpr ((not_lt.mp lt).trans (least w later))
      have large : ¬ (v :: vs)[i] < limit := by
        cases List.mem_cons.mp (List.getElem_mem h) with
        | inl first =>
          rwa [first]
        | inr later =>
          exact not_lt.mpr ((not_lt.mp lt).trans (least _ later))
      simp [large, count]

variable [Inhabited α]

/-- The value of this rank in increasing order; the smallest has rank 1. -/
def orderStatistic (l : List α) (rank : ℕ) : α := (l.insertionSort (· ≤ ·)).getD (rank - 1) default

theorem orderStatistic_eq (pos : 0 < rank) (le : rank ≤ l.length) :
    ∃ h : rank - 1 < (l.insertionSort (· ≤ ·)).length,
      orderStatistic l rank = (l.insertionSort (· ≤ ·))[rank - 1] := by
  have h : rank - 1 < (l.insertionSort (· ≤ ·)).length := by
    rw [List.length_insertionSort]
    omega
  exact ⟨h, List.getD_eq_getElem _ _ h⟩

theorem orderStatistic_mem (pos : 0 < rank) (le : rank ≤ l.length) : orderStatistic l rank ∈ l := by
  obtain ⟨h, eq⟩ := orderStatistic_eq pos le
  rw [eq]
  exact (List.mem_insertionSort (· ≤ ·)).mp (List.getElem_mem h)

theorem orderStatistic_lt_iff (pos : 0 < rank) (le : rank ≤ l.length) (limit : α) :
    orderStatistic l rank < limit ↔ rank ≤ below l limit := by
  obtain ⟨h, eq⟩ := orderStatistic_eq pos le
  have count : below (l.insertionSort (· ≤ ·)) limit = below l limit :=
    (List.perm_insertionSort (· ≤ ·) l).countP_eq _
  rw [eq, sorted_getElem_lt_iff (List.pairwise_insertionSort (· ≤ ·) l) h, count]
  omega

end Order

section Clamp
variable {α : Type*} [LinearOrder α] {lo hi x y a b : α}

def clamp (lo hi x : α) : α :=
  let x := if x < lo then lo else x
  if x > hi then hi else x

theorem clamp_eq (lo hi x : α) : clamp lo hi x = min hi (max lo x) := by
  have raised : (if x < lo then lo else x) = max lo x := by
    split
    · rename_i small
      exact (max_eq_left small.le).symm
    · rename_i large
      exact (max_eq_right (not_lt.mp large)).symm
  simp only [clamp, raised]
  split
  · rename_i large
    exact (min_eq_left (le_of_lt large)).symm
  · rename_i small
    exact (min_eq_right (not_lt.mp small)).symm

theorem clamp_between (le : lo ≤ hi) (x : α) : lo ≤ clamp lo hi x ∧ clamp lo hi x ≤ hi := by
  rw [clamp_eq]
  exact ⟨le_min le (le_max_left lo x), min_le_left hi _⟩

theorem clamp_mono (lo hi : α) (le : x ≤ y) : clamp lo hi x ≤ clamp lo hi y := by
  rw [clamp_eq, clamp_eq]
  exact min_le_min_left hi (max_le_max_left lo le)

/-- A point of an interval that meets the range stays in the interval. -/
theorem clamp_stays (ax : a ≤ x) (xb : x ≤ b) (lob : lo ≤ b) (ahi : a ≤ hi) :
    a ≤ clamp lo hi x ∧ clamp lo hi x ≤ b := by
  rw [clamp_eq]
  exact ⟨le_min ahi (ax.trans (le_max_right lo x)), (min_le_right hi _).trans (max_le lob xb)⟩

end Clamp

section Line
variable {K : Type*} [Field K] [LinearOrder K] [IsStrictOrderedRing K]
  {left right leftSum rightSum t u : K}

/-- The point that lies between `left` and `right` as `t` does between the sums. -/
def interpolate (left right leftSum rightSum t : K) : K :=
  left + (right - left) * ((t - leftSum) / (rightSum - leftSum))

theorem interpolate_mono (le : left ≤ right) (sums : leftSum < rightSum) (tu : t ≤ u) :
    interpolate left right leftSum rightSum t ≤ interpolate left right leftSum rightSum u := by
  have width : 0 ≤ right - left := sub_nonneg.mpr le
  have count : 0 < rightSum - leftSum := sub_pos.mpr sums
  simp only [interpolate]
  gcongr

theorem interpolate_between (le : left ≤ right) (sums : leftSum < rightSum) (low : leftSum ≤ t)
    (high : t ≤ rightSum) :
    left ≤ interpolate left right leftSum rightSum t ∧
      interpolate left right leftSum rightSum t ≤ right := by
  have count : rightSum - leftSum ≠ 0 := (sub_pos.mpr sums).ne'
  have first : interpolate left right leftSum rightSum leftSum = left := by simp [interpolate]
  have last : interpolate left right leftSum rightSum rightSum = right := by
    simp [interpolate, div_self count]
  have above := interpolate_mono le sums low
  have under := interpolate_mono le sums high
  rw [first] at above
  rw [last] at under
  exact ⟨above, under⟩

end Line

end Buckets
