import MorelloWorkloads.SqliteBench.Histogram
import Mathlib.Algebra.BigOperators.Group.List.Basic
import Mathlib.Tactic.FieldSimp
import Mathlib.Tactic.LinearCombination

/-! `histogram_merge`, and the average and deviation of the report. Merged histograms
are the histogram of all values, however these were shared out and ordered. -/
namespace MorelloWorkloads.SqliteBench

def histogramMerge (hist other : Histogram) : Histogram where
  min := if other.min < hist.min then other.min else hist.min
  max := if other.max > hist.max then other.max else hist.max
  num := hist.num + other.num
  sum := hist.sum + other.sum
  sumSquares := hist.sumSquares + other.sumSquares
  buckets b := if b < kNumBuckets then hist.buckets b + other.buckets b else hist.buckets b

def average (hist : Histogram) : ℚ := if hist.num = 0 then 0 else hist.sum / hist.num

/-- The number of which `standard_deviation` takes the root. -/
def variance (hist : Histogram) : ℚ :=
  if hist.num = 0 then 0
  else (hist.sumSquares * hist.num - hist.sum * hist.sum) / (hist.num * hist.num)

/-- A histogram of these values alone. -/
def histogramOf (values : List ℚ) : Histogram :=
  histogramAddAll (histogramClear ⟨0, 0, 0, 0, 0, fun _ => 0⟩) values

theorem histogramClear_eq (old : Histogram) : histogramClear old = histogramOf [] := rfl

/-- A value that is added to the other histogram might as well be added afterwards. -/
theorem merge_add (hist other : Histogram) (value : ℚ) :
    histogramMerge hist (histogramAdd other value) = histogramAdd (histogramMerge hist other) value := by
  have inside := bucketOf_lt value
  simp only [histogramMerge, histogramAdd, Histogram.mk.injEq]
  refine ⟨?_, ?_, (add_assoc _ _ _).symm, (add_assoc _ _ _).symm, (add_assoc _ _ _).symm, ?_⟩
  · split_ifs <;> linarith
  · split_ifs <;> linarith
  · funext b
    by_cases here : b = bucketOf value
    · simp [here, inside, add_assoc]
    · simp [here]

theorem merge_addAll (hist other : Histogram) (values : List ℚ) :
    histogramMerge hist (histogramAddAll other values) =
      histogramAddAll (histogramMerge hist other) values := by
  induction values generalizing other with
  | nil => rfl
  | cons value values ih =>
    rw [histogramAddAll, List.foldl_cons, ← histogramAddAll, ih, merge_add]
    rfl

/-- What a cleared histogram bounds, it leaves alone. -/
theorem merge_clear {hist : Histogram} (low : hist.min ≤ bucketLimit (kNumBuckets - 1))
    (high : 0 ≤ hist.max) : histogramMerge hist (histogramOf []) = hist := by
  have keepsMin : ¬ bucketLimit (kNumBuckets - 1) < hist.min := not_lt.mpr low
  have keepsMax : ¬ 0 > hist.max := not_lt.mpr high
  simp only [histogramMerge, histogramOf, histogramAddAll, List.foldl_nil, histogramClear, keepsMin,
    keepsMax, if_false, add_zero, ite_self]

theorem addAll_bounds {hist : Histogram} (low : hist.min ≤ bucketLimit (kNumBuckets - 1))
    (high : 0 ≤ hist.max) (values : List ℚ) :
    (histogramAddAll hist values).min ≤ bucketLimit (kNumBuckets - 1) ∧
      0 ≤ (histogramAddAll hist values).max := by
  induction values generalizing hist with
  | nil => exact ⟨low, high⟩
  | cons value values ih =>
    apply ih
    · simp only [histogramAdd]
      split
      · exact (le_of_lt ‹_›).trans low
      · exact low
    · simp only [histogramAdd]
      split
      · exact high.trans (le_of_lt ‹_›)
      · exact high

theorem histogramOf_bounds (values : List ℚ) :
    (histogramOf values).min ≤ bucketLimit (kNumBuckets - 1) ∧ 0 ≤ (histogramOf values).max :=
  addAll_bounds le_rfl le_rfl values

/-- Merging appends. -/
theorem merge_histogramOf (values more : List ℚ) :
    histogramMerge (histogramOf values) (histogramOf more) = histogramOf (values ++ more) := by
  obtain ⟨low, high⟩ := histogramOf_bounds values
  have merged := merge_addAll (histogramOf values) (histogramOf []) more
  rw [merge_clear low high] at merged
  calc histogramMerge (histogramOf values) (histogramOf more)
      = histogramAddAll (histogramOf values) more := merged
    _ = histogramOf (values ++ more) := (List.foldl_append ..).symm

theorem histogramAdd_comm (hist : Histogram) (a b : ℚ) :
    histogramAdd (histogramAdd hist a) b = histogramAdd (histogramAdd hist b) a := by
  simp only [histogramAdd, Histogram.mk.injEq]
  refine ⟨?_, ?_, trivial, add_right_comm _ _ _, add_right_comm _ _ _, ?_⟩
  · split_ifs <;> linarith
  · split_ifs <;> linarith
  · funext c
    by_cases same : bucketOf a = bucketOf b
    · rw [same]
    · rw [Function.update_of_ne (Ne.symm same), Function.update_of_ne same,
        Function.update_comm (Ne.symm same)]

theorem histogramOf_perm {values values' : List ℚ} (perm : values.Perm values') :
    histogramOf values = histogramOf values' :=
  perm.foldl_eq' (fun a _ b _ hist => (histogramAdd_comm hist a b)) _

theorem merge_parts (parts : List (List ℚ)) (values : List ℚ) :
    (parts.map histogramOf).foldl histogramMerge (histogramOf values) =
      histogramOf (values ++ parts.flatten) := by
  induction parts generalizing values with
  | nil => simp
  | cons part parts ih =>
    rw [List.map_cons, List.foldl_cons, merge_histogramOf, ih, List.flatten_cons, List.append_assoc]

/-- However the latencies are shared out among histograms, and in whatever order they
come, the merged histogram is the one that has counted all of them. -/
theorem merged_histograms (parts : List (List ℚ)) {values : List ℚ} (perm : parts.flatten.Perm values)
    (old : Histogram) :
    (parts.map histogramOf).foldl histogramMerge (histogramClear old) = histogramOf values := by
  rw [histogramClear_eq, merge_parts, List.nil_append]
  exact histogramOf_perm perm

theorem merged_histograms_three :
    ([[3], [1, 2]].map histogramOf).foldl histogramMerge
      (histogramClear ⟨1, 2, 3, 4, 5, fun _ => 6⟩) = histogramOf [1, 2, 3] :=
  merged_histograms [[3], [1, 2]] (by decide) ⟨1, 2, 3, 4, 5, fun _ => 6⟩

/-! ## Average and deviation -/

theorem addAll_sums (hist : Histogram) (values : List ℚ) :
    (histogramAddAll hist values).num = hist.num + values.length ∧
    (histogramAddAll hist values).sum = hist.sum + values.sum ∧
    (histogramAddAll hist values).sumSquares = hist.sumSquares + (values.map fun v => v * v).sum := by
  induction values generalizing hist with
  | nil => simp [histogramAddAll]
  | cons value values ih =>
    obtain ⟨num, sum, squares⟩ := ih (histogramAdd hist value)
    simp only [histogramAddAll, List.foldl_cons] at num sum squares ⊢
    refine ⟨?_, ?_, ?_⟩
    · rw [num]
      simp only [histogramAdd, List.length_cons]
      push_cast
      ring
    · rw [sum, List.sum_cons, ← add_assoc]
      rfl
    · rw [squares, List.map_cons, List.sum_cons, ← add_assoc]
      rfl

theorem sum_deviations (values : List ℚ) (a : ℚ) :
    (values.map fun v => (v - a) ^ 2).sum =
      (values.map fun v => v * v).sum - 2 * a * values.sum + values.length * a ^ 2 := by
  induction values with
  | nil => simp
  | cons v values ih =>
    simp only [List.map_cons, List.sum_cons, ih, List.length_cons]
    push_cast
    ring

/-- The average is the mean, and the root is taken of the mean square of the deviations
from it: never of a negative number, and of zero only when all values are equal. -/
theorem deviation_exact {values : List ℚ} (some_value : values ≠ []) :
    average (histogramOf values) = values.sum / values.length ∧
    variance (histogramOf values) =
      (values.map fun v => (v - average (histogramOf values)) ^ 2).sum / values.length ∧
    0 ≤ variance (histogramOf values) ∧
    (variance (histogramOf values) = 0 ↔ ∀ v ∈ values, v = average (histogramOf values)) := by
  obtain ⟨num, sum, squares⟩ := addAll_sums (histogramOf []) values
  have count : (values.length : ℚ) ≠ 0 := by
    have := List.length_pos_iff.mpr some_value
    positivity
  have positive : (0 : ℚ) < values.length := lt_of_le_of_ne (by positivity) (Ne.symm count)
  have number : (histogramOf values).num = values.length := num.trans (zero_add _)
  have total : (histogramOf values).sum = values.sum := sum.trans (zero_add _)
  have totalSquares : (histogramOf values).sumSquares = (values.map fun v => v * v).sum :=
    squares.trans (zero_add _)
  have mean : average (histogramOf values) = values.sum / values.length := by
    rw [average, number, if_neg count, total]
  have spread : variance (histogramOf values) =
      (values.map fun v => (v - average (histogramOf values)) ^ 2).sum / values.length := by
    rw [variance, number, if_neg count, total, totalSquares, sum_deviations, mean]
    field_simp
    ring
  have terms : ∀ x ∈ values.map fun v => (v - average (histogramOf values)) ^ 2, 0 ≤ x := by
    intro x hx
    obtain ⟨v, -, rfl⟩ := List.mem_map.mp hx
    positivity
  refine ⟨mean, spread, ?_, ?_⟩
  · rw [spread]
    exact div_nonneg (List.sum_nonneg terms) positive.le
  · rw [spread, div_eq_zero_iff, or_iff_left count]
    constructor
    · intro zero v hv
      have := List.all_zero_of_le_zero_le_of_sum_eq_zero terms zero (List.mem_map_of_mem hv)
      exact sub_eq_zero.mp (pow_eq_zero_iff two_ne_zero |>.mp this)
    · intro equal
      apply List.sum_eq_zero
      intro x hx
      obtain ⟨v, hv, rfl⟩ := List.mem_map.mp hx
      rw [← equal v hv, sub_self, zero_pow two_ne_zero]

theorem deviation_exact_three : average (histogramOf [1, 2, 3]) = 2 ∧
    variance (histogramOf [1, 2, 3]) = 2 / 3 ∧ 0 ≤ variance (histogramOf [1, 2, 3]) := by
  obtain ⟨mean, spread, nonneg, -⟩ := @deviation_exact [1, 2, 3] (by simp)
  have two : average (histogramOf [1, 2, 3]) = 2 := by
    rw [mean]
    norm_num
  refine ⟨two, ?_, nonneg⟩
  rw [spread, two]
  norm_num

end MorelloWorkloads.SqliteBench
