import MorelloWorkloads.Lib.CountedLoop
import Mathlib.Algebra.BigOperators.Group.Finset.Basic
import Mathlib.Algebra.BigOperators.Group.Finset.Piecewise
import Mathlib.Order.Interval.Finset.Basic

/-! Loop nests that accumulate into memory in place. Such a nest adds to every
word a fixed amount, which is the sum of what its passes add. -/
namespace CountedLoop

open Finset

variable {ι M : Type*} [AddCommMonoid M]

/-- `F` adds `d i` to each word `i`, whatever the memory holds. -/
def Adds (F : (ι → M) → ι → M) (d : ι → M) : Prop := ∀ m i, F m i = m i + d i

/-- `m[i] += v` -/
theorem adds_bump [DecidableEq ι] (i : ι) (v : M) :
    Adds (fun m => Function.update m i (m i + v)) (fun x => if i = x then v else 0) := by
  intro m x
  by_cases h : i = x
  · subst h; simp
  · simp [h, Function.update_of_ne (Ne.symm h)]

theorem adds_loop {lo hi step : ℤ} (hs : 0 < step) {body : (ι → M) → ℤ → ι → M}
    {d : ℤ → ι → M} (h : ∀ v, Adds (fun m => body m v) (d v)) :
    Adds (fun m => loop lo hi step m body) (fun x => ∑ v ∈ (trips lo hi step).toFinset, d v x) := by
  intro m x
  simp only [List.sum_toFinset _ (trips_nodup hs), loop]
  generalize trips lo hi step = l
  induction l generalizing m with
  | nil => simp
  | cons v vs ih =>
    have hv : body m v x = m x + d v x := h v m x
    rw [List.foldl_cons, ih, hv, List.map_cons, List.sum_cons, add_assoc]

/-- A nest of unit step sums over intervals. -/
theorem adds_loop_one {lo hi : ℤ} {body : (ι → M) → ℤ → ι → M} {d : ℤ → ι → M}
    (h : ∀ v, Adds (fun m => body m v) (d v)) :
    Adds (fun m => loop lo hi 1 m body) (fun x => ∑ v ∈ Ico lo hi, d v x) := by
  have hl : Adds (fun m => loop lo hi 1 m body) _ := adds_loop one_pos h
  simpa only [trips_toFinset] using hl

/-- A running sum. -/
theorem loop_add (lo hi : ℤ) (acc : M) (f : ℤ → M) :
    loop lo hi 1 acc (fun acc v => acc + f v) = acc + ∑ v ∈ Ico lo hi, f v := by
  rw [← trips_toFinset, List.sum_toFinset _ (trips_nodup one_pos)]
  unfold loop
  generalize trips lo hi 1 = l
  induction l generalizing acc with
  | nil => simp
  | cons v vs ih => rw [List.foldl_cons, ih, List.map_cons, List.sum_cons, add_assoc]

/-- The tiles `[v, min (v + tile) hi)` cover `[lo, hi)` once, whether or not
the tile divides its length. -/
theorem sum_tiles {tile : ℤ} (ht : 0 < tile) (lo hi : ℤ) (f : ℤ → M) :
    ∑ t ∈ (trips lo hi tile).toFinset, ∑ v ∈ Ico t (min (t + tile) hi), f v =
      ∑ v ∈ Ico lo hi, f v := by
  rw [List.sum_toFinset _ (trips_nodup ht)]
  induction lo using trips_induction hi ht with
  | done lo h => simp [trips_nil ht h, Ico_eq_empty_of_le h]
  | next lo h ih =>
    rw [trips_cons ht h, List.map_cons, List.sum_cons, ih]
    cases le_total (lo + tile) hi with
    | inl hle =>
      have split : Ico lo hi = Ico lo (lo + tile) ∪ Ico (lo + tile) hi :=
        (Ico_union_Ico_eq_Ico (by omega) hle).symm
      rw [min_eq_left hle, split, sum_union (Ico_disjoint_Ico_consecutive _ _ _)]
    | inr hle => rw [min_eq_right hle, Ico_eq_empty_of_le hle, sum_empty, add_zero]

end CountedLoop
