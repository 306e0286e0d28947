import MorelloWorkloads.Lib.FlatMemory
import MorelloWorkloads.MatrixMultiply.Kernels
import Mathlib.Algebra.BigOperators.Group.Finset.Sigma
import Mathlib.Algebra.Ring.Int.Defs

/-! Every kernel leaves the matrix product in `c`. Each in-place nest adds, to
the word of row `i` and column `j`, the terms `a[i,k] * b[k,j]` of its passes;
the nests differ only in the order in which they take those terms. -/
namespace MorelloWorkloads.MatrixMultiply
open CountedLoop FlatMemory Finset

variable {R : Type*} [CommRing R] {msize : ℤ} (a b c : ℤ → R)

/-- `c` holds the product of the row-major matrices `a` and `b`. -/
def IsProduct (msize : ℤ) (a b c : ℤ → R) : Prop :=
  ∀ i j, 0 ≤ i → i < msize → 0 ≤ j → j < msize →
    c (i * msize + j) = ∑ k ∈ Ico 0 msize, a (i * msize + k) * b (k * msize + j)

/-- The term that pass `(i, j, k)` of any nest adds to the word `x`. -/
def term (msize : ℤ) (a b : ℤ → R) (x i j k : ℤ) : R :=
  if i * msize + j = x then a (i * msize + k) * b (k * msize + j) else 0

/-- Row and column of a flat index are unique. -/
theorem index_inj {i j i' j' : ℤ} (hj : 0 ≤ j) (hjm : j < msize) (hj' : 0 ≤ j') (hjm' : j' < msize)
    (h : i' * msize + j' = i * msize + j) : i' = i ∧ j' = j := by
  have hm : 0 < msize := by omega
  have key (i j : ℤ) (hj : 0 ≤ j) (hjm : j < msize) : (i * msize + j) / msize = i := by
    rw [Int.add_comm, Int.add_mul_ediv_right _ _ hm.ne', Int.ediv_eq_zero_of_lt hj hjm, zero_add]
  have hi : i' = i := by rw [← key i' j' hj' hjm', h, key i j hj hjm]
  subst hi
  exact ⟨rfl, by omega⟩

theorem index_bounds {i j : ℤ} (hi : 0 ≤ i) (him : i < msize) (hj : 0 ≤ j) (hjm : j < msize) :
    0 ≤ i * msize + j ∧ i * msize + j < msize * msize := by
  have h₀ : 0 ≤ i * msize := mul_nonneg hi (by omega)
  have h₁ : (i + 1) * msize ≤ msize * msize := mul_le_mul_of_nonneg_right (by omega) (by omega)
  have h₂ : (i + 1) * msize = i * msize + msize := by ring
  omega

/-- All passes together add to `c[i, j]` the inner product of row and column. -/
theorem sum_terms {i j : ℤ} (hi : 0 ≤ i) (him : i < msize) (hj : 0 ≤ j) (hjm : j < msize) :
    ∑ i' ∈ Ico 0 msize, ∑ j' ∈ Ico 0 msize, ∑ k ∈ Ico 0 msize,
        term msize a b (i * msize + j) i' j' k =
      ∑ k ∈ Ico 0 msize, a (i * msize + k) * b (k * msize + j) := by
  have off {i' j' : ℤ} (hj' : j' ∈ Ico 0 msize) (h : ¬ (i' = i ∧ j' = j)) (k : ℤ) :
      term msize a b (i * msize + j) i' j' k = 0 := by
    have hb := mem_Ico.mp hj'
    exact if_neg fun eq => h (index_inj hj hjm hb.1 hb.2 eq)
  rw [sum_eq_single_of_mem i (mem_Ico.mpr ⟨hi, him⟩), sum_eq_single_of_mem j (mem_Ico.mpr ⟨hj, hjm⟩)]
  · exact sum_congr rfl fun k _ => if_pos rfl
  · intro j' hj' hne
    exact sum_eq_zero fun k _ => off hj' (by simp [hne]) k
  · intro i' _ hne
    exact sum_eq_zero fun j' hj' => sum_eq_zero fun k _ => off hj' (by simp [hne]) k

theorem dot_eq (i j lo hi : ℤ) :
    dot msize a b i j lo hi = ∑ k ∈ Ico lo hi, a (i * msize + k) * b (k * msize + j) := by
  rw [dot, loop_add, zero_add]

/-! ## What each in-place nest adds -/

theorem multiplyV3_adds {tile : ℤ} (ht : 0 < tile) (x : ℤ) :
    multiplyV3 msize a b c tile x = fill c (msize * msize) 0 x +
      ∑ i0 ∈ (trips 0 msize tile).toFinset, ∑ j0 ∈ (trips 0 msize tile).toFinset,
        ∑ k0 ∈ (trips 0 msize tile).toFinset, ∑ i ∈ Ico i0 (min (i0 + tile) msize),
          ∑ j ∈ Ico j0 (min (j0 + tile) msize),
            if i * msize + j = x then dot msize a b i j k0 (min (k0 + tile) msize) else 0 :=
  adds_loop ht (fun _ => adds_loop ht fun _ => adds_loop ht fun _ => adds_loop_one fun _ =>
    adds_loop_one fun _ => adds_bump _ _) _ x

theorem multiplyV4_adds (x : ℤ) :
    multiplyV4 msize a b c x = fill c (msize * msize) 0 x +
      ∑ i ∈ Ico 0 msize, ∑ k ∈ Ico 0 msize, ∑ j ∈ Ico 0 msize, term msize a b x i j k :=
  adds_loop_one (fun _ => adds_loop_one fun _ => adds_loop_one fun _ => adds_bump _ _) _ x

theorem multiplyV5_adds (x : ℤ) :
    multiplyV5 msize a b c x = fill c (msize * msize) 0 x +
      ∑ j ∈ Ico 0 msize, ∑ k ∈ Ico 0 msize, ∑ i ∈ Ico 0 msize, term msize a b x i j k :=
  adds_loop_one (fun _ => adds_loop_one fun _ => adds_loop_one fun _ => adds_bump _ _) _ x

/-! ## What each kernel leaves at row `i` and column `j` -/

/-- The stores of `multiplyV1`: one to each word, in row order. -/
theorem multiplyV1_stores :
    multiplyV1 msize a b c = runAll c ((trips 0 msize 1).flatMap fun i =>
      (trips 0 msize 1).map fun j => ⟨i * msize + j, fun _ => dot msize a b i j 0 msize⟩) := by
  rw [← foldl_runAll]
  simp only [runAll, List.foldl_map]
  rfl

theorem multiplyV1_isProduct : IsProduct msize a b (multiplyV1 msize a b c) := by
  intro i j hi him hj hjm
  have inRow (j' : ℤ) (h : j' ∈ trips 0 msize 1) : 0 ≤ j' ∧ j' < msize := mem_trips_one.mp h
  rw [multiplyV1_stores, runAll_flatMap_owner (trips_nodup one_pos) (mem_trips_one.mpr ⟨hi, him⟩)]
  · let store (j : ℤ) : Edit ℤ R := ⟨i * msize + j, fun _ => dot msize a b i j 0 msize⟩
    have distinct : (((trips 0 msize 1).map store).map Edit.addr).Nodup := by
      rw [List.map_map]
      exact (trips_nodup one_pos).map fun _ _ h => add_left_cancel h
    have mem : store j ∈ (trips 0 msize 1).map store :=
      List.mem_map_of_mem (mem_trips_one.mpr ⟨hj, hjm⟩)
    exact (runAll_of_mem distinct mem c).trans (dot_eq a b i j 0 msize)
  · intro i' _ hne e he eq
    obtain ⟨j', hj', rfl⟩ := List.mem_map.mp he
    exact hne (index_inj hj hjm (inRow j' hj').1 (inRow j' hj').2 eq).1

theorem multiplyV3_isProduct {tile : ℤ} (ht : 1 ≤ tile) :
    IsProduct msize a b (multiplyV3 msize a b c tile) := by
  intro i j hi him hj hjm
  have ht' : 0 < tile := by omega
  let tiles := (trips 0 msize tile).toFinset
  let within (t : ℤ) := Ico t (min (t + tile) msize)
  let f := term msize a b (i * msize + j)
  have inner (i' j' k0 : ℤ) :
      (if i' * msize + j' = i * msize + j then dot msize a b i' j' k0 (min (k0 + tile) msize)
        else 0) = ∑ k ∈ within k0, f i' j' k := by
    by_cases h : i' * msize + j' = i * msize + j
    · rw [if_pos h, dot_eq]
      exact sum_congr rfl fun k _ => (if_pos h).symm
    · rw [if_neg h]
      exact (sum_eq_zero fun k _ => if_neg h).symm
  have reorder :
      ∑ i0 ∈ tiles, ∑ j0 ∈ tiles, ∑ k0 ∈ tiles, ∑ i' ∈ within i0, ∑ j' ∈ within j0,
          ∑ k ∈ within k0, f i' j' k =
        ∑ i0 ∈ tiles, ∑ i' ∈ within i0, ∑ j0 ∈ tiles, ∑ j' ∈ within j0, ∑ k0 ∈ tiles,
          ∑ k ∈ within k0, f i' j' k := by
    apply sum_congr rfl
    intro i0 _
    calc ∑ j0 ∈ tiles, ∑ k0 ∈ tiles, ∑ i' ∈ within i0, ∑ j' ∈ within j0,
            ∑ k ∈ within k0, f i' j' k
        = ∑ j0 ∈ tiles, ∑ i' ∈ within i0, ∑ k0 ∈ tiles, ∑ j' ∈ within j0,
            ∑ k ∈ within k0, f i' j' k := sum_congr rfl fun _ _ => sum_comm
      _ = ∑ i' ∈ within i0, ∑ j0 ∈ tiles, ∑ k0 ∈ tiles, ∑ j' ∈ within j0,
            ∑ k ∈ within k0, f i' j' k := sum_comm
      _ = ∑ i' ∈ within i0, ∑ j0 ∈ tiles, ∑ j' ∈ within j0, ∑ k0 ∈ tiles,
            ∑ k ∈ within k0, f i' j' k :=
          sum_congr rfl fun _ _ => sum_congr rfl fun _ _ => sum_comm
  rw [multiplyV3_adds a b c ht', fill, if_pos (index_bounds hi him hj hjm), zero_add]
  simp only [inner]
  rw [reorder]
  simp only [tiles, within, sum_tiles ht' 0 msize]
  exact sum_terms a b hi him hj hjm

theorem multiplyV4_isProduct : IsProduct msize a b (multiplyV4 msize a b c) := by
  intro i j hi him hj hjm
  rw [multiplyV4_adds, fill, if_pos (index_bounds hi him hj hjm), zero_add,
    ← sum_terms a b hi him hj hjm]
  exact sum_congr rfl fun _ _ => sum_comm

theorem multiplyV5_isProduct : IsProduct msize a b (multiplyV5 msize a b c) := by
  intro i j hi him hj hjm
  rw [multiplyV5_adds, fill, if_pos (index_bounds hi him hj hjm), zero_add,
    ← sum_terms a b hi him hj hjm]
  calc ∑ j' ∈ Ico 0 msize, ∑ k ∈ Ico 0 msize, ∑ i' ∈ Ico 0 msize,
          term msize a b (i * msize + j) i' j' k
      = ∑ j' ∈ Ico 0 msize, ∑ i' ∈ Ico 0 msize, ∑ k ∈ Ico 0 msize,
          term msize a b (i * msize + j) i' j' k := sum_congr rfl fun _ _ => sum_comm
    _ = ∑ i' ∈ Ico 0 msize, ∑ j' ∈ Ico 0 msize, ∑ k ∈ Ico 0 msize,
          term msize a b (i * msize + j) i' j' k := sum_comm

/-- The five variants agree: whatever `c` held before and whether or not the
tile divides the size, each leaves the product. -/
theorem variants_compute_product {tile : ℤ} (ht : 1 ≤ tile) :
    IsProduct msize a b (multiplyV1 msize a b c) ∧
    IsProduct msize a b (multiplyV2 msize a b c) ∧
    IsProduct msize a b (multiplyV3 msize a b c tile) ∧
    IsProduct msize a b (multiplyV4 msize a b c) ∧
    IsProduct msize a b (multiplyV5 msize a b c) :=
  ⟨multiplyV1_isProduct a b c, multiplyV1_isProduct a b c, multiplyV3_isProduct a b c ht,
    multiplyV4_isProduct a b c, multiplyV5_isProduct a b c⟩

/-- A size that the tile does not divide, with a dirty output buffer. -/
theorem variants_compute_product_ragged :
    let a : ℤ → ℤ := fun i => i
    let b : ℤ → ℤ := fun i => 2 * i + 1
    let c : ℤ → ℤ := fun _ => 7
    IsProduct 3 a b (multiplyV1 3 a b c) ∧
    IsProduct 3 a b (multiplyV2 3 a b c) ∧
    IsProduct 3 a b (multiplyV3 3 a b c 2) ∧
    IsProduct 3 a b (multiplyV4 3 a b c) ∧
    IsProduct 3 a b (multiplyV5 3 a b c) :=
  variants_compute_product _ _ _ (by decide)

end MorelloWorkloads.MatrixMultiply
