import Mathlib.Data.Int.ConditionallyCompleteOrder
import Mathlib.Data.Int.Interval
import Mathlib.Order.CompletePartialOrder
import Mathlib.Order.Interval.Set.Disjoint
import Mathlib.Tactic.Linarith
import Mathlib.Tactic.Ring

/-! Cutting `[base, base + total)` into `n` consecutive slabs of equal height,
the last of which takes what the division leaves over. -/
namespace Slabs

/-- The height of a slab; clamped, so that no slab but the last is empty. -/
def chunk (total n : ℤ) : ℤ := if total / n < 1 then 1 else total / n

def first (total n base i : ℤ) : ℤ := i * chunk total n + base

def last (total n base i : ℤ) : ℤ :=
  if i = n - 1 then base + total else (i + 1) * chunk total n + base

theorem chunk_pos (total n : ℤ) : 0 < chunk total n := by
  unfold chunk
  split <;> omega

theorem chunk_eq_one {total n : ℤ} (h : total < n) (ht : 0 ≤ total) : chunk total n = 1 := by
  have : total / n = 0 := Int.ediv_eq_zero_of_lt ht h
  simp [chunk, this]

theorem mul_chunk_le {total n : ℤ} (hn : 1 ≤ n) (h : n ≤ total) : n * chunk total n ≤ total := by
  have hq : 1 ≤ total / n := (Int.le_ediv_iff_mul_le (by omega)).mpr (by omega)
  have : chunk total n = total / n := by
    unfold chunk
    rw [if_neg (by omega)]
  rw [this]
  exact Int.mul_ediv_self_le (by omega)

/-- The division alone makes slabs of more than one. -/
theorem le_chunk_iff {total n k : ℤ} (hn : 1 ≤ n) (hk : 1 < k) :
    k ≤ chunk total n ↔ k * n ≤ total := by
  rw [← Int.le_ediv_iff_mul_le (by omega)]
  unfold chunk
  split <;> omega

theorem first_zero (total n base : ℤ) : first total n base 0 = base := by simp [first]

theorem base_le_first (total n base : ℤ) {i : ℤ} (hi : 0 ≤ i) : base ≤ first total n base i := by
  have := mul_nonneg hi (chunk_pos total n).le
  unfold first
  omega

/-- With at most one thread more than there are planes, the clamp leaves every
slab inside the interval. -/
theorem last_le {total n i : ℤ} (base : ℤ) (ht : 0 ≤ total) (hn : 1 ≤ n) (h : n ≤ total + 1)
    (hi : i < n) : last total n base i ≤ base + total := by
  unfold last
  split
  · exact le_rfl
  · rename_i hl
    have hc := chunk_pos total n
    have hstep : (i + 1) * chunk total n ≤ (n - 1) * chunk total n :=
      mul_le_mul_of_nonneg_right (by omega) hc.le
    rcases lt_or_eq_of_le h with hlt | rfl
    · have hall := mul_chunk_le hn (show n ≤ total by omega)
      have : (n - 1) * chunk total n = n * chunk total n - chunk total n := by ring
      omega
    · rw [chunk_eq_one (by omega) ht] at hstep ⊢
      omega

/-- The slabs stay inside the interval exactly when there is at most one thread
more than there are planes: from the next one on a clamped slab lies above it. -/
theorem inside_iff {total n : ℤ} (base : ℤ) (ht : 0 ≤ total) (hn : 1 ≤ n) :
    (∀ i, 0 ≤ i → i < n → first total n base i < last total n base i →
      base ≤ first total n base i ∧ last total n base i ≤ base + total) ↔ n ≤ total + 1 := by
  constructor
  · intro inside
    by_contra h
    have hc : chunk total n = 1 := chunk_eq_one (by omega) ht
    have hlast : last total n base total = total + 1 + base := by
      unfold last
      rw [if_neg (by omega), hc]
      omega
    have hfirst : first total n base total = total + base := by
      unfold first
      rw [hc]
      omega
    have := inside total ht (by omega) (by omega)
    omega
  · intro h i hi hin _
    exact ⟨base_le_first total n base hi, last_le base ht hn h hin⟩

/-- The first slab is never empty and starts at the base. -/
theorem base_lt_last_zero {total n : ℤ} (base : ℤ) (ht : 0 < total) : base < last total n base 0 := by
  have := chunk_pos total n
  unfold last
  split <;> omega

/-- With no more threads than planes every slab has one. -/
theorem first_lt_last {total n i : ℤ} (base : ℤ) (hn : 1 ≤ n) (h : n ≤ total) :
    first total n base i < last total n base i := by
  have hc := chunk_pos total n
  have hall := mul_chunk_le hn h
  unfold first last
  split
  · rename_i hl
    have : i * chunk total n = n * chunk total n - chunk total n := by
      rw [hl]
      ring
    omega
  · have : (i + 1) * chunk total n = i * chunk total n + chunk total n := by ring
    omega

/-! ## The slabs as a partition -/

def slab (total n base i : ℤ) : Set ℤ := Set.Ico (first total n base i) (last total n base i)

/-- No point lies in two of the `n` parts, and together they are the whole. -/
structure Partition (part : ℤ → Set ℤ) (n : ℤ) (whole : Set ℤ) : Prop where
  disjoint : ∀ i j, 0 ≤ i → i < n → 0 ≤ j → j < n → i ≠ j → Disjoint (part i) (part j)
  cover : ⋃ i ∈ Set.Ico 0 n, part i = whole

/-- A slab ends no higher than the next one starts. -/
theorem last_le_first (total base : ℤ) {n i j : ℤ} (hij : i < j) (hj : j < n) :
    last total n base i ≤ first total n base j := by
  have step : (i + 1) * chunk total n ≤ j * chunk total n :=
    mul_le_mul_of_nonneg_right hij (chunk_pos total n).le
  unfold last first
  rw [if_neg (by omega)]
  omega

theorem disjoint_of_lt (total base : ℤ) {n i j : ℤ} (hij : i < j) (hj : j < n) :
    Disjoint (slab total n base i) (slab total n base j) := by
  rw [slab, slab, Set.Ico_disjoint_Ico]
  calc min (last total n base i) (last total n base j) ≤ last total n base i := min_le_left _ _
    _ ≤ first total n base j := last_le_first total base hij hj
    _ ≤ max (first total n base i) (first total n base j) := le_max_right _ _

/-- No point of the interval is left out: the one that the last full slab
leaves over goes to the last thread. -/
theorem exists_slab {total n base v : ℤ} (hn : 1 ≤ n) (hv : base ≤ v ∧ v < base + total) :
    ∃ i, 0 ≤ i ∧ i < n ∧ v ∈ slab total n base i := by
  have hc := chunk_pos total n
  have below : (v - base) / chunk total n * chunk total n ≤ v - base := Int.ediv_mul_le _ hc.ne'
  have above : v - base < ((v - base) / chunk total n + 1) * chunk total n :=
    Int.lt_ediv_add_one_mul_self _ hc
  by_cases h : (v - base) / chunk total n < n - 1
  · refine ⟨(v - base) / chunk total n, Int.ediv_nonneg (by omega) hc.le, by omega, ?_, ?_⟩
    · unfold first
      omega
    · rw [last, if_neg (by omega)]
      omega
  · have lowest : (n - 1) * chunk total n ≤ (v - base) / chunk total n * chunk total n :=
      mul_le_mul_of_nonneg_right (by omega) hc.le
    refine ⟨n - 1, by omega, by omega, ?_, ?_⟩
    · unfold first
      omega
    · rw [last, if_pos rfl]
      exact hv.2

/-- Disjoint the slabs are for any number of threads; what fails with too many
is that they stay inside. -/
theorem partition_iff {total n : ℤ} (base : ℤ) (ht : 0 ≤ total) (hn : 1 ≤ n) :
    Partition (slab total n base) n (Set.Ico base (base + total)) ↔ n ≤ total + 1 := by
  rw [← inside_iff base ht hn]
  constructor
  · intro h i hi hin nonempty
    have sub : slab total n base i ⊆ Set.Ico base (base + total) := by
      rw [← h.cover]
      exact Set.subset_biUnion_of_mem (u := slab total n base) ⟨hi, hin⟩
    exact (Set.Ico_subset_Ico_iff nonempty).mp sub
  · intro inside
    constructor
    · intro i j hi hin hj hjn hne
      cases lt_or_gt_of_ne hne with
      | inl hlt =>
        exact disjoint_of_lt total base hlt hjn
      | inr hgt =>
        exact (disjoint_of_lt total base hgt hin).symm
    · ext v
      simp only [Set.mem_iUnion, Set.mem_Ico, exists_prop]
      constructor
      · rintro ⟨i, ⟨hi, hin⟩, hv⟩
        have hb := inside i hi hin (hv.1.trans_lt hv.2)
        exact ⟨hb.1.trans hv.1, hv.2.trans_le hb.2⟩
      · intro hv
        obtain ⟨i, hi, hin, hm⟩ := exists_slab hn hv
        exact ⟨i, ⟨hi, hin⟩, hm⟩

end Slabs
