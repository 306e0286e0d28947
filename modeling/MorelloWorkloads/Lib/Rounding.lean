import Mathlib.Data.Int.Log
import Mathlib.Data.Rat.Floor
import Mathlib.Algebra.Order.Floor.Ring
import Mathlib.Tactic.Linarith

/-! Rounding to a binary floating-point format of `p` digits, to the nearest number and from
the middle between two to the even one. The exponent is unbounded. -/
namespace Rounding

variable {p : ℕ} {x y : ℚ}

def nearestEven (x : ℚ) : ℤ :=
  if x - ⌊x⌋ < 1 / 2 then ⌊x⌋
  else if 1 / 2 < x - ⌊x⌋ then ⌊x⌋ + 1
  else if ⌊x⌋ % 2 = 0 then ⌊x⌋ else ⌊x⌋ + 1

/-- The distance of the numbers of the format around `x`. -/
def quantum (p : ℕ) (x : ℚ) : ℚ := 2 ^ (Int.log 2 |x| + 1 - p)

def toFloat (p : ℕ) (x : ℚ) : ℚ := nearestEven (x / quantum p x) * quantum p x

theorem floor_le_nearestEven (x : ℚ) : ⌊x⌋ ≤ nearestEven x := by
  unfold nearestEven
  split_ifs <;> omega

theorem nearestEven_le_succ (x : ℚ) : nearestEven x ≤ ⌊x⌋ + 1 := by
  unfold nearestEven
  split_ifs <;> omega

theorem nearestEven_intCast (n : ℤ) : nearestEven n = n := by
  simp [nearestEven]

theorem nearestEven_mono (le : x ≤ y) : nearestEven x ≤ nearestEven y := by
  cases (Int.floor_mono le).eq_or_lt with
  | inl same =>
    have fractions : x - ⌊x⌋ ≤ y - ⌊y⌋ := by
      rw [same]
      exact sub_le_sub_right le _
    unfold nearestEven
    rw [same] at fractions ⊢
    split_ifs <;> first | omega | linarith
  | inr less =>
    exact (nearestEven_le_succ x).trans ((Int.add_one_le_iff.mpr less).trans (floor_le_nearestEven y))

theorem nearestEven_eq {n : ℤ} (near : |x - n| < 1 / 2) : nearestEven x = n := by
  obtain ⟨above, below⟩ := abs_lt.mp near
  by_cases low : (n : ℚ) ≤ x
  · have floor : ⌊x⌋ = n := Int.floor_eq_iff.mpr ⟨low, by linarith⟩
    rw [nearestEven, floor, if_pos below]
  · have floor : ⌊x⌋ = n - 1 := by
      apply Int.floor_eq_iff.mpr
      push_cast
      constructor <;> linarith
    have beyond : (1 : ℚ) / 2 < x - ⌊x⌋ := by
      rw [floor]
      push_cast
      linarith
    rw [nearestEven, if_neg (not_lt.mpr beyond.le), if_pos beyond, floor]
    omega

theorem quantum_pos (p : ℕ) (x : ℚ) : 0 < quantum p x := zpow_pos two_pos _

theorem quantum_eq {k : ℤ} (low : 2 ^ k ≤ |x|) (high : |x| < 2 ^ (k + 1)) :
    quantum p x = 2 ^ (k + 1 - p) := by
  have positive : 0 < |x| := (zpow_pos two_pos k).trans_le low
  have least : k ≤ Int.log 2 |x| :=
    (Int.zpow_le_iff_le_log Nat.one_lt_two positive).mp (by exact_mod_cast low)
  have most : Int.log 2 |x| < k + 1 :=
    (Int.lt_zpow_iff_log_lt Nat.one_lt_two positive).mp (by exact_mod_cast high)
  have log : Int.log 2 |x| = k := by omega
  rw [quantum, log]

theorem toFloat_zero (p : ℕ) : toFloat p 0 = 0 := by
  simp [toFloat, nearestEven]

/-- Below `2 ^ p` the integers are numbers of the format. -/
theorem intCast_div_quantum (nonzero : x ≠ 0) (small : |x| < 2 ^ p) (n : ℤ) :
    ∃ k : ℤ, (n : ℚ) / quantum p x = k := by
  have log : Int.log 2 |x| < p :=
    (Int.lt_zpow_iff_log_lt Nat.one_lt_two (abs_pos.mpr nonzero)).mp (by exact_mod_cast small)
  obtain ⟨k, digits⟩ := Int.eq_ofNat_of_zero_le (show 0 ≤ (p : ℤ) - Int.log 2 |x| - 1 by omega)
  have exponent : Int.log 2 |x| + 1 - p = -(k : ℤ) := by omega
  refine ⟨n * 2 ^ k, ?_⟩
  rw [quantum, exponent, zpow_neg, div_inv_eq_mul, zpow_natCast]
  push_cast
  rfl

theorem toFloat_intCast {n : ℤ} (small : |n| < 2 ^ p) : toFloat p n = n := by
  by_cases zero : n = 0
  · simp [zero, toFloat_zero]
  · obtain ⟨k, here⟩ := intCast_div_quantum (x := (n : ℚ)) (by exact_mod_cast zero)
      (by exact_mod_cast small) n
    rw [toFloat, here, nearestEven_intCast, ← here, div_mul_cancel₀ _ (quantum_pos p n).ne']

theorem toFloat_le_intCast {n : ℤ} (nonneg : 0 ≤ x) (le : x ≤ n) (small : n < 2 ^ p) :
    toFloat p x ≤ n := by
  by_cases zero : x = 0
  · rw [zero, toFloat_zero, ← zero]
    exact le
  · have below : |x| < 2 ^ p := by
      rw [abs_of_nonneg nonneg]
      exact le.trans_lt (by exact_mod_cast small)
    obtain ⟨k, here⟩ := intCast_div_quantum zero below n
    have positive := quantum_pos p x
    have rounded : nearestEven (x / quantum p x) ≤ k := by
      rw [← nearestEven_intCast k, ← here]
      exact nearestEven_mono (div_le_div_of_nonneg_right le positive.le)
    have scaled : (nearestEven (x / quantum p x) : ℚ) ≤ n / quantum p x := by
      rw [here]
      exact_mod_cast rounded
    exact (le_div_iff₀ positive).mp scaled

theorem toFloat_eq {k n : ℤ} (low : 2 ^ k ≤ |x|) (high : |x| < 2 ^ (k + 1))
    (near : |x / 2 ^ (k + 1 - p) - n| < 1 / 2) : toFloat p x = n * 2 ^ (k + 1 - p) := by
  rw [toFloat, quantum_eq low high, nearestEven_eq near]

end Rounding
