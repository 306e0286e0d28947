import Mathlib.Algebra.Order.Ring.Int
import Mathlib.Tactic.Linarith
import Mathlib.Tactic.LinearCombination
import Mathlib.Tactic.Ring

/-! Digits of a quotient in base `B`, for a divisor whose first digit is at least half of
the base: from a reciprocal of the divisor, and from the first digits of the numbers. -/
namespace QuotientDigits

variable {B d v e high low q : ℤ}

/-- Where the reciprocal `v` of `d` is `(B * B - 1) / d - B`, the product with the high digit
gives the quotient of `high * B + low` or one less; here for a low digit below the half. -/
theorem reciprocal_low (inverse : (v + B) * d + 1 + e = B * B) (he : 0 ≤ e ∧ e < d) (half : B ≤ 2 * d)
    (small : d ≤ B) (hhigh : 0 ≤ high ∧ high < d) (hlow : 0 ≤ low ∧ 2 * low < B)
    (below : B * q ≤ (v + B) * high + low) (above : (v + B) * high + low < B * (q + 1)) :
    q * d ≤ high * B + low ∧ high * B + low < (q + 2) * d := by
  have positive : 0 < B := by linarith
  have product : ((v + B) * high + low) * d = high * (B * B - 1 - e) + low * d := by
    linear_combination high * inverse
  constructor
  · refine le_of_mul_le_mul_left ?_ positive
    have scaled := mul_le_mul_of_nonneg_right below (he.1.trans he.2.le)
    have lost : 0 ≤ high * (1 + e) := mul_nonneg hhigh.1 (by linarith)
    have short : low * d ≤ low * B := mul_le_mul_of_nonneg_left small hlow.1
    linarith
  · refine lt_of_mul_lt_mul_left ?_ positive.le
    have scaled := mul_le_mul_of_nonneg_right (Int.add_one_le_of_lt above) (he.1.trans he.2.le)
    have lost : high * (1 + e) ≤ (d - 1) * d :=
      mul_le_mul (by linarith) (by linarith) (by linarith) (by linarith)
    have short : 2 * (low * (B - d)) ≤ B * (B - d) := by nlinarith
    have whole : B * (B - d) ≤ 2 * d * (B - d) := mul_le_mul_of_nonneg_right half (by linarith)
    linarith

/-- The same for a low digit from the half on, where the divisor is added before. -/
theorem reciprocal_high (inverse : (v + B) * d + 1 + e = B * B) (he : 0 ≤ e ∧ e < d) (half : B ≤ 2 * d)
    (small : d ≤ B) (hhigh : 0 ≤ high ∧ high < d) (hlow : B ≤ 2 * low ∧ low < B)
    (below : B * q ≤ (v + B) * (high + 1) + low + d - 2 * B)
    (above : (v + B) * (high + 1) + low + d - 2 * B < B * (q + 1)) :
    q * d ≤ high * B + low ∧ high * B + low < (q + 2) * d := by
  have positive : 0 < B := by linarith
  have product : ((v + B) * (high + 1) + low + d - 2 * B) * d =
      (high + 1) * (B * B - 1 - e) + low * d + d * d - 2 * B * d := by
    linear_combination (high + 1) * inverse
  constructor
  · refine le_of_mul_le_mul_left ?_ positive
    have scaled := mul_le_mul_of_nonneg_right below (he.1.trans he.2.le)
    have lost : 0 ≤ (high + 1) * (1 + e) := mul_nonneg (by linarith) (by linarith)
    have gain : 0 ≤ (B - d) * (low - (B - d)) := mul_nonneg (by linarith) (by linarith)
    linarith
  · refine lt_of_mul_lt_mul_left ?_ positive.le
    have scaled := mul_le_mul_of_nonneg_right (Int.add_one_le_of_lt above) (he.1.trans he.2.le)
    have lost : (high + 1) * (1 + e) ≤ d * d :=
      mul_le_mul (by linarith) (by linarith) (by linarith) (by linarith)
    have gain : (B - d) * (low - (B - d)) ≤ (B - d) * (d - 1) :=
      mul_le_mul_of_nonneg_left (by linarith) (by linarith)
    linarith

variable {P b l u r : ℤ}

/-- A digit that is the quotient of the first digits, or the largest one where that has no
room, is at least the quotient's digit and exceeds it by two at most. `b` and `u` are the
first digits of the divisor `b * P + l` and the first two of `u * P + r`. -/
theorem estimate (half : B ≤ 2 * b) (hl : 0 ≤ l ∧ l < P) (hr : 0 ≤ r ∧ r < P)
    (hq : 0 ≤ q ∧ q < B) (below : q * b ≤ u) (above : u < (q + 1) * b ∨ q = B - 1)
    (room : u * P + r < B * (b * P + l)) :
    q * (b * P + l) < u * P + r + 2 * (b * P + l) ∧
      u * P + r < (q + 1) * (b * P + l) := by
  have positive : 0 < P := hl.1.trans_lt hl.2
  constructor
  · have front : q * b * P ≤ u * P := mul_le_mul_of_nonneg_right below positive.le
    have back : q * l ≤ q * P := mul_le_mul_of_nonneg_left hl.2.le hq.1
    have digit : (q + 1) * P ≤ 2 * b * P := mul_le_mul_of_nonneg_right (by linarith) positive.le
    linarith
  · cases above with
    | inl above =>
      have front : (u + 1) * P ≤ (q + 1) * b * P := mul_le_mul_of_nonneg_right above positive.le
      have back : 0 ≤ (q + 1) * l := mul_nonneg (by linarith) hl.1
      linarith
    | inr last =>
      rw [last, sub_add_cancel]
      exact room

end QuotientDigits
