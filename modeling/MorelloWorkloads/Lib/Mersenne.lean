import Mathlib.Algebra.Order.Ring.Nat
import Mathlib.Data.Nat.ModEq
import Mathlib.Logic.Function.Iterate
import Mathlib.Tactic.Linarith
import Mathlib.Tactic.Ring

/-! Multiplication modulo `2 ^ b - 1` without a division: the high part of the
product is added to its low `b` bits, and one subtraction may follow. -/
namespace Mersenne

variable {b a s x : ℕ}

/-- The part of `x` above its low `b` bits, added to those bits. -/
def fold (b x : ℕ) : ℕ := x / 2 ^ b + x % 2 ^ b

def reduce (b x : ℕ) : ℕ := if 2 ^ b - 1 < fold b x then fold b x - (2 ^ b - 1) else fold b x

theorem fold_modEq (b x : ℕ) : fold b x ≡ x [MOD 2 ^ b - 1] := by
  have one : 2 ^ b ≡ 1 [MOD 2 ^ b - 1] :=
    ((Nat.modEq_iff_dvd' Nat.one_le_two_pow).mpr dvd_rfl).symm
  have parts := ((one.mul_right (x / 2 ^ b)).add_right (x % 2 ^ b)).symm
  rwa [one_mul, Nat.div_add_mod] at parts

/-- Below `2 ^ b` multiples of the modulus, the fold is below two of it. -/
theorem fold_lt (small : x < 2 ^ b * (2 ^ b - 1)) : fold b x < 2 * (2 ^ b - 1) := by
  have high : x / 2 ^ b < 2 ^ b - 1 := Nat.div_lt_of_lt_mul small
  have low : x % 2 ^ b < 2 ^ b := Nat.mod_lt x (Nat.two_pow_pos b)
  simp only [fold]
  omega

/-- Unless the modulus divides `x`, the fold misses both `0` and the modulus, so
that one subtraction gives the remainder. -/
theorem reduce_eq_mod (small : x < 2 ^ b * (2 ^ b - 1)) (free : ¬ 2 ^ b - 1 ∣ x) :
    reduce b x = x % (2 ^ b - 1) := by
  have bound := fold_lt small
  have same : fold b x % (2 ^ b - 1) = x % (2 ^ b - 1) := fold_modEq b x
  have off : fold b x ≠ 2 ^ b - 1 := by
    intro eq
    rw [eq, Nat.mod_self] at same
    exact free (Nat.dvd_of_mod_eq_zero same.symm)
  rw [reduce, ← same]
  split
  · rename_i above
    rw [Nat.mod_eq_sub_mod above.le, Nat.mod_eq_of_lt (by omega)]
  · exact (Nat.mod_eq_of_lt (by omega)).symm

/-- A product with a factor prime to the modulus stays away from the multiples
of the modulus. -/
theorem free_mul (coprime : Nat.Coprime a (2 ^ b - 1)) (pos : 0 < s) (lt : s < 2 ^ b - 1) :
    ¬ 2 ^ b - 1 ∣ s * a := by
  intro divides
  have whole : 2 ^ b - 1 ∣ s := coprime.symm.dvd_of_dvd_mul_right divides
  exact absurd (Nat.le_of_dvd pos whole) (not_le.mpr lt)

theorem mod_pos (free : ¬ 2 ^ b - 1 ∣ x) : 0 < x % (2 ^ b - 1) :=
  Nat.pos_of_ne_zero fun zero => free (Nat.dvd_of_mod_eq_zero zero)

/-- One step of the generator, on a seed strictly between `0` and the modulus. -/
theorem reduce_mul (small : a ≤ 2 ^ b) (coprime : Nat.Coprime a (2 ^ b - 1)) (pos : 0 < s)
    (lt : s < 2 ^ b - 1) : reduce b (s * a) = s * a % (2 ^ b - 1) := by
  apply reduce_eq_mod
  · calc s * a ≤ s * 2 ^ b := Nat.mul_le_mul_left s small
      _ < (2 ^ b - 1) * 2 ^ b := Nat.mul_lt_mul_of_pos_right lt (Nat.two_pow_pos b)
      _ = 2 ^ b * (2 ^ b - 1) := Nat.mul_comm _ _
  · exact free_mul coprime pos lt

/-- Every seed of a run is the start times a power of the multiplier, and lies
strictly between `0` and the modulus. -/
theorem power_seed (coprime : Nat.Coprime a (2 ^ b - 1)) (pos : 0 < s) (lt : s < 2 ^ b - 1) (k : ℕ) :
    0 < s * a ^ k % (2 ^ b - 1) ∧ s * a ^ k % (2 ^ b - 1) < 2 ^ b - 1 :=
  ⟨mod_pos (free_mul (coprime.pow_left k) pos lt), Nat.mod_lt _ (by omega)⟩

end Mersenne
