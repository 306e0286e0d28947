import Mathlib.Algebra.Order.Ring.Nat
import Mathlib.Tactic.Common

/-! Buffers that double when a test finds them too small for what is appended. -/
namespace Doubling

variable {base size len m : ℕ}

def grow (size needed : ℕ) : ℕ := if size < needed then size * 2 else size

/-- A capacity that doubling from `base` reaches for a content of this length. -/
structure Tight (base size len : ℕ) : Prop where
  room : len < size
  power : ∃ e, size = base * 2 ^ e
  half : size = base ∨ size < 2 * len

theorem Tight.start (room : len < base) : Tight base base len := ⟨room, ⟨0, by simp⟩, Or.inl rfl⟩

theorem double_le_power {f e : ℕ} (lt : f < e) (base : ℕ) : 2 * (base * 2 ^ f) ≤ base * 2 ^ e := by
  have powers : 2 ^ (f + 1) ≤ 2 ^ e := Nat.pow_le_pow_right two_pos lt
  calc 2 * (base * 2 ^ f) = base * 2 ^ (f + 1) := by rw [pow_succ, Nat.mul_left_comm, Nat.mul_comm 2]
    _ ≤ base * 2 ^ e := Nat.mul_le_mul_left base powers

theorem base_le_power (base e : ℕ) : base ≤ base * 2 ^ e :=
  Nat.le_mul_of_pos_right base (Nat.two_pow_pos e)

theorem Tight.base_le (tight : Tight base size len) : base ≤ size := by
  obtain ⟨e, power⟩ := tight.power
  rw [power]
  exact base_le_power base e

/-- If a short addition reaches any capacity at all, it reaches the present one. -/
theorem Tight.reaches (tight : Tight base size len) (small : 2 * m ≤ base) {e : ℕ}
    (reached : len + m = base * 2 ^ e) : size = len + m := by
  have least := tight.base_le
  have first := base_le_power base e
  obtain ⟨room, ⟨f, power⟩, half⟩ := tight
  rcases lt_trichotomy f e with less | rfl | more
  · have doubled := double_le_power less base
    omega
  · rw [power, reached]
  · have doubled := double_le_power more base
    omega

/-- One doubling makes room for the addition itself. -/
theorem Tight.le_grow (tight : Tight base size len) (small : 2 * m ≤ base) :
    len + m ≤ grow size (len + m) := by
  have room := tight.room
  have least := tight.base_le
  unfold grow
  split
  · omega
  · omega

/-- Tested without room for a terminator, an addition leaves none exactly when the
new length is a capacity. -/
theorem Tight.append_fits_iff (tight : Tight base size len) (small : 2 * m ≤ base) :
    len + m < grow size (len + m) ↔ ∀ e, len + m ≠ base * 2 ^ e := by
  have room := tight.room
  have least := tight.base_le
  unfold grow
  split
  · rename_i short
    constructor
    · intro _ e reached
      exact absurd (tight.reaches small reached) short.ne
    · intro _
      omega
  · rename_i enough
    constructor
    · intro fits e reached
      exact absurd (tight.reaches small reached) fits.ne'
    · intro misses
      obtain ⟨e, power⟩ := tight.power
      have other := misses e
      omega

theorem Tight.append (tight : Tight base size len) (fits : len + m < grow size (len + m)) :
    Tight base (grow size (len + m)) (len + m) := by
  obtain ⟨room, ⟨e, power⟩, half⟩ := tight
  refine ⟨fits, ?_, ?_⟩
  · unfold grow
    split
    · exact ⟨e + 1, by rw [power, pow_succ, mul_assoc]⟩
    · exact ⟨e, power⟩
  · unfold grow
    split
    · right
      omega
    · cases half with
      | inl first =>
        exact Or.inl first
      | inr grown =>
        right
        omega

end Doubling
