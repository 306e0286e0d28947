import Mathlib.Algebra.BigOperators.Field
import Mathlib.Algebra.BigOperators.Fin
import Mathlib.Algebra.Field.Basic
import Mathlib.Algebra.CharZero.Defs
import Mathlib.Data.Fintype.BigOperators
import Mathlib.Tactic.FieldSimp
import Mathlib.Tactic.LinearCombination
import Mathlib.Tactic.Ring

/-! Lattice Boltzmann collision: populations move along the directions of a
lattice and relax towards a local equilibrium of second order. -/
namespace LatticeBoltzmann

open Finset

/-- A finite set of directions, closed under reversal. -/
structure Lattice (D K : Type*) where
  velocity : D → Fin 3 → ℤ
  weight : D → K
  opposite : D → D
  velocity_opposite : ∀ d a, velocity (opposite d) a = -velocity d a
  weight_opposite : ∀ d, weight (opposite d) = weight d

namespace Lattice
variable {D K : Type*} [Field K] (L : Lattice D K)

def density [Fintype D] (f : D → K) : K := ∑ d, f d

def momentum [Fintype D] (f : D → K) (a : Fin 3) : K := ∑ d, (L.velocity d a : K) * f d

def dot (d : D) (u : Fin 3 → K) : K := ∑ a, (L.velocity d a : K) * u a

def equilibrium (rho : K) (u : Fin 3 → K) (d : D) : K :=
  L.weight d * rho * (1 + 3 * L.dot d u + 9 / 2 * L.dot d u ^ 2 - 3 / 2 * ∑ a, u a ^ 2)

/-- The parts of a distribution that reversal keeps and negates. -/
def even (f : D → K) (d : D) : K := (f d + f (L.opposite d)) / 2

def odd (f : D → K) (d : D) : K := (f d - f (L.opposite d)) / 2

/-- Relaxation with one rate. -/
def bgk (omega : K) (f feq : D → K) (d : D) : K := (1 - omega) * f d + omega * feq d

/-- Relaxation with one rate for the even and one for the odd part. -/
def trt (omega lambda : K) (f feq : D → K) (d : D) : K :=
  f d - omega * (L.even f d - L.even feq d) - lambda * (L.odd f d - L.odd feq d)

theorem dot_opposite (d : D) (u : Fin 3 → K) : L.dot (L.opposite d) u = -L.dot d u := by
  simp [dot, L.velocity_opposite, neg_mul]

section Moments
variable {L} [Fintype D]

theorem density_bgk (omega : K) {f feq : D → K} (h : density feq = density f) :
    density (bgk omega f feq) = density f := by
  simp only [density, bgk] at h ⊢
  rw [sum_add_distrib, ← mul_sum, ← mul_sum, h]
  ring

theorem momentum_bgk (omega : K) {f feq : D → K} {a : Fin 3}
    (h : L.momentum feq a = L.momentum f a) : L.momentum (bgk omega f feq) a = L.momentum f a := by
  have parts : L.momentum (bgk omega f feq) a =
      (1 - omega) * L.momentum f a + omega * L.momentum feq a := by
    simp only [momentum, bgk, mul_sum]
    rw [← sum_add_distrib]
    exact sum_congr rfl fun d _ => by ring
  rw [parts, h]
  ring

end Moments

/-- Reversal is an involution, and the weights are normalised and isotropic of
second order; that the odd moments vanish then follows. -/
structure Isotropic [Fintype D] : Prop where
  opposite_opposite : ∀ d, L.opposite (L.opposite d) = d
  weight_sum : ∑ d, L.weight d = 1
  weight_second : ∀ a b,
    ∑ d, L.weight d * ((L.velocity d a : K) * L.velocity d b) = if a = b then 1 / 3 else 0

section Reversal
variable {L} [Fintype D] (iso : L.Isotropic)
include iso

theorem sum_opposite (f : D → K) : ∑ d, f (L.opposite d) = ∑ d, f d :=
  Equiv.sum_comp (Function.Involutive.toPerm L.opposite iso.opposite_opposite) f

theorem density_reversed (f : D → K) : density (fun d => f (L.opposite d)) = density f :=
  sum_opposite iso f

theorem momentum_reversed (f : D → K) (a : Fin 3) :
    L.momentum (fun d => f (L.opposite d)) a = -L.momentum f a := by
  rw [momentum, momentum, ← sum_opposite iso fun d => (L.velocity d a : K) * f d,
    ← sum_neg_distrib]
  refine sum_congr rfl fun d _ => ?_
  rw [L.velocity_opposite]
  push_cast
  ring

theorem even_involution {f : D → K} (d : D) : L.even f (L.opposite d) = L.even f d := by
  simp only [even, iso.opposite_opposite]
  ring

theorem odd_involution {f : D → K} (d : D) : L.odd f (L.opposite d) = -L.odd f d := by
  simp only [odd, iso.opposite_opposite]
  ring

end Reversal

variable [CharZero K]

theorem even_equilibrium (rho : K) (u : Fin 3 → K) (d : D) :
    L.even (L.equilibrium rho u) d =
      L.weight d * rho * (1 + 9 / 2 * L.dot d u ^ 2 - 3 / 2 * ∑ a, u a ^ 2) := by
  simp only [even, equilibrium, L.dot_opposite, L.weight_opposite]
  ring

theorem odd_equilibrium (rho : K) (u : Fin 3 → K) (d : D) :
    L.odd (L.equilibrium rho u) d = L.weight d * rho * (3 * L.dot d u) := by
  simp only [odd, equilibrium, L.dot_opposite, L.weight_opposite]
  ring

/-! ## What a collision conserves -/

variable {L} [Fintype D] (iso : L.Isotropic)
include iso

theorem sum_of_odd {f : D → K} (h : ∀ d, f (L.opposite d) = -f d) : ∑ d, f d = 0 := by
  have twice : ∑ d, f d = -∑ d, f d := by
    rw [← Finset.sum_neg_distrib, ← sum_opposite iso f]
    exact sum_congr rfl fun d _ => h d
  exact self_eq_neg.mp twice

theorem sum_even (f : D → K) : ∑ d, L.even f d = ∑ d, f d := by
  simp only [even]
  rw [← sum_div, sum_add_distrib, sum_opposite iso]
  ring

theorem sum_velocity_odd (f : D → K) (a : Fin 3) : L.momentum (L.odd f) a = L.momentum f a := by
  have evenPart : ∑ d, (L.velocity d a : K) * L.even f d = 0 := by
    apply sum_of_odd iso
    intro d
    simp only [even, L.velocity_opposite, iso.opposite_opposite]
    push_cast
    ring
  calc L.momentum (L.odd f) a
      = ∑ d, (L.velocity d a : K) * L.odd f d + ∑ d, (L.velocity d a : K) * L.even f d := by
        rw [evenPart, add_zero, momentum]
    _ = L.momentum f a := by
        rw [← sum_add_distrib, momentum]
        refine sum_congr rfl fun d _ => ?_
        simp only [odd, even]
        ring

theorem sum_weight_velocity_dot (u : Fin 3 → K) (a : Fin 3) :
    ∑ d, L.weight d * ((L.velocity d a : K) * L.dot d u) = u a / 3 := by
  calc ∑ d, L.weight d * ((L.velocity d a : K) * L.dot d u)
      = ∑ d, ∑ b, L.weight d * ((L.velocity d a : K) * L.velocity d b) * u b := by
        refine sum_congr rfl fun d _ => ?_
        rw [dot, mul_sum, mul_sum]
        exact sum_congr rfl fun b _ => by ring
    _ = ∑ b, (if a = b then 1 / 3 else 0) * u b := by
        rw [sum_comm]
        refine sum_congr rfl fun b _ => ?_
        rw [← sum_mul, iso.weight_second]
    _ = u a / 3 := by
        simp only [ite_mul, zero_mul, sum_ite_eq, mem_univ, if_true]
        ring

theorem sum_weight_dot_sq (u : Fin 3 → K) :
    ∑ d, L.weight d * L.dot d u ^ 2 = (∑ a, u a ^ 2) / 3 := by
  calc ∑ d, L.weight d * L.dot d u ^ 2
      = ∑ d, ∑ a, u a * (L.weight d * ((L.velocity d a : K) * L.dot d u)) := by
        refine sum_congr rfl fun d _ => ?_
        calc L.weight d * L.dot d u ^ 2 = L.weight d * L.dot d u * ∑ a, (L.velocity d a : K) * u a := by
              rw [← dot]
              ring
          _ = _ := by
              rw [mul_sum]
              exact sum_congr rfl fun a _ => by ring
    _ = ∑ a, u a * (u a / 3) := by
        rw [sum_comm]
        refine sum_congr rfl fun a _ => ?_
        rw [← mul_sum, sum_weight_velocity_dot iso]
    _ = (∑ a, u a ^ 2) / 3 := by
        rw [sum_div]
        exact sum_congr rfl fun a _ => by ring

/-- Only the even part of the equilibrium carries mass. -/
theorem density_equilibrium (rho : K) (u : Fin 3 → K) : density (L.equilibrium rho u) = rho := by
  rw [density, ← sum_even iso]
  simp only [even_equilibrium]
  calc ∑ d, L.weight d * rho * (1 + 9 / 2 * L.dot d u ^ 2 - 3 / 2 * ∑ a, u a ^ 2)
      = ∑ d, (rho * (1 - 3 / 2 * ∑ a, u a ^ 2) * L.weight d +
          9 / 2 * rho * (L.weight d * L.dot d u ^ 2)) := sum_congr rfl fun d _ => by ring
    _ = rho := by
        rw [sum_add_distrib, ← mul_sum, ← mul_sum, iso.weight_sum, sum_weight_dot_sq iso]
        ring

/-- Only the odd part carries momentum. -/
theorem momentum_equilibrium (rho : K) (u : Fin 3 → K) (a : Fin 3) :
    L.momentum (L.equilibrium rho u) a = rho * u a := by
  rw [← sum_velocity_odd iso, momentum]
  simp only [odd_equilibrium]
  calc ∑ d, (L.velocity d a : K) * (L.weight d * rho * (3 * L.dot d u))
      = ∑ d, 3 * rho * (L.weight d * ((L.velocity d a : K) * L.dot d u)) :=
        sum_congr rfl fun d _ => by ring
    _ = rho * u a := by
        rw [← mul_sum, sum_weight_velocity_dot iso]
        ring

omit iso [Fintype D] in
theorem even_add_odd (f : D → K) (d : D) : L.even f d + L.odd f d = f d := by
  simp only [even, odd]
  ring

omit iso [Fintype D] in
/-- With one rate for both parts there is nothing to tell apart. -/
theorem trt_eq_bgk (omega : K) (f feq : D → K) : L.trt omega omega f feq = bgk omega f feq := by
  funext d
  rw [trt, bgk]
  linear_combination omega * (even_add_odd feq d) - omega * (even_add_odd f d)

/-- The rate of the odd part has no effect on the sum over a pair of directions. -/
theorem trt_pair (omega lambda : K) (f feq : D → K) (d : D) :
    L.trt omega lambda f feq d + L.trt omega lambda f feq (L.opposite d) =
      bgk omega f feq d + bgk omega f feq (L.opposite d) := by
  rw [← trt_eq_bgk (L := L)]
  simp only [trt, even_involution iso, odd_involution iso]
  ring

theorem even_trt (omega lambda : K) (f feq : D → K) (d : D) :
    L.even (L.trt omega lambda f feq) d = L.even (bgk omega f feq) d := by
  rw [even, trt_pair iso, even]

theorem density_trt (omega lambda : K) {f feq : D → K} (h : density feq = density f) :
    density (L.trt omega lambda f feq) = density f := by
  calc density (L.trt omega lambda f feq) = ∑ d, L.even (bgk omega f feq) d := by
        rw [density, ← sum_even iso]
        exact sum_congr rfl fun d _ => even_trt iso omega lambda f feq d
    _ = density f := by rw [sum_even iso, ← density, density_bgk omega h]

/-- The rate of the even part has no effect on the odd part. -/
theorem odd_trt (omega lambda : K) (f feq : D → K) (d : D) :
    L.odd (L.trt omega lambda f feq) d = L.odd (bgk lambda f feq) d := by
  rw [← trt_eq_bgk (L := L)]
  simp only [odd]
  simp only [trt, even_involution iso, odd_involution iso]
  ring

theorem momentum_trt (omega lambda : K) {f feq : D → K} {a : Fin 3}
    (h : L.momentum feq a = L.momentum f a) :
    L.momentum (L.trt omega lambda f feq) a = L.momentum f a := by
  calc L.momentum (L.trt omega lambda f feq) a = L.momentum (L.odd (bgk lambda f feq)) a := by
        rw [← sum_velocity_odd iso, momentum, momentum]
        exact sum_congr rfl fun d _ => by rw [odd_trt iso]
    _ = L.momentum f a := by rw [sum_velocity_odd iso, momentum_bgk lambda h]

end Lattice
end LatticeBoltzmann
