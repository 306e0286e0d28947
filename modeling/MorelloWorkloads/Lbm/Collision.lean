import MorelloWorkloads.Lbm.Kernels
import MorelloWorkloads.Lib.Lattice
import Mathlib.Tactic.FinCases

/-! The kernels tabulate the lattice Boltzmann collision on the lattice D3Q19:
one store for each direction, of the value that the theory gives it. -/
namespace MorelloWorkloads.Lbm
open LatticeBoltzmann Dir Finset

variable {K : Type*} [Field K]

def opposite : Dir → Dir
  | C => C
  | N => S
  | S => N
  | E => W
  | W => E
  | T => B
  | B => T
  | NE => SW
  | SW => NE
  | NW => SE
  | SE => NW
  | NT => SB
  | SB => NT
  | NB => .ST
  | .ST => NB
  | ET => WB
  | WB => ET
  | EB => WT
  | WT => EB

def velocity (d : Dir) : Fin 3 → ℤ := ![(neighbor d).1, (neighbor d).2.1, (neighbor d).2.2]

def weight : Dir → K
  | C => dfl1
  | N | S | E | W | T | B => dfl2
  | _ => dfl3

variable (K) in
/-- Every direction streams to the neighbour that its macro names. -/
def d3q19 : Lattice Dir K where
  velocity := velocity
  weight := weight
  opposite := opposite
  velocity_opposite d a := by revert d a; decide
  weight_opposite d := by cases d <;> rfl

/-- `l` stores `v d` in every direction `d`, once. -/
structure Tabulates (l : List (Dir × K)) (v : Dir → K) : Prop where
  nodup : (l.map Prod.fst).Nodup
  mem : ∀ d, (d, v d) ∈ l

def fluidOrder : List Dir :=
  [C, N, S, E, W, T, B, NE, NW, SE, SW, NT, NB, .ST, SB, ET, EB, WT, WB]

theorem sum_dir (f : Dir → K) : ∑ d, f d = f C + f N + f S + f E + f W + f T + f B + f NE + f NW +
    f SE + f SW + f NT + f NB + f ST + f SB + f ET + f EB + f WT + f WB := by
  have univ_eq : (univ : Finset Dir) =
      {C, N, S, E, W, T, B, NE, NW, SE, SW, NT, NB, .ST, SB, ET, EB, WT, WB} := rfl
  rw [univ_eq]
  repeat rw [sum_insert (by decide)]
  rw [sum_singleton]
  ring

def Moments.u (m : Moments K) : Fin 3 → K := ![m.ux, m.uy, m.uz]

omit [Field K] in
theorem bounceBack_tabulates (src : Dir → K) :
    Tabulates (bounceBack src) fun d => src (opposite d) where
  nodup := by
    simp only [bounceBack, List.map_cons, List.map_nil]
    decide
  mem d := by cases d <;> simp [bounceBack, opposite]

theorem dot_eq (d : Dir) (m : Moments K) : (d3q19 K).dot d m.u =
    (neighbor d).1 * m.ux + (neighbor d).2.1 * m.uy + (neighbor d).2.2 * m.uz := by
  simp [Lattice.dot, Fin.sum_univ_three, d3q19, velocity, Moments.u]

theorem sum_sq_eq (m : Moments K) :
    ∑ a, m.u a ^ 2 = m.ux * m.ux + m.uy * m.uy + m.uz * m.uz := by
  simp only [Fin.sum_univ_three, Moments.u, Matrix.cons_val]
  ring

section Relaxation
variable [CharZero K]

theorem decimals : (0.0 : K) = 0 ∧ (0.5 : K) = 1 / 2 ∧ (1.0 : K) = 1 ∧ (1.5 : K) = 3 / 2 ∧
    (3.0 : K) = 3 ∧ (4.5 : K) = 9 / 2 := by norm_num

theorem collideBGK_eq (omega : K) (src : Dir → K) (m : Moments K) :
    collideBGK omega src m = fluidOrder.map fun d =>
      (d, Lattice.bgk omega src ((d3q19 K).equilibrium m.rho m.u) d) := by
  have value (d : Dir) : Lattice.bgk omega src ((d3q19 K).equilibrium m.rho m.u) d =
      (1 - omega) * src d + omega * (weight d * m.rho * (1 + 3 * (d3q19 K).dot d m.u +
        9 / 2 * (d3q19 K).dot d m.u ^ 2 -
        3 / 2 * (m.ux * m.ux + m.uy * m.uy + m.uz * m.uz))) := by
    rw [← sum_sq_eq]
    rfl
  obtain ⟨-, -, one, threeHalves, three, nineHalves⟩ := decimals (K := K)
  simp only [collideBGK, fluidOrder, List.map_cons, List.map_nil, List.cons.injEq, Prod.mk.injEq,
    true_and, and_true, value, dot_eq, neighbor, weight, one, threeHalves, three, nineHalves,
    Int.cast_zero, Int.cast_one, Int.cast_neg]
  refine ⟨?_, ?_, ?_, ?_, ?_, ?_, ?_, ?_, ?_, ?_, ?_, ?_, ?_, ?_, ?_, ?_, ?_, ?_, ?_⟩ <;> ring

theorem fs_eq (src : Dir → K) : fs src = (d3q19 K).even src := by
  obtain ⟨-, half, -⟩ := decimals (K := K)
  funext d
  cases d <;> simp only [fs, Lattice.even, d3q19, opposite, half] <;> ring

theorem fa_eq (src : Dir → K) : fa src = (d3q19 K).odd src := by
  obtain ⟨zero, half, -⟩ := decimals (K := K)
  funext d
  cases d <;> simp only [fa, Lattice.odd, d3q19, opposite, half, zero] <;> ring

theorem feqs_eq (m : Moments K) : feqs m = (d3q19 K).even ((d3q19 K).equilibrium m.rho m.u) := by
  obtain ⟨-, -, one, threeHalves, -, nineHalves⟩ := decimals (K := K)
  funext d
  rw [Lattice.even_equilibrium, dot_eq, sum_sq_eq, show (d3q19 K).weight d = weight d from rfl]
  cases d <;> simp only [feqs, neighbor, weight, one, threeHalves, nineHalves, Int.cast_zero,
    Int.cast_one, Int.cast_neg] <;> ring

theorem feqa_eq (m : Moments K) : feqa m = (d3q19 K).odd ((d3q19 K).equilibrium m.rho m.u) := by
  obtain ⟨zero, -, -, -, three, -⟩ := decimals (K := K)
  funext d
  rw [Lattice.odd_equilibrium, dot_eq, show (d3q19 K).weight d = weight d from rfl]
  cases d <;> simp only [feqa, neighbor, weight, zero, three, Int.cast_zero, Int.cast_one,
    Int.cast_neg] <;> ring

theorem collideTRTWith_eq (omega lambda : K) (src : Dir → K) (m : Moments K) :
    collideTRTWith omega lambda src m = fluidOrder.map fun d =>
      (d, (d3q19 K).trt omega lambda src ((d3q19 K).equilibrium m.rho m.u) d) := by
  have odd_rest (f : Dir → K) : (d3q19 K).odd f C = 0 := by
    simp [Lattice.odd, d3q19, opposite]
  have rest : src C - omega * (fs src C - feqs m C) =
      (d3q19 K).trt omega lambda src ((d3q19 K).equilibrium m.rho m.u) C := by
    simp [Lattice.trt, fs_eq, feqs_eq, odd_rest]
  rw [collideTRTWith, rest, fa_eq, fs_eq, feqs_eq, feqa_eq]
  rfl

theorem collideTRT_eq (omega : K) (src : Dir → K) (m : Moments K) :
    collideTRT omega src m = fluidOrder.map fun d =>
      (d, (d3q19 K).trt omega (lambda0 omega) src ((d3q19 K).equilibrium m.rho m.u) d) := by
  rw [collideTRT_eq_with, collideTRTWith_eq]

/-- The weights of the two programs are those of the lattice D3Q19. -/
theorem d3q19_isotropic : (d3q19 K).Isotropic where
  opposite_opposite d := by cases d <;> rfl
  weight_sum := by
    simp only [sum_dir, d3q19, weight, dfl1, dfl2, dfl3]
    norm_num
  weight_second a b := by
    simp only [sum_dir, d3q19, weight, velocity, neighbor, dfl2, dfl3]
    fin_cases a <;> fin_cases b <;> norm_num

end Relaxation

variable (g : Config) (src : Dir → K) (flags : BitVec 32)

/-- The velocity towards whose equilibrium a fluid cell relaxes. -/
def cellVelocity : Fin 3 → K :=
  if testFlag flags g.accel then ![0.005, 0.002, 0.000]
  else fun a => (d3q19 K).momentum src a / Lattice.density src

/-- What a cell sends out: an obstacle what came in, reversed, and a fluid cell
what `relax` leaves of its populations and their equilibrium. -/
def sent (relax : (Dir → K) → (Dir → K) → Dir → K) (d : Dir) : K :=
  if testFlag flags g.obstacle then src (opposite d)
  else relax src ((d3q19 K).equilibrium (Lattice.density src) (cellVelocity g src flags)) d

theorem moments_rho : (moments g src flags).rho = Lattice.density src := by
  rw [Lattice.density, sum_dir, moments]
  split <;> rfl

theorem momentum_eq : (d3q19 K).momentum src =
    ![src E - src W + src NE - src NW + src SE - src SW + src ET + src EB - src WT - src WB,
      src N - src S + src NE + src NW - src SE - src SW + src NT + src NB - src ST - src SB,
      src T - src B + src NT - src NB + src ST - src SB + src ET - src EB + src WT - src WB] := by
  funext a
  fin_cases a <;> simp [Lattice.momentum, d3q19, sum_dir, velocity, neighbor] <;> ring

theorem moments_u : (moments g src flags).u = cellVelocity g src flags := by
  by_cases h : testFlag flags g.accel
  · simp [moments, cellVelocity, Moments.u, h]
  · funext a
    rw [cellVelocity, if_neg h, momentum_eq, Lattice.density, sum_dir, moments, if_neg h]
    fin_cases a <;> rfl

/-- A kernel that relaxes makes a cell store what it sends, once in each direction. -/
theorem cellStores_tabulates {collide : (Dir → K) → Moments K → List (Dir × K)}
    {relax : (Dir → K) → (Dir → K) → Dir → K}
    (h : ∀ src m, collide src m =
      fluidOrder.map fun d => (d, relax src ((d3q19 K).equilibrium m.rho m.u) d)) :
    Tabulates (cellStores g collide src flags) (sent g src flags relax) := by
  by_cases obstacle : testFlag flags g.obstacle
  · have reversed : sent g src flags relax = fun d => src (opposite d) :=
      funext fun _ => if_pos obstacle
    rw [cellStores, if_pos obstacle, reversed]
    exact bounceBack_tabulates src
  · have stores : cellStores g collide src flags =
        fluidOrder.map fun d => (d, sent g src flags relax d) := by
      simp [cellStores, sent, obstacle, h, moments_rho, moments_u]
    rw [stores]
    constructor
    · have order : (fluidOrder.map fun d => (d, sent g src flags relax d)).map Prod.fst =
          fluidOrder := rfl
      rw [order]
      decide
    · intro d
      exact List.mem_map_of_mem (by cases d <;> decide)

end MorelloWorkloads.Lbm
