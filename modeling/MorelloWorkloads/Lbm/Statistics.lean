import MorelloWorkloads.Lbm.Conservation
import MorelloWorkloads.Lbm.Parallel
import Mathlib.Algebra.BigOperators.Intervals
import Mathlib.Algebra.Order.Field.Basic

/-! `LBM_showGridStatistics`, and what a step of the original does to the mass that
it shows: cells keep theirs, and the rest crosses the ends of the array. -/
namespace MorelloWorkloads.Lbm
open CountedLoop FlatMemory LatticeBoltzmann Dir

/-- No cell whose density is divided by has lost its mass: the quotients of a field by zero are
zero, and not those of the source. -/
def Dense {K : Type*} [Field K] (g : Config) (src : Grid K) : Prop :=
  ∀ p, InGrid g p → ¬ testFlag (flagBits g src p) g.obstacle → ∑ d, populations g src p d ≠ 0

section Report
variable {K : Type*} [Field K] [LinearOrder K]

/-- The variables that the sweep updates. -/
structure Statistics (K : Type*) where
  nObstacleCells : ℤ
  nAccelCells : ℤ
  nFluidCells : ℤ
  minU2 : K
  maxU2 : K
  minRho : K
  maxRho : K
  mass : K

def Statistics.initial : Statistics K := ⟨0, 0, 0, 1e30, -1e30, 1e30, -1e30, 0⟩

/-- The updates for a cell with these populations and flags. -/
def Statistics.add (g : Config) (src : Dir → K) (flags : BitVec 32) (s : Statistics K) : Statistics K :=
  let rho := src C + src N + src S + src E + src W + src T + src B + src NE + src NW + src SE +
    src SW + src NT + src NB + src ST + src SB + src ET + src EB + src WT + src WB
  let s := { s with
    minRho := if rho < s.minRho then rho else s.minRho
    maxRho := if rho > s.maxRho then rho else s.maxRho
    mass := s.mass + rho }
  if testFlag flags g.obstacle then { s with nObstacleCells := s.nObstacleCells + 1 }
  else
    let s := if testFlag flags g.accel then { s with nAccelCells := s.nAccelCells + 1 }
      else { s with nFluidCells := s.nFluidCells + 1 }
    let ux := src E - src W + src NE - src NW + src SE - src SW + src ET + src EB - src WT - src WB
    let uy := src N - src S + src NE + src NW - src SE - src SW + src NT + src NB - src ST - src SB
    let uz := src T - src B + src NT - src NB + src ST - src SB + src ET - src EB + src WT - src WB
    let u2 := (ux * ux + uy * uy + uz * uz) / (rho * rho)
    { s with
      minU2 := if u2 < s.minU2 then u2 else s.minU2
      maxU2 := if u2 > s.maxU2 then u2 else s.maxU2 }

/-- The values that `LBM_showGridStatistics` has when it prints. -/
def showGridStatistics (g : Config) (grid : Grid K) : Option (Statistics K) :=
  g.sweep 0 g.sizeZ Statistics.initial fun s i => do
    let flags ← load g.Allocated grid (g.calcIndex 0 0 0 g.flags + i)
    let src ← readCell g.Allocated grid fun d => g.calcIndex 0 0 0 (g.offset d) + i
    return s.add g src flags.bits

/-- `lo` and `hi` bound `f` and are taken, if anything is beyond the starting values. -/
structure Extremes (f : ℤ → K) (cells : Finset ℤ) (lo hi : K) : Prop where
  low : ∀ p ∈ cells, lo ≤ f p
  high : ∀ p ∈ cells, f p ≤ hi
  low_met : lo = 1e30 ∨ ∃ p ∈ cells, f p = lo
  high_met : hi = -1e30 ∨ ∃ p ∈ cells, f p = hi

omit [Field K] in
theorem forall_insert_le {f : ℤ → K} {cells : Finset ℤ} {lo : K} (low : ∀ p ∈ cells, lo ≤ f p) (p : ℤ) :
    ∀ q ∈ insert p cells, (if f p < lo then f p else lo) ≤ f q := by
  intro q hq
  cases Finset.mem_insert.mp hq with
  | inl same =>
    subst same
    split
    · exact le_rfl
    · exact not_lt.mp ‹_›
  | inr old =>
    split
    · exact (le_of_lt ‹_›).trans (low q old)
    · exact low q old

theorem Extremes.insert {f : ℤ → K} {cells : Finset ℤ} {lo hi : K} (extremes : Extremes f cells lo hi)
    (p : ℤ) : Extremes f (insert p cells) (if f p < lo then f p else lo) (if f p > hi then f p else hi) where
  low := forall_insert_le extremes.low p
  high := forall_insert_le (K := Kᵒᵈ) extremes.high p
  low_met := by
    split
    · exact Or.inr ⟨p, Finset.mem_insert_self p cells, rfl⟩
    · exact extremes.low_met.imp_right fun ⟨q, hq, met⟩ => ⟨q, Finset.mem_insert_of_mem hq, met⟩
  high_met := by
    split
    · exact Or.inr ⟨p, Finset.mem_insert_self p cells, rfl⟩
    · exact extremes.high_met.imp_right fun ⟨q, hq, met⟩ => ⟨q, Finset.mem_insert_of_mem hq, met⟩

/-- The square of the velocity of a cell. -/
def speed2 (src : Dir → K) : K := (∑ a, (d3q19 K).momentum src a ^ 2) / Lattice.density src ^ 2

section Summary
variable (g : Config) (grid : Grid K)

def isObstacle (p : ℤ) : Bool := testFlag (flagBits g grid p) g.obstacle
def isAccel (p : ℤ) : Bool := testFlag (flagBits g grid p) g.accel

/-- What the report says of the first `n` cells. -/
structure Summary (n : ℤ) (s : Statistics K) : Prop where
  obstacles : s.nObstacleCells = ((Finset.Ico 0 n).filter fun p => isObstacle g grid p).card
  accels : s.nAccelCells =
    ((Finset.Ico 0 n).filter fun p => ¬ isObstacle g grid p ∧ isAccel g grid p).card
  fluids : s.nFluidCells =
    ((Finset.Ico 0 n).filter fun p => ¬ isObstacle g grid p ∧ ¬ isAccel g grid p).card
  mass : s.mass = ∑ p ∈ Finset.Ico 0 n, ∑ d, populations g grid p d
  rho : Extremes (fun p => ∑ d, populations g grid p d) (Finset.Ico 0 n) s.minRho s.maxRho
  u2 : Extremes (fun p => speed2 (populations g grid p))
    ((Finset.Ico 0 n).filter fun p => ¬ isObstacle g grid p) s.minU2 s.maxU2

variable {g grid}

theorem Ico_succ {n : ℤ} (nonneg : 0 ≤ n) : Finset.Ico 0 (n + 1) = insert n (Finset.Ico 0 n) := by
  ext p
  simp only [Finset.mem_Ico, Finset.mem_insert]
  omega

theorem card_filter_succ {n : ℤ} (nonneg : 0 ≤ n) (P : ℤ → Prop) [DecidablePred P] :
    (((Finset.Ico 0 (n + 1)).filter P).card : ℤ) =
      ((Finset.Ico 0 n).filter P).card + if P n then 1 else 0 := by
  rw [Ico_succ nonneg, Finset.filter_insert]
  split
  · rw [Finset.card_insert_of_notMem (by simp)]
    push_cast
    rfl
  · rw [add_zero]

omit [LinearOrder K] in
theorem speed2_eq (src : Dir → K) : speed2 src =
    (let m := momentumSums src
     (m 0 * m 0 + m 1 * m 1 + m 2 * m 2) / (Lattice.density src * Lattice.density src)) := by
  simp only [speed2, Fin.sum_univ_three, momentumSums_eq, sq]

/-- The updates in terms of the density and the speed of the cell. -/
theorem Statistics.add_eq (src : Dir → K) (flags : BitVec 32) (s : Statistics K) : s.add g src flags =
    { nObstacleCells := s.nObstacleCells + if testFlag flags g.obstacle then 1 else 0
      nAccelCells := s.nAccelCells +
        if ¬ testFlag flags g.obstacle ∧ testFlag flags g.accel then 1 else 0
      nFluidCells := s.nFluidCells +
        if ¬ testFlag flags g.obstacle ∧ ¬ testFlag flags g.accel then 1 else 0
      minRho := if ∑ d, src d < s.minRho then ∑ d, src d else s.minRho
      maxRho := if ∑ d, src d > s.maxRho then ∑ d, src d else s.maxRho
      mass := s.mass + ∑ d, src d
      minU2 := if testFlag flags g.obstacle then s.minU2
        else if speed2 src < s.minU2 then speed2 src else s.minU2
      maxU2 := if testFlag flags g.obstacle then s.maxU2
        else if speed2 src > s.maxU2 then speed2 src else s.maxU2 } := by
  have speed := speed2_eq src
  rw [Lattice.density] at speed
  rw [speed, sum_dir]
  by_cases obstacle : testFlag flags g.obstacle
  · simp [Statistics.add, obstacle]
  · by_cases accel : testFlag flags g.accel
    · simp [Statistics.add, obstacle, accel]
      exact ⟨rfl, rfl⟩
    · simp [Statistics.add, obstacle, accel]
      exact ⟨rfl, rfl⟩

/-- The updates for cell `n` extend the report to it. -/
theorem Summary.add {n : ℤ} (nonneg : 0 ≤ n) {s : Statistics K} (summary : Summary g grid n s) :
    Summary g grid (n + 1) (s.add g (populations g grid n) (flagBits g grid n)) := by
  have rho := summary.rho.insert n
  rw [← Ico_succ nonneg] at rho
  rw [Statistics.add_eq]
  refine ⟨?_, ?_, ?_, ?_, rho, ?_⟩
  · rw [card_filter_succ nonneg, ← summary.obstacles]
    rfl
  · rw [card_filter_succ nonneg, ← summary.accels]
    rfl
  · rw [card_filter_succ nonneg, ← summary.fluids]
    rfl
  · rw [Ico_succ nonneg, Finset.sum_insert (by simp), ← summary.mass]
    exact add_comm _ _
  · rw [Ico_succ nonneg, Finset.filter_insert]
    by_cases obstacle : isObstacle g grid n
    · have flag : testFlag (flagBits g grid n) g.obstacle := obstacle
      simpa only [obstacle, flag, not_true, if_true, if_false] using summary.u2
    · have flag : ¬ testFlag (flagBits g grid n) g.obstacle := obstacle
      simpa only [obstacle, flag, not_false_eq_true, Bool.false_eq_true, if_true, if_false]
        using summary.u2.insert n

/-- The passes of the sweep, once no read is out of bounds. -/
def tally (g : Config) (grid : Grid K) : Option (Statistics K) :=
  loopM 0 (g.sizeZ * g.plane) 1 Statistics.initial fun s p =>
    some (s.add g (populations g grid p) (flagBits g grid p))

theorem showGridStatistics_eq (g : Config) (grid : Grid K) : showGridStatistics g grid = tally g grid := by
  have allocated {p e : ℤ} (hp : 0 ≤ p ∧ p < g.sizeZ * g.plane) (he : 0 ≤ e ∧ e < g.nCellEntries) :
      g.Allocated (g.word p e) := by
    rw [Config.allocated_word he]
    have := g.plane_pos
    constructor <;> linarith
  have here (p e : ℤ) : g.calcIndex 0 0 0 e + g.nCellEntries * p = g.word p e := by
    simp [Config.calcIndex, Config.word]
  rw [showGridStatistics, Config.sweep_eq, zero_mul, tally]
  refine loopM_congr (fun s p hp => ?_) _
  have inside := mem_trips_one.mp hp
  have flags : load g.Allocated grid (g.word p g.flags) = some (grid (g.word p g.flags)) :=
    if_pos (allocated inside g.flags_range)
  have cell : readCell g.Allocated grid (fun d => g.word p (g.offset d)) =
      some (populations g grid p) := if_pos fun d => allocated inside (g.offset_range d)
  simp only [here, flags, cell]
  rfl

theorem tally_summary (g : Config) (grid : Grid K) :
    ∃ s, tally g grid = some s ∧ Summary g grid (g.sizeZ * g.plane) s := by
  have size : 0 ≤ g.sizeZ * g.plane := mul_nonneg g.sizeZ_pos.le g.plane_pos.le
  refine loopM_upto size (fun n s => Summary g grid n s)
    (fun p s low _ summary => ⟨_, rfl, summary.add low⟩) ?_
  refine ⟨rfl, rfl, rfl, rfl, ⟨?_, ?_, Or.inl rfl, Or.inl rfl⟩, ⟨?_, ?_, Or.inl rfl, Or.inl rfl⟩⟩ <;> simp

/-- The report is exact: it counts the cells by kind, sums up the mass of the grid and
finds the extremes of density and speed. -/
theorem showGridStatistics_exact (g : Config) (grid : Grid K) (_dense : Dense g grid) :
    ∃ s, showGridStatistics g grid = some s ∧ Summary g grid (g.sizeZ * g.plane) s := by
  rw [showGridStatistics_eq]
  exact tally_summary g grid

end Summary
end Report

theorem levelGrid_dense : Dense Config.small levelGrid := by
  intro p _ _
  rw [sum_dir]
  norm_num [populations, levelGrid]

theorem showGridStatistics_exact_small : ∃ s, showGridStatistics Config.small levelGrid = some s ∧
    Summary Config.small levelGrid 36 s :=
  showGridStatistics_exact Config.small levelGrid levelGrid_dense

/-! ## The mass across the ends of the array -/

def Config.cells (g : Config) : Finset ℤ := (trips 0 (g.sizeZ * g.plane) 1).toFinset

theorem Config.mem_cells {g : Config} {p : ℤ} : p ∈ g.cells ↔ InGrid g p :=
  List.mem_toFinset.trans mem_trips_one

section Balance
variable {K : Type*} [Field K] {g : Config}

def mass (g : Config) (grid : Grid K) : K := ∑ p ∈ g.cells, ∑ d, populations g grid p d

/-- What a step has stored in the margins. -/
def massLeft (g : Config) (out : Grid K) : K :=
  ∑ d, ∑ p ∈ g.cells with ¬ InGrid g (p + shift g d), populations g out (p + shift g d) d

/-- What a step keeps of the destination, as no cell of the array streams there. -/
def massEntered (g : Config) (dst : Grid K) : K :=
  ∑ d, ∑ p ∈ g.cells with ¬ InGrid g (p - shift g d), populations g dst p d

/-- What all cells send in a direction arrives in the array or past its ends. -/
theorem sum_received (sent : ℤ → K) (move : ℤ) :
    ∑ p ∈ g.cells with InGrid g (p - move), sent (p - move) =
      ∑ p ∈ g.cells with InGrid g (p + move), sent p := by
  apply Finset.sum_nbij' (fun p => p - move) fun p => p + move
  all_goals
    intro p hp
    simp only [Finset.mem_filter, Config.mem_cells, sub_add_cancel, add_sub_cancel_right] at hp ⊢
  · exact ⟨hp.2, hp.1⟩
  · exact ⟨hp.2, hp.1⟩

section Step
variable {collide : (Dir → K) → Moments K → List (Dir × K)} {relax : (Dir → K) → (Dir → K) → Dir → K}
  (h : ∀ src m, collide src m =
    fluidOrder.map fun d => (d, relax src ((d3q19 K).equilibrium m.rho m.u) d))
include h

/-- A step moves what the cells send, and what stays behind at the ends is the
destination's. -/
theorem step_mass (src dst : Grid K) : ∃ out, Original.performStreamCollide g collide src dst = some out ∧
    mass g out + massLeft g out = ∑ p ∈ g.cells, ∑ d, sentBy g relax src p d + massEntered g dst := by
  obtain ⟨out, run, moved, -⟩ := original_step (g := g) h src dst
  have value (p : ℤ) (d : Dir) : populations g out p d =
      if InGrid g (p - shift g d) then sentBy g relax src (p - shift g d) d
      else populations g dst p d := by
    rw [populations, moved]
    split <;> rfl
  have direction (d : Dir) : ∑ p ∈ g.cells, populations g out p d +
      ∑ p ∈ g.cells with ¬ InGrid g (p + shift g d), populations g out (p + shift g d) d =
      ∑ p ∈ g.cells, sentBy g relax src p d +
        ∑ p ∈ g.cells with ¬ InGrid g (p - shift g d), populations g dst p d := by
    have received : ∑ p ∈ g.cells with InGrid g (p - shift g d), populations g out p d =
        ∑ p ∈ g.cells with InGrid g (p + shift g d), sentBy g relax src p d := by
      rw [← sum_received (fun p => sentBy g relax src p d)]
      refine Finset.sum_congr rfl fun p hp => ?_
      rw [value, if_pos (Finset.mem_filter.mp hp).2]
    have kept : ∑ p ∈ g.cells with ¬ InGrid g (p - shift g d), populations g out p d =
        ∑ p ∈ g.cells with ¬ InGrid g (p - shift g d), populations g dst p d := by
      refine Finset.sum_congr rfl fun p hp => ?_
      rw [value, if_neg (Finset.mem_filter.mp hp).2]
    have lost : ∑ p ∈ g.cells with ¬ InGrid g (p + shift g d), populations g out (p + shift g d) d =
        ∑ p ∈ g.cells with ¬ InGrid g (p + shift g d), sentBy g relax src p d := by
      refine Finset.sum_congr rfl fun p hp => ?_
      have sender : InGrid g (p + shift g d - shift g d) := by
        rw [add_sub_cancel_right]
        exact Config.mem_cells.mp (Finset.mem_filter.mp hp).1
      rw [value, if_pos sender, add_sub_cancel_right]
    rw [← Finset.sum_filter_add_sum_filter_not g.cells (fun p => InGrid g (p - shift g d)), received,
      kept, lost, ← Finset.sum_filter_add_sum_filter_not g.cells (fun p => InGrid g (p + shift g d))
        fun p => sentBy g relax src p d]
    ring
  refine ⟨out, run, ?_⟩
  rw [mass, Finset.sum_comm, massLeft, ← Finset.sum_add_distrib, Finset.sum_congr rfl fun d _ => direction d,
    Finset.sum_add_distrib, Finset.sum_comm]
  rfl

end Step

/-- What a cell sends has the mass of the cell. -/
theorem sentBy_mass [CharZero K] (op : Operator) (omega : K) (src : Grid K) (p : ℤ) :
    ∑ d, sentBy g (op.relax omega) src p d = ∑ d, populations g src p d := by
  have iso := d3q19_isotropic (K := K)
  by_cases obstacle : testFlag (flagBits g src p) g.obstacle
  · rw [sentBy_obstacle obstacle]
    exact Lattice.density_reversed iso _
  · have equal := Lattice.density_equilibrium iso (Lattice.density (populations g src p))
      (cellVelocity g (populations g src p) (flagBits g src p))
    rw [sentBy_fluid obstacle]
    cases op with
    | bgk => exact Lattice.density_bgk omega equal
    | trt => exact Lattice.density_trt iso omega (lambda0 omega) equal

end Balance

/-- No quotient of `lambda0` divides by zero. -/
def Operator.Proper {K : Type*} [Field K] (omega : K) : Operator → Prop
  | .bgk => True
  | .trt => omega ≠ 0 ∧ 16.0 * (1.0 / omega - 0.5) ≠ 0 ∧
      0.5 + 3.0 / (16.0 * (1.0 / omega - 0.5)) ≠ 0

theorem shown_mass {K : Type*} [Field K] [LinearOrder K] (g : Config) (grid : Grid K) :
    ∃ s, showGridStatistics g grid = some s ∧ s.mass = mass g grid := by
  obtain ⟨s, shown, whole⟩ := tally_summary g grid
  refine ⟨s, (showGridStatistics_eq g grid).trans shown, ?_⟩
  rw [whole.mass, mass, Config.cells, trips_toFinset]

/-- The masses that are shown before and after a step differ by what has crossed the
ends of the array, whichever the operator and its rate. -/
theorem step_balance {K : Type*} [Field K] [CharZero K] [LinearOrder K] (g : Config) (op : Operator)
    (omega : K) (_proper : op.Proper omega) (src dst : Grid K) (_dense : Dense g src) : ∃ out before after,
      op.perform g omega src dst = some out ∧ showGridStatistics g src = some before ∧
      showGridStatistics g out = some after ∧
      after.mass + massLeft g out = before.mass + massEntered g dst := by
  obtain ⟨out, run, balance⟩ := step_mass (g := g) (op.collide_eq omega) src dst
  obtain ⟨before, shownBefore, massBefore⟩ := shown_mass g src
  obtain ⟨after, shownAfter, massAfter⟩ := shown_mass g out
  rw [← op.perform_eq] at run
  refine ⟨out, before, after, run, shownBefore, shownAfter, ?_⟩
  simp only [sentBy_mass] at balance
  rw [massBefore, massAfter, balance, mass]

theorem step_balance_small : ∃ out before after,
    Original.performStreamCollideTRT Config.small (3 / 2) levelGrid levelGrid = some out ∧
    showGridStatistics Config.small levelGrid = some before ∧
    showGridStatistics Config.small out = some after ∧
    after.mass + massLeft Config.small out = before.mass + massEntered Config.small levelGrid :=
  step_balance Config.small .trt (3 / 2) (by norm_num [Operator.Proper]) levelGrid levelGrid levelGrid_dense

end MorelloWorkloads.Lbm
