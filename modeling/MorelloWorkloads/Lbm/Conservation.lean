import MorelloWorkloads.Lbm.Port

/-! What the ported kernels conserve, cell by cell, and what they have in common.
A slab is processed wherever its cells can be accessed. -/
namespace MorelloWorkloads.Lbm
open CountedLoop FlatMemory LatticeBoltzmann Dir

variable {K : Type*} [Field K] {g : Config}

/-- The sums `ux`, `uy` and `uz` before their division by the density. -/
def momentumSums (src : Dir → K) : Fin 3 → K :=
  ![src E - src W + src NE - src NW + src SE - src SW + src ET + src EB - src WT - src WB,
    src N - src S + src NE + src NW - src SE - src SW + src NT + src NB - src ST - src SB,
    src T - src B + src NT - src NB + src ST - src SB + src ET - src EB + src WT - src WB]

theorem momentumSums_eq (src : Dir → K) : momentumSums src = (d3q19 K).momentum src :=
  (momentum_eq src).symm

/-- All words that the step names in the planes `[lo, hi)` can be accessed. -/
def Accessible (g : Config) (ok : ℤ → Prop) (lo hi : ℤ) : Prop :=
  ∀ p, lo ≤ g.cellZ p → g.cellZ p < hi →
    ok (g.word p g.flags) ∧ ∀ d, ok (g.word p (g.offset d))

/-- So they can in a thread's own array when the planes lie in the grid. -/
theorem accessible_inArray {lo hi : ℤ} (hlo : 0 ≤ lo) (hhi : hi ≤ g.sizeZ) :
    Accessible g g.InArray lo hi := by
  intro p hp hp'
  have inGrid : InGrid g p := (inGrid_iff p).mpr ⟨hlo.trans hp, hp'.trans_le hhi⟩
  have word {e : ℤ} (he : 0 ≤ e ∧ e < g.nCellEntries) : g.InArray (g.word p e) :=
    (Config.inArray_word he).mpr inGrid
  exact ⟨word g.flags_range, fun d => word (g.offset_range d)⟩

section Run
variable {collide : (Dir → K) → Moments K → List (Dir × K)} {relax : (Dir → K) → (Dir → K) → Dir → K}
  (h : ∀ src m, collide src m =
    fluidOrder.map fun d => (d, relax src ((d3q19 K).equilibrium m.rho m.u) d))
  {ok : ℤ → Prop} [DecidablePred ok] {lo hi : ℤ} (acc : Accessible g ok lo hi)
include h acc

/-- A thread leaves, in every cell of its slab, what the cell sends. -/
theorem thread_populations (src dst : Grid K) :
    ∃ out, Threads.threadStreamCollide g ok collide lo hi src dst = some out ∧
      ∀ p, lo ≤ g.cellZ p → g.cellZ p < hi → populations g out p = sentBy g relax src p := by
  have tab (p : ℤ) := cellStores_tabulates g (populations g src p) (flagBits g src p) h
  have visited (p : ℤ) : p ∈ trips (lo * g.plane) (hi * g.plane) 1 ↔
      lo ≤ g.cellZ p ∧ g.cellZ p < hi := by
    rw [mem_trips_one, Config.plane_between]
  have run := thread_run_of tab ok lo hi dst
  rw [if_pos fun p hp => acc p ((visited p).mp hp).1 ((visited p).mp hp).2] at run
  refine ⟨_, run, fun p hlo hhi => ?_⟩
  funext d
  have own : p - 0 ∈ trips (lo * g.plane) (hi * g.plane) 1 := by
    rw [sub_zero]
    exact (visited p).mpr ⟨hlo, hhi⟩
  rw [populations, sweep_population tab _ (trips_nodup one_pos), if_pos own, sub_zero]
  rfl

end Run

theorem sentBy_obstacle {relax : (Dir → K) → (Dir → K) → Dir → K} {src : Grid K} {p : ℤ}
    (h : testFlag (flagBits g src p) g.obstacle) :
    sentBy g relax src p = fun d => populations g src p ((d3q19 K).opposite d) :=
  funext fun _ => if_pos h

theorem sentBy_fluid {relax : (Dir → K) → (Dir → K) → Dir → K} {src : Grid K} {p : ℤ}
    (h : ¬ testFlag (flagBits g src p) g.obstacle) :
    sentBy g relax src p = relax (populations g src p) ((d3q19 K).equilibrium
      (Lattice.density (populations g src p))
      (cellVelocity g (populations g src p) (flagBits g src p))) :=
  funext fun _ => if_neg h

/-! ## Mass and momentum -/

/-- What a step from `src` to `out` keeps in cell `p`. -/
structure Conserves (g : Config) (src out : Grid K) (p : ℤ) : Prop where
  mass : testFlag (flagBits g src p) g.obstacle ∨ ∑ d, populations g src p d ≠ 0 →
    ∑ d, populations g out p d = ∑ d, populations g src p d
  momentum : ¬ testFlag (flagBits g src p) g.obstacle → ¬ testFlag (flagBits g src p) g.accel →
    ∑ d, populations g src p d ≠ 0 →
    momentumSums (populations g out p) = momentumSums (populations g src p)
  bounced : testFlag (flagBits g src p) g.obstacle →
    momentumSums (populations g out p) = -momentumSums (populations g src p)

section Relaxed
variable [CharZero K] {relax : (Dir → K) → (Dir → K) → Dir → K}

/-- It is enough that relaxing keeps the moments on which both sides agree. -/
theorem conserves_of_sent
    (density : ∀ {f feq : Dir → K}, Lattice.density feq = Lattice.density f →
      Lattice.density (relax f feq) = Lattice.density f)
    (momentum : ∀ {f feq : Dir → K} {a}, (d3q19 K).momentum feq a = (d3q19 K).momentum f a →
      (d3q19 K).momentum (relax f feq) a = (d3q19 K).momentum f a)
    {src out : Grid K} {p : ℤ} (hout : populations g out p = sentBy g relax src p) :
    Conserves g src out p := by
  have iso := d3q19_isotropic (K := K)
  constructor
  · intro _
    rw [hout]
    by_cases obstacle : testFlag (flagBits g src p) g.obstacle
    · rw [sentBy_obstacle obstacle]
      exact Lattice.density_reversed iso _
    · rw [sentBy_fluid obstacle]
      exact density (Lattice.density_equilibrium iso _ _)
  · intro obstacle accel rho
    rw [hout, momentumSums_eq, momentumSums_eq, sentBy_fluid obstacle]
    funext a
    apply momentum
    rw [Lattice.momentum_equilibrium iso, cellVelocity, if_neg accel]
    exact mul_div_cancel₀ _ rho
  · intro obstacle
    rw [hout, momentumSums_eq, momentumSums_eq, sentBy_obstacle obstacle]
    funext a
    exact Lattice.momentum_reversed iso _ a

variable {ok : ℤ → Prop} [DecidablePred ok] {lo hi : ℤ}

/-- In every slab and for every pair of rates, both kernels conserve. -/
theorem threads_conserve (omega lambda : K) (acc : Accessible g ok lo hi) (src dst : Grid K) :
    (∃ out, Threads.threadStreamCollide g ok (collideBGK omega) lo hi src dst = some out ∧
      ∀ p, lo ≤ g.cellZ p → g.cellZ p < hi → Conserves g src out p) ∧
    ∃ out, Threads.threadStreamCollide g ok (collideTRTWith omega lambda) lo hi src dst = some out ∧
      ∀ p, lo ≤ g.cellZ p → g.cellZ p < hi → Conserves g src out p := by
  have iso := d3q19_isotropic (K := K)
  obtain ⟨bgk, runBGK, sentBGK⟩ := thread_populations (collideBGK_eq omega) acc src dst
  obtain ⟨trt, runTRT, sentTRT⟩ := thread_populations (collideTRTWith_eq omega lambda) acc src dst
  refine ⟨⟨bgk, runBGK, fun p hlo hhi => ?_⟩, ⟨trt, runTRT, fun p hlo hhi => ?_⟩⟩
  · exact conserves_of_sent (Lattice.density_bgk omega) (Lattice.momentum_bgk omega)
      (sentBGK p hlo hhi)
  · exact conserves_of_sent (Lattice.density_trt iso omega lambda)
      (Lattice.momentum_trt iso omega lambda) (sentTRT p hlo hhi)

/-! ## The even part -/

/-- What a cell without `OBSTACLE` has in common under the two kernels. -/
structure EvenPartAgrees (g : Config) (omega lambda : K) (bgk trt : Grid K) (p : ℤ) : Prop where
  rest : populations g trt p C = populations g bgk p C
  pair : ∀ d, populations g trt p d + populations g trt p (opposite d) =
    populations g bgk p d + populations g bgk p (opposite d)
  equalRates : lambda = omega → ∀ d, populations g trt p d = populations g bgk p d

theorem kernels_agree_on_even (omega lambda : K) (acc : Accessible g ok lo hi) (src dst : Grid K) :
    ∃ bgk trt, Threads.threadStreamCollide g ok (collideBGK omega) lo hi src dst = some bgk ∧
      Threads.threadStreamCollide g ok (collideTRTWith omega lambda) lo hi src dst = some trt ∧
      ∀ p, lo ≤ g.cellZ p → g.cellZ p < hi → ¬ testFlag (flagBits g src p) g.obstacle →
        ∑ d, populations g src p d ≠ 0 → EvenPartAgrees g omega lambda bgk trt p := by
  have iso := d3q19_isotropic (K := K)
  obtain ⟨bgk, runBGK, sentBGK⟩ := thread_populations (collideBGK_eq omega) acc src dst
  obtain ⟨trt, runTRT, sentTRT⟩ := thread_populations (collideTRTWith_eq omega lambda) acc src dst
  refine ⟨bgk, trt, runBGK, runTRT, fun p hlo hhi obstacle _ => ?_⟩
  have pair (d : Dir) : populations g trt p d + populations g trt p (opposite d) =
      populations g bgk p d + populations g bgk p (opposite d) := by
    rw [sentBGK p hlo hhi, sentTRT p hlo hhi, sentBy_fluid obstacle, sentBy_fluid obstacle]
    exact Lattice.trt_pair iso omega lambda _ _ d
  refine ⟨?_, pair, ?_⟩
  · have twice : 2 * populations g trt p C = 2 * populations g bgk p C := by
      rw [two_mul, two_mul]
      exact pair C
    exact mul_left_cancel₀ two_ne_zero twice
  · rintro rfl d
    rw [sentBGK p hlo hhi, sentTRT p hlo hhi, sentBy_fluid obstacle, sentBy_fluid obstacle]
    exact congrFun (Lattice.trt_eq_bgk lambda _ _) d

end Relaxed

section Single
open Config (single)

/-- A plain fluid cell that holds 1 to 19. -/
theorem unevenGrid_mass : ∑ d, populations single unevenGrid 0 d = 190 := by
  rw [sum_dir]
  decide +kernel

theorem threads_conserve_single :
    (∃ out, Threads.threadStreamCollide single single.InArray (collideBGK (3 / 2)) 0 1 unevenGrid
        unevenGrid = some out ∧ ∑ d, populations single out 0 d = 190 ∧
      momentumSums (populations single out 0) = momentumSums (populations single unevenGrid 0)) ∧
    ∃ out, Threads.threadStreamCollide single single.InArray (collideTRTWith (3 / 2) 5) 0 1 unevenGrid
        unevenGrid = some out ∧ ∑ d, populations single out 0 d = 190 ∧
      momentumSums (populations single out 0) = momentumSums (populations single unevenGrid 0) := by
  have dense : ∑ d, populations single unevenGrid 0 d ≠ 0 := by
    rw [unevenGrid_mass]
    decide
  have fluid : ¬ testFlag (flagBits single unevenGrid 0) single.obstacle := by decide
  have noAccel : ¬ testFlag (flagBits single unevenGrid 0) single.accel := by decide
  obtain ⟨⟨bgk, runBGK, hbgk⟩, ⟨trt, runTRT, htrt⟩⟩ :=
    threads_conserve (3 / 2) 5 (accessible_inArray (g := single) le_rfl le_rfl) unevenGrid unevenGrid
  have keepsBGK := hbgk 0 (by decide) (by decide)
  have keepsTRT := htrt 0 (by decide) (by decide)
  refine ⟨⟨bgk, runBGK, ?_, keepsBGK.momentum fluid noAccel dense⟩,
    ⟨trt, runTRT, ?_, keepsTRT.momentum fluid noAccel dense⟩⟩
  · exact (keepsBGK.mass (.inr dense)).trans unevenGrid_mass
  · exact (keepsTRT.mass (.inr dense)).trans unevenGrid_mass

theorem kernels_agree_on_even_single :
    ∃ bgk trt, Threads.threadStreamCollide single single.InArray (collideBGK (3 / 2)) 0 1 unevenGrid
        unevenGrid = some bgk ∧
      Threads.threadStreamCollide single single.InArray (collideTRTWith (3 / 2) 5) 0 1 unevenGrid
        unevenGrid = some trt ∧ EvenPartAgrees single (3 / 2) 5 bgk trt 0 := by
  obtain ⟨bgk, trt, runBGK, runTRT, agree⟩ := kernels_agree_on_even (3 / 2) 5
    (accessible_inArray (g := single) le_rfl le_rfl) unevenGrid unevenGrid
  refine ⟨bgk, trt, runBGK, runTRT, agree 0 (by decide) (by decide) (by decide) ?_⟩
  rw [unevenGrid_mass]
  decide

end Single

end MorelloWorkloads.Lbm
