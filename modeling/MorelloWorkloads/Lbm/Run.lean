import MorelloWorkloads.Lbm.Setup
import MorelloWorkloads.Lbm.Statistics

/-! Runs on two grids: every call is defined and leaves the flags alone, and in the
lid-driven cavity the mass that is shown stays the number of cells. -/
namespace MorelloWorkloads.Lbm
open CountedLoop FlatMemory LatticeBoltzmann Dir

variable {K : Type*} [Field K]

/-- The grids to which the two pointers of a run lead. -/
structure Grids (K : Type*) where
  src : Grid K
  dst : Grid K

/-- `LBM_swapGrids` -/
def swapGrids (s : Grids K) : Grids K := ⟨s.dst, s.src⟩

inductive Call (K : Type*)
  | streamCollide (op : Operator) (omega : K)
  | handleInOutFlow
  | swapGrids

namespace Call

def perform (g : Config) : Call K → Grids K → Option (Grids K)
  | .streamCollide op omega, s => do
    let dst ← op.perform g omega s.src s.dst
    return { s with dst }
  | .handleInOutFlow, s => do
    let src ← Original.handleInOutFlow g s.src
    return { s with src }
  | .swapGrids, s => some (Lbm.swapGrids s)

/-- What becomes of words that no call stores to. -/
def turn : Call K → Grids K → Grids K
  | .swapGrids => Lbm.swapGrids
  | _ => id

end Call

/-- The words that are no populations agree. -/
def SameRest (g : Config) (a b : Grid K) : Prop :=
  ∀ p e, 0 ≤ e → e < g.nCellEntries → (∀ d, g.offset d ≠ e) → a (g.word p e) = b (g.word p e)

section Runs
variable {g : Config}

omit [Field K] in
theorem SameRest.trans {a b c : Grid K} (ab : SameRest g a b) (bc : SameRest g b c) : SameRest g a c :=
  fun p e low high rest => (ab p e low high rest).trans (bc p e low high rest)

variable [CharZero K]

theorem handleInOutFlow_rest (grid : Grid K) :
    ∃ out, Original.handleInOutFlow g grid = some out ∧ SameRest g out grid := by
  obtain ⟨mid, out, -, run, inlet, outlet⟩ := handleInOutFlow_planes g grid
  refine ⟨out, run, fun p e low high rest => ?_⟩
  rw [outlet.other p e low high fun _ => rest, inlet.other p e low high fun _ => rest]

/-- One call: defined, with the other words as they were but for the swap. -/
theorem Call.perform_rest (c : Call K) (s : Grids K) : ∃ s', c.perform g s = some s' ∧
    SameRest g s'.src (c.turn s).src ∧ SameRest g s'.dst (c.turn s).dst := by
  cases c with
  | streamCollide op omega =>
    obtain ⟨out, run, -, rest⟩ := original_step (g := g) (op.collide_eq omega) s.src s.dst
    rw [← op.perform_eq] at run
    refine ⟨{ s with dst := out }, ?_, fun _ _ _ _ _ => rfl, rest⟩
    simp only [perform, run]
    rfl
  | handleInOutFlow =>
    obtain ⟨out, run, rest⟩ := handleInOutFlow_rest (g := g) s.src
    refine ⟨{ s with src := out }, ?_, rest, fun _ _ _ _ _ => rfl⟩
    simp only [perform, run]
    rfl
  | swapGrids => exact ⟨_, rfl, fun _ _ _ _ _ => rfl, fun _ _ _ _ _ => rfl⟩

omit [Field K] [CharZero K] in
theorem turn_rest (c : Call K) {s t : Grids K} (src : SameRest g s.src t.src)
    (dst : SameRest g s.dst t.dst) :
    SameRest g (c.turn s).src (c.turn t).src ∧ SameRest g (c.turn s).dst (c.turn t).dst := by
  cases c with
  | streamCollide => exact ⟨src, dst⟩
  | handleInOutFlow => exact ⟨src, dst⟩
  | swapGrids => exact ⟨dst, src⟩

/-- Whatever is called in whatever order on two allocated grids, no access leaves an
allocation, and the flags go with the grids as these are swapped. -/
theorem calls_run (g : Config) (calls : List (Call K)) (s : Grids K) :
    ∃ s', calls.foldlM (fun s c => c.perform g s) s = some s' ∧
      SameRest g s'.src (calls.foldl (fun s c => c.turn s) s).src ∧
      SameRest g s'.dst (calls.foldl (fun s c => c.turn s) s).dst := by
  have run (t : Grids K) (src : SameRest g s.src t.src) (dst : SameRest g s.dst t.dst) :
      ∃ s', calls.foldlM (fun s c => c.perform g s) s = some s' ∧
        SameRest g s'.src (calls.foldl (fun s c => c.turn s) t).src ∧
        SameRest g s'.dst (calls.foldl (fun s c => c.turn s) t).dst := by
    induction calls generalizing s t with
    | nil => exact ⟨s, rfl, src, dst⟩
    | cons c rest ih =>
      obtain ⟨mid, here, midSrc, midDst⟩ := c.perform_rest (g := g) s
      obtain ⟨turnedSrc, turnedDst⟩ := turn_rest c src dst
      obtain ⟨s', later, final⟩ := ih mid (c.turn t) (midSrc.trans turnedSrc) (midDst.trans turnedDst)
      refine ⟨s', ?_, final⟩
      rw [List.foldlM_cons, here]
      exact later
  exact run s (fun _ _ _ _ _ => rfl) fun _ _ _ _ _ => rfl

end Runs

/-! ## The closed box -/

section Cavity
variable {g : Config}

/-- Where the lid-driven cavity has its obstacles. -/
def Wall (g : Config) (p : ℤ) : Prop :=
  g.cellX p = 0 ∨ g.cellX p = g.sizeX - 1 ∨ g.cellY p = 0 ∨ g.cellY p = g.sizeY - 1 ∨
    g.cellZ p = 0 ∨ g.cellZ p = g.sizeZ - 1

theorem shift_opposite (d : Dir) : shift g (opposite d) = -shift g d := by
  cases d <;> simp only [shift, opposite, neighbor, Config.cell] <;> ring

theorem neighbor_bounds (d : Dir) : (-1 ≤ (neighbor d).1 ∧ (neighbor d).1 ≤ 1) ∧
    (-1 ≤ (neighbor d).2.1 ∧ (neighbor d).2.1 ≤ 1) ∧ (-1 ≤ (neighbor d).2.2 ∧ (neighbor d).2.2 ≤ 1) := by
  cases d <;> decide

/-- Only walls stream out of the array. -/
theorem wall_of_crossing {p : ℤ} {d : Dir} (here : InGrid g p) (there : ¬ InGrid g (p + shift g d)) :
    Wall g p := by
  by_contra inner
  have x : 0 ≤ g.cellX p ∧ g.cellX p < g.sizeX :=
    ⟨Int.emod_nonneg _ g.sizeX_pos.ne', Int.emod_lt_of_pos _ g.sizeX_pos⟩
  have y : 0 ≤ g.cellY p ∧ g.cellY p < g.sizeY :=
    ⟨Int.emod_nonneg _ g.sizeY_pos.ne', Int.emod_lt_of_pos _ g.sizeY_pos⟩
  have z := (inGrid_iff p).mp here
  obtain ⟨dx, dy, dz⟩ := neighbor_bounds d
  have moved : p + shift g d = g.cell (g.cellX p + (neighbor d).1) (g.cellY p + (neighbor d).2.1)
      (g.cellZ p + (neighbor d).2.2) := by
    have cell := Config.cell_of_coords (g := g) p
    unfold Config.cell at cell ⊢
    rw [shift, Config.cell]
    linear_combination -cell
  simp only [Wall, not_or] at inner
  have landed := Config.cell_coords (g := g) (x := g.cellX p + (neighbor d).1)
    (y := g.cellY p + (neighbor d).2.1) (z := g.cellZ p + (neighbor d).2.2) (by omega) (by omega)
  apply there
  rw [inGrid_iff, moved, landed.2.2]
  omega

/-- What every grid of the cavity keeps: its walls are obstacles, and the populations
that no cell streams to are still those of the start. -/
structure Closed (g : Config) (grid : Grid K) : Prop where
  walls : ∀ p, InGrid g p → Wall g p → testFlag (flagBits g grid p) g.obstacle
  edge : ∀ p d, InGrid g p → ¬ InGrid g (p - shift g d) → populations g grid p d = weight d

section Step
variable [CharZero K]

/-- What the walls send out of the array balances what the edges hold. -/
theorem Closed.balance (relax : (Dir → K) → (Dir → K) → Dir → K) {src dst : Grid K}
    (closedSrc : Closed g src) (closedDst : Closed g dst) :
    ∑ d, ∑ p ∈ g.cells with ¬ InGrid g (p + shift g d), sentBy g relax src p d = massEntered g dst := by
  have iso := d3q19_isotropic (K := K)
  have out (d : Dir) : ∑ p ∈ g.cells with ¬ InGrid g (p + shift g d), sentBy g relax src p d =
      ∑ p ∈ g.cells with ¬ InGrid g (p - shift g (opposite d)), weight (opposite d) := by
    rw [shift_opposite]
    simp only [sub_neg_eq_add]
    refine Finset.sum_congr rfl fun p hp => ?_
    obtain ⟨member, crosses⟩ := Finset.mem_filter.mp hp
    have here := Config.mem_cells.mp member
    rw [sentBy_obstacle (closedSrc.walls p here (wall_of_crossing here crosses))]
    apply closedSrc.edge p (opposite d) here
    rwa [shift_opposite, sub_neg_eq_add]
  have entered : massEntered g dst =
      ∑ d, ∑ p ∈ g.cells with ¬ InGrid g (p - shift g d), (weight d : K) := by
    refine Finset.sum_congr rfl fun d _ => Finset.sum_congr rfl fun p hp => ?_
    obtain ⟨member, crosses⟩ := Finset.mem_filter.mp hp
    exact closedDst.edge p d (Config.mem_cells.mp member) crosses
  rw [Finset.sum_congr rfl fun d _ => out d, entered]
  exact Lattice.sum_opposite iso fun d =>
    ∑ p ∈ g.cells with ¬ InGrid g (p - shift g d), (weight d : K)

theorem Closed.step (op : Operator) (omega : K) {src dst : Grid K} (closedSrc : Closed g src)
    (closedDst : Closed g dst) : ∃ out, op.perform g omega src dst = some out ∧ Closed g out ∧
      mass g out = mass g src := by
  obtain ⟨out, run, moved, rest⟩ := original_step (g := g) (op.collide_eq omega) src dst
  obtain ⟨out', run', balance⟩ := step_mass (g := g) (op.collide_eq omega) src dst
  obtain rfl : out = out' := Option.some.inj (run.symm.trans run')
  rw [op.perform_eq]
  have closed : Closed g out := by
    constructor
    · intro p here wall
      rw [flagBits, rest p g.flags g.flags_range.1 g.flags_range.2 g.flags_ne]
      exact closedDst.walls p here wall
    · intro p d here edge
      rw [populations, moved, if_neg edge]
      exact closedDst.edge p d here edge
  have left : massLeft g out = massEntered g dst := by
    rw [← closedSrc.balance (op.relax omega) closedDst]
    refine Finset.sum_congr rfl fun d _ => Finset.sum_congr rfl fun p hp => ?_
    have sender : InGrid g (p + shift g d - shift g d) := by
      rw [add_sub_cancel_right]
      exact Config.mem_cells.mp (Finset.mem_filter.mp hp).1
    rw [populations, moved, if_pos sender, add_sub_cancel_right]
    rfl
  refine ⟨out, run, closed, ?_⟩
  rw [left] at balance
  simp only [sentBy_mass] at balance
  exact add_right_cancel balance

end Step

/-! ## Its start -/

/-- A grid of the cavity before the first step. -/
def initializeCavity (g : Config) (grid : Grid K) : Option (Grid K) := do
  let grid ← Original.initializeGrid g grid
  Original.initializeSpecialCellsForLDC g grid

theorem initialCell_nodup (p : ℤ) :
    ((initialCell g (g.word p) : List (Edit ℤ (Word K))).map Edit.addr).Nodup := by
  have addrs : (initialCell g (g.word p) : List (Edit ℤ (Word K))).map Edit.addr =
      (fluidOrder.map g.offset ++ [g.flags]).map (g.word p) := rfl
  rw [addrs]
  apply List.Nodup.map
  · intro e e' same
    exact add_right_cancel same
  · rw [List.nodup_append]
    refine ⟨List.Nodup.map g.offset_inj (by decide), List.nodup_singleton _, ?_⟩
    intro e he e' he'
    obtain ⟨d, -, rfl⟩ := List.mem_map.mp he
    obtain rfl := List.mem_singleton.mp he'
    exact g.flags_ne d

theorem initialCell_population (grid : Grid K) (p : ℤ) (d : Dir) :
    populations g (runAll grid (initialCell g (g.word p))) p d = weight d := by
  have mem : storeVal (g.word p (g.offset d)) (weight d) ∈
      (initialCell g (g.word p) : List (Edit ℤ (Word K))) := by
    apply List.mem_append_left
    refine List.mem_map.mpr ⟨(d, weight d), ?_, rfl⟩
    cases d <;> simp [weight]
  rw [populations]
  exact congrArg Word.val (runAll_of_mem (initialCell_nodup p) mem grid)

theorem ldcCell_population (grid : Grid K) (p : ℤ) (d : Dir) :
    populations g (runAll grid (Initializer.cell g .ldc p)) p d = populations g grid p d := by
  have own : g.calcIndex (g.cellX p) (g.cellY p) (g.cellZ p) g.flags = g.word p g.flags := by
    rw [Config.calcIndex_eq, Config.cell_of_coords]
  have flagsOnly : ∀ e ∈ (Initializer.cell g .ldc p : List (Edit ℤ (Word K))), e.addr = g.word p g.flags := by
    intro e he
    simp only [Initializer.cell, ldcCell, own] at he
    split at he
    · obtain rfl := List.mem_singleton.mp he
      rfl
    · split at he
      · obtain rfl := List.mem_singleton.mp he
        rfl
      · cases he
  rw [populations, runAll_of_forall_ne]
  · rfl
  · intro e he same
    rw [flagsOnly e he] at same
    exact g.flags_ne d (Config.word_inj g.flags_range (g.offset_range d) same).2.symm

theorem ldcCell_wall (visible : g.obstacle ≠ 0) (grid : Grid K) {p : ℤ} (wall : Wall g p) :
    testFlag (flagBits g (runAll grid (Initializer.cell g .ldc p)) p) g.obstacle := by
  have own : g.calcIndex (g.cellX p) (g.cellY p) (g.cellZ p) g.flags = g.word p g.flags := by
    rw [Config.calcIndex_eq, Config.cell_of_coords]
  have cell : (Initializer.cell g .ldc p : List (Edit ℤ (Word K))) =
      [setFlag (g.word p g.flags) g.obstacle] := by
    rw [Wall] at wall
    rw [Initializer.cell, ldcCell, if_pos wall, own]
  have word : runAll grid [setFlag (g.word p g.flags) g.obstacle] (g.word p g.flags) =
      { grid (g.word p g.flags) with bits := (grid (g.word p g.flags)).bits ||| g.obstacle } :=
    run_self _ (setFlag (g.word p g.flags) g.obstacle)
  have absorbed (b o : BitVec 32) : (b ||| o) &&& o = o := by
    ext i
    simpa using Or.inr
  rw [cell, flagBits, word, testFlag, absorbed]
  exact bne_iff_ne.mpr visible

/-- Both grids start closed, with one unit of mass in every cell. -/
theorem initializeCavity_closed [CharZero K] (visible : g.obstacle ≠ 0) (grid : Grid K) :
    ∃ out, initializeCavity g grid = some out ∧ Closed g out ∧
      ∀ p, InGrid g p → ∑ d, populations g out p d = 1 := by
  let first := runAll grid (Initializer.work g .grid (-2) (g.sizeZ + 2))
  let second := runAll first (Initializer.work g .ldc (-2) (g.sizeZ + 2))
  have run : initializeCavity g grid = some second := by
    have grid_run := Initializer.grid.original_run (g := g) grid
    have ldc_run := Initializer.ldc.original_run (g := g) first
    simp only [Initializer.original] at grid_run ldc_run
    rw [initializeCavity, grid_run]
    exact ldc_run
  have reached {p : ℤ} (here : InGrid g p) : -2 ≤ g.cellZ p ∧ g.cellZ p < g.sizeZ + 2 := by
    have := (inGrid_iff p).mp here
    omega
  have population {p : ℤ} (here : InGrid g p) (d : Dir) : populations g second p d = weight d := by
    have after := Initializer.ldc.work_word (-2) (g.sizeZ + 2) first (g.offset_range d) (p := p)
    have before := Initializer.grid.work_word (-2) (g.sizeZ + 2) grid (g.offset_range d) (p := p)
    rw [if_pos (reached here)] at after before
    calc populations g second p d
        = populations g (runAll first (Initializer.cell g .ldc p)) p d := congrArg Word.val after
      _ = populations g first p d := ldcCell_population first p d
      _ = populations g (runAll grid (Initializer.cell g .grid p)) p d := congrArg Word.val before
      _ = weight d := initialCell_population grid p d
  refine ⟨second, run, ⟨fun p here wall => ?_, fun p d here _ => population here d⟩, fun p here => ?_⟩
  · have after := Initializer.ldc.work_word (-2) (g.sizeZ + 2) first g.flags_range (p := p)
    rw [if_pos (reached here)] at after
    have flag := ldcCell_wall visible first wall
    rwa [flagBits, ← after] at flag
  · simp only [population here]
    exact (d3q19_isotropic (K := K)).weight_sum

/-! ## Its run -/

/-- A time step of the cavity, with the operator and the rate that it takes. -/
def timeStep : Operator × K → List (Call K)
  | (op, omega) => [.streamCollide op omega, .swapGrids]

/-- No step of the run divides by the density of a cell that has none. -/
def DenseRun (g : Config) : List (Operator × K) → Grids K → Prop
  | [], _ => True
  | step :: rest, s => Dense g s.src ∧
      ∀ s', (timeStep step).foldlM (fun s c => c.perform g s) s = some s' → DenseRun g rest s'

section Run
variable [CharZero K]

theorem timeStep_closed (step : Operator × K) {s : Grids K} (src : Closed g s.src) (dst : Closed g s.dst) :
    ∃ s', (timeStep step).foldlM (fun s c => c.perform g s) s = some s' ∧ Closed g s'.src ∧
      Closed g s'.dst ∧ mass g s'.src = mass g s.src := by
  obtain ⟨op, omega⟩ := step
  obtain ⟨out, run, closed, same⟩ := src.step op omega dst
  refine ⟨⟨out, s.src⟩, ?_, closed, src, same⟩
  simp only [timeStep, List.foldlM_cons, List.foldlM_nil, Call.perform, run]
  rfl

theorem steps_closed (steps : List (Operator × K)) {s : Grids K} (src : Closed g s.src)
    (dst : Closed g s.dst) : ∃ s', (steps.flatMap timeStep).foldlM (fun s c => c.perform g s) s = some s' ∧
      Closed g s'.src ∧ Closed g s'.dst ∧ mass g s'.src = mass g s.src := by
  induction steps generalizing s with
  | nil => exact ⟨s, rfl, src, dst, rfl⟩
  | cons step rest ih =>
    obtain ⟨mid, here, midSrc, midDst, midMass⟩ := timeStep_closed step src dst
    obtain ⟨s', later, lastSrc, lastDst, lastMass⟩ := ih midSrc midDst
    refine ⟨s', ?_, lastSrc, lastDst, lastMass.trans midMass⟩
    rw [List.flatMap_cons, List.foldlM_append, here]
    exact later

/-- In the lid-driven cavity, any number of steps after the grids are initialised, the
mass that is shown is the number of cells: what the walls lose through the ends of the
array is what the grids still hold there from the start. -/
theorem cavity_mass [LinearOrder K] (g : Config) (visible : g.obstacle ≠ 0) (one two : Grid K)
    (steps : List (Operator × K)) (_proper : ∀ step ∈ steps, step.1.Proper step.2) :
    ∃ src dst, initializeCavity g one = some src ∧
      initializeCavity g two = some dst ∧ (DenseRun g steps ⟨src, dst⟩ →
        ∃ s' report, (steps.flatMap timeStep).foldlM (fun s c => c.perform g s) ⟨src, dst⟩ = some s' ∧
          showGridStatistics g s'.src = some report ∧
          report.mass = ((g.sizeX * g.sizeY * g.sizeZ : ℤ) : K)) := by
  obtain ⟨src, runSrc, closedSrc, unit⟩ := initializeCavity_closed visible one
  obtain ⟨dst, runDst, closedDst, -⟩ := initializeCavity_closed visible two
  refine ⟨src, dst, runSrc, runDst, fun _ => ?_⟩
  obtain ⟨s', run, -, -, same⟩ := steps_closed steps (s := ⟨src, dst⟩) closedSrc closedDst
  obtain ⟨report, shown, value⟩ := shown_mass g s'.src
  have start : mass g src = ((g.sizeX * g.sizeY * g.sizeZ : ℤ) : K) := by
    have size : 0 ≤ g.sizeZ * g.plane := mul_nonneg g.sizeZ_pos.le g.plane_pos.le
    have card : g.cells.card = (g.sizeZ * g.plane).toNat := by
      rw [Config.cells, trips_toFinset, Int.card_Ico, sub_zero]
    rw [mass, Finset.sum_congr rfl fun p hp => unit p (Config.mem_cells.mp hp), Finset.sum_const, card,
      nsmul_one, ← Int.cast_natCast, Int.toNat_of_nonneg size, Config.plane, mul_comm]
  exact ⟨s', report, run, shown, by rw [value, same, start]⟩

end Run
end Cavity

theorem calls_run_small : ∃ s',
    [Call.handleInOutFlow, .streamCollide .trt (3 / 2), .swapGrids].foldlM
      (fun s c => c.perform Config.small s) (⟨levelGrid, unevenGrid⟩ : Grids ℚ) = some s' ∧
    SameRest Config.small s'.src unevenGrid ∧ SameRest Config.small s'.dst levelGrid :=
  calls_run Config.small [.handleInOutFlow, .streamCollide .trt (3 / 2), .swapGrids] ⟨levelGrid, unevenGrid⟩

theorem cavity_mass_small : ∃ src dst s' report, initializeCavity Config.small levelGrid = some src ∧
    initializeCavity Config.small unevenGrid = some dst ∧
    (timeStep (.trt, 3 / 2)).foldlM (fun s c => c.perform Config.small s) ⟨src, dst⟩ = some s' ∧
    showGridStatistics Config.small s'.src = some report ∧ report.mass = 36 := by
  have visible : Config.small.obstacle ≠ 0 := by decide
  obtain ⟨src, dst, runSrc, runDst, whole⟩ :=
    cavity_mass Config.small visible levelGrid unevenGrid [(.trt, 3 / 2)]
      (by norm_num [Operator.Proper])
  obtain ⟨src', runSrc', -, unit⟩ := initializeCavity_closed visible levelGrid
  obtain rfl : src = src' := Option.some.inj (runSrc.symm.trans runSrc')
  have dense : Dense Config.small src := by
    intro p here _
    rw [unit p here]
    exact one_ne_zero
  obtain ⟨s', report, run, shown, value⟩ := whole ⟨dense, fun _ _ => trivial⟩
  refine ⟨src, dst, s', report, runSrc, runDst, run, shown, ?_⟩
  rw [value]
  norm_num [Config.small]

end MorelloWorkloads.Lbm
