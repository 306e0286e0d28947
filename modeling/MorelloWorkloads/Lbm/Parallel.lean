import MorelloWorkloads.Lib.SharedMemory
import MorelloWorkloads.Lbm.Flow
import MorelloWorkloads.Lbm.Port
import MorelloWorkloads.Lbm.Setup

/-! The loops that the original puts under `omp parallel for`, access by access.
Storing a `double` or setting a flag is here a load and a store of the word. -/
namespace MorelloWorkloads.Lbm
open CountedLoop FlatMemory SharedMemory LatticeBoltzmann Dir

variable {K : Type*} [Field K]

/-- The two grids of a step, in one memory. -/
inductive Buffer where
  | src
  | dst
  deriving DecidableEq

abbrev Place := Buffer × ℤ

def both (srcGrid dstGrid : Grid K) : Place → Word K
  | (.src, i) => srcGrid i
  | (.dst, i) => dstGrid i

section Code
variable {ι : Type*}

def editCode (place : ℤ → ι) (e : Edit ℤ (Word K)) (next : Code ι (Word K)) : Code ι (Word K) :=
  .load (place e.addr) fun w => .store (place e.addr) (e.change w) next

def editsCode (place : ℤ → ι) (l : List (Edit ℤ (Word K))) : Code ι (Word K) :=
  l.foldr (editCode place) .done

/-- Loads the populations `ds` of a cell and goes on with them. -/
def loadAll (place : Dir → ι) (next : (Dir → K) → Code ι (Word K)) :
    List Dir → (Dir → K) → Code ι (Word K)
  | [], src => next src
  | d :: ds, src => .load (place d) fun w => loadAll place next ds (Function.update src d w.val)

end Code

/-- The stores of an obstacle and where their values come from. -/
def bouncePairs : List (Dir × Dir) :=
  [(C, C), (S, N), (N, S), (W, E), (E, W), (B, T), (T, B), (SW, NE), (SE, NW), (NW, SE), (NE, SW),
    (SB, NT), (ST, NB), (NB, ST), (NT, SB), (WB, ET), (WT, EB), (EB, WT), (ET, WB)]

/-- An obstacle loads and stores by turns. -/
def bounceCode (origin target : Dir → ℤ) : List (Dir × Dir) → Code Place (Word K)
  | [] => .done
  | (d, e) :: pairs => .load (.src, origin e) fun w =>
    editCode (Prod.mk .dst) (storeVal (target d) w.val) (bounceCode origin target pairs)

/-- The accesses of a pass of the step. -/
def stepCode (g : Config) (collide : (Dir → K) → Moments K → List (Dir × K)) (p : ℤ) :
    Code Place (Word K) :=
  let i := g.nCellEntries * p
  .load (.src, g.calcIndex 0 0 0 g.flags + i) fun flags =>
    if testFlag flags.bits g.obstacle then
      bounceCode (fun d => g.calcIndex 0 0 0 (g.offset d) + i) (Original.neighborIndex g i) bouncePairs
    else
      loadAll (fun d => (.src, g.calcIndex 0 0 0 (g.offset d) + i)) (fun src =>
        .load (.src, g.calcIndex 0 0 0 g.flags + i) fun flags =>
          editsCode (Prod.mk .dst) ((collide src (moments g src flags.bits)).map fun (d, v) =>
            storeVal (Original.neighborIndex g i d) v)) fluidOrder fun _ => 0

/-- A pass of the sweeps of `LBM_handleInOutFlow`. -/
def boundaryCode (g : Config) (near far : ℤ)
    (moments : ℤ → ℤ → (Dir → K) → (Dir → K) → Moments K) (p : ℤ) : Code ℤ (Word K) :=
  let i := g.nCellEntries * p
  loadAll (fun d => g.calcIndex 0 0 near (g.offset d) + i) (fun one =>
    loadAll (fun d => g.calcIndex 0 0 far (g.offset d) + i) (fun two =>
      let m := moments (i / g.nCellEntries % g.sizeX) (i / g.nCellEntries / g.sizeX % g.sizeY) one two
      editsCode id ((equilibriumStores m).map fun (d, v) =>
        storeVal (g.calcIndex 0 0 0 (g.offset d) + i) v)) fluidOrder fun _ => 0) fluidOrder fun _ => 0

/-! ## What a pass does alone, and where -/

section Alone
variable {ι : Type*} [DecidableEq ι] {place : ℤ → ι} (view : Grid K → ι → Word K)
  (holds : ∀ m i, view m (place i) = m i)
  (put : ∀ m i w, Function.update (view m) (place i) w = view (Function.update m i w))
include holds put

omit [Field K] in
theorem editCode_alone (e : Edit ℤ (Word K)) (next : Code ι (Word K)) (m : Grid K) :
    (editCode place e next).alone (view m) = next.alone (view (e.run m)) := by
  rw [editCode, Code.alone, Code.alone, holds, put]
  rfl

omit [Field K] in
theorem editsCode_alone (l : List (Edit ℤ (Word K))) (m : Grid K) :
    (editsCode place l).alone (view m) = view (runAll m l) := by
  induction l generalizing m with
  | nil => rfl
  | cons e es ih =>
    have rest := ih (e.run m)
    rwa [← editCode_alone view holds put] at rest

end Alone

section Load
variable {ι : Type*} [DecidableEq ι]

omit [Field K] in
theorem loadAll_alone (place : Dir → ι) (next : (Dir → K) → Code ι (Word K)) (ds : List Dir)
    (src : Dir → K) (m : ι → Word K) : (loadAll place next ds src).alone m =
      (next fun d => if d ∈ ds then (m (place d)).val else src d).alone m := by
  induction ds generalizing src with
  | nil => simp [loadAll]
  | cons d ds ih =>
    rw [loadAll, Code.alone, ih]
    congr 2
    funext d'
    by_cases same : d' = d
    · subst same
      simp
    · simp [same]

omit [Field K] in
theorem loadAll_every (place : Dir → ι) (next : (Dir → K) → Code ι (Word K)) (src : Dir → K)
    (m : ι → Word K) :
    (loadAll place next fluidOrder src).alone m = (next fun d => (m (place d)).val).alone m := by
  have every (d : Dir) : d ∈ fluidOrder := by cases d <;> decide
  rw [loadAll_alone]
  simp only [every, if_true]

omit [Field K] [DecidableEq ι] in
theorem loadAll_within {reads writes : Set ι} {place : Dir → ι} {next : (Dir → K) → Code ι (Word K)}
    (named : ∀ d, place d ∈ reads) (rest : ∀ src, (next src).Within reads writes) (ds : List Dir)
    (src : Dir → K) : (loadAll place next ds src).Within reads writes := by
  induction ds generalizing src with
  | nil => exact rest src
  | cons d ds ih => exact ⟨Or.inl (named d), fun w => ih _⟩

omit [Field K] [DecidableEq ι] in
theorem editsCode_within {reads writes : Set ι} {place : ℤ → ι} {l : List (Edit ℤ (Word K))}
    (named : ∀ e ∈ l, place e.addr ∈ writes) : (editsCode place l).Within reads writes := by
  induction l with
  | nil => trivial
  | cons e es ih =>
    have mem := named e List.mem_cons_self
    exact ⟨Or.inr mem, fun _ => ⟨mem, ih fun d hd => named d (List.mem_cons_of_mem e hd)⟩⟩

end Load

omit [Field K] in
theorem both_put (srcGrid m : Grid K) (i : ℤ) (w : Word K) :
    Function.update (both srcGrid m) (.dst, i) w = both srcGrid (Function.update m i w) := by
  funext k
  obtain ⟨buffer, j⟩ := k
  cases buffer with
  | src => rfl
  | dst =>
    by_cases same : j = i
    · subst same
      simp [both]
    · have other : ((.dst, j) : Place) ≠ (.dst, i) := fun eq => same (congrArg Prod.snd eq)
      simp [both, Function.update_of_ne same, Function.update_of_ne other]

variable {g : Config}

omit [Field K] in
theorem bounceCode_alone (origin target : Dir → ℤ) (pairs : List (Dir × Dir)) (srcGrid m : Grid K) :
    (bounceCode origin target pairs).alone (both srcGrid m) =
      both srcGrid (runAll m (pairs.map fun (d, e) => storeVal (target d) (srcGrid (origin e)).val)) := by
  induction pairs generalizing m with
  | nil => rfl
  | cons pair pairs ih =>
    rw [bounceCode, Code.alone, editCode_alone (both srcGrid) (fun _ _ => rfl) (both_put srcGrid),
      ih]
    rfl

omit [Field K] in
theorem bounceCode_within {reads writes : Set Place} {origin target : Dir → ℤ}
    (loaded : ∀ d, ((.src, origin d) : Place) ∈ reads) (stored : ∀ d, ((.dst, target d) : Place) ∈ writes)
    (pairs : List (Dir × Dir)) :
    (bounceCode origin target pairs : Code Place (Word K)).Within reads writes := by
  induction pairs with
  | nil => trivial
  | cons pair pairs ih =>
    exact ⟨Or.inl (loaded pair.2), fun w => ⟨Or.inr (stored pair.1), fun _ => ⟨stored pair.1, ih⟩⟩⟩

theorem stepCode_alone (collide : (Dir → K) → Moments K → List (Dir × K)) (srcGrid m : Grid K) (p : ℤ) :
    (stepCode g collide p).alone (both srcGrid m) =
      both srcGrid (runAll m (cellProgram g collide srcGrid (shift g) p)) := by
  have here (e : ℤ) : g.calcIndex 0 0 0 e + g.nCellEntries * p = g.word p e := by
    unfold Config.calcIndex Config.word
    ring
  have there : Original.neighborIndex g (g.nCellEntries * p) =
      fun d => g.word (p + shift g d) (g.offset d) := funext fun d => word_add p _ _
  have flags : both srcGrid m ((.src, g.word p g.flags) : Place) = srcGrid (g.word p g.flags) := rfl
  have bits : (srcGrid (g.word p g.flags)).bits = flagBits g srcGrid p := rfl
  simp only [stepCode, here, there, Code.alone, flags, bits]
  rw [cellProgram, cellStores]
  split
  · rw [bounceCode_alone]
    rfl
  · rw [loadAll_every, Code.alone,
      editsCode_alone (both srcGrid) (fun _ _ => rfl) (both_put srcGrid)]
    rfl

/-- The words that a pass of the step loads and stores. -/
def stepReads (g : Config) (p : ℤ) : Set Place :=
  {k | ∃ e, (0 ≤ e ∧ e < g.nCellEntries) ∧ k = (.src, g.word p e)}

def stepWrites (g : Config) (p : ℤ) : Set Place :=
  {k | ∃ d, k = (.dst, g.word (p + shift g d) (g.offset d))}

theorem stepCode_within (collide : (Dir → K) → Moments K → List (Dir × K)) (p : ℤ) :
    (stepCode g collide p).Within (stepReads g p) (stepWrites g p) := by
  have here (e : ℤ) : g.calcIndex 0 0 0 e + g.nCellEntries * p = g.word p e := by
    unfold Config.calcIndex Config.word
    ring
  have there : Original.neighborIndex g (g.nCellEntries * p) =
      fun d => g.word (p + shift g d) (g.offset d) := funext fun d => word_add p _ _
  have flags : ((.src, g.word p g.flags) : Place) ∈ stepReads g p := ⟨g.flags, g.flags_range, rfl⟩
  have own (d : Dir) : ((.src, g.word p (g.offset d)) : Place) ∈ stepReads g p :=
    ⟨g.offset d, g.offset_range d, rfl⟩
  have next (d : Dir) : ((.dst, g.word (p + shift g d) (g.offset d)) : Place) ∈ stepWrites g p :=
    ⟨d, rfl⟩
  simp only [stepCode, here, there]
  refine ⟨Or.inl flags, fun w => ?_⟩
  beta_reduce
  split
  · exact bounceCode_within own next bouncePairs
  · apply loadAll_within own
    intro src
    refine ⟨Or.inl flags, fun w => editsCode_within ?_⟩
    intro e he
    obtain ⟨⟨d, v⟩, -, rfl⟩ := List.mem_map.mp he
    exact next d

/-- No two passes of the step store to one word, and none stores to a source. -/
theorem step_independent (collide : (Dir → K) → Moments K → List (Dir × K)) (l : List ℤ) :
    Independent (stepCode g collide) (stepReads g) (stepWrites g) l where
  within p _ := stepCode_within collide p
  apart p _ q _ other := by
    apply Set.disjoint_left.mpr
    rintro k ⟨d, rfl⟩ (⟨e, -, read⟩ | ⟨d', write⟩)
    · cases read
    · obtain ⟨cell, entry⟩ := Config.word_inj (g.offset_range d) (g.offset_range d')
        (congrArg Prod.snd write)
      obtain rfl := g.offset_inj _ _ entry
      exact other (by omega)

theorem foldl_step (collide : (Dir → K) → Moments K → List (Dir × K)) (srcGrid m : Grid K) (l : List ℤ) :
    l.foldl (fun m p => (stepCode g collide p).alone m) (both srcGrid m) =
      both srcGrid (runAll m (l.flatMap (cellProgram g collide srcGrid (shift g)))) := by
  induction l generalizing m with
  | nil => rfl
  | cons p ps ih => rw [List.foldl_cons, stepCode_alone, ih, List.flatMap_cons, runAll_append]

theorem step_allowed {p : ℤ} (hp : p ∈ trips 0 (g.sizeZ * g.plane) 1) :
    ∀ k ∈ stepReads g p ∪ stepWrites g p, g.Allocated k.2 := by
  have inside := mem_trips_one.mp hp
  have plane := g.plane_pos
  rintro k (⟨e, he, rfl⟩ | ⟨d, rfl⟩)
  · rw [Config.allocated_word he]
    constructor <;> linarith
  · have bounds := shift_bounds (g := g) d
    rw [Config.allocated_word (g.offset_range d)]
    constructor <;> linarith

/-- The collision operators of the two steps. -/
inductive Operator where
  | bgk
  | trt

namespace Operator

def collide (omega : K) : Operator → (Dir → K) → Moments K → List (Dir × K)
  | .bgk => collideBGK omega
  | .trt => collideTRT omega

def relax (omega : K) : Operator → (Dir → K) → (Dir → K) → Dir → K
  | .bgk => Lattice.bgk omega
  | .trt => (d3q19 K).trt omega (lambda0 omega)

/-- `LBM_performStreamCollideBGK` or `LBM_performStreamCollideTRT`. -/
def perform (g : Config) (omega : K) : Operator → Grid K → Grid K → Option (Grid K)
  | .bgk => Original.performStreamCollideBGK g omega
  | .trt => Original.performStreamCollideTRT g omega

theorem perform_eq (omega : K) (op : Operator) :
    op.perform g omega = Original.performStreamCollide g (op.collide omega) := by
  cases op <;> rfl

theorem collide_eq [CharZero K] (omega : K) (op : Operator) (src : Dir → K) (m : Moments K) :
    op.collide omega src m =
      fluidOrder.map fun d => (d, op.relax omega src ((d3q19 K).equilibrium m.rho m.u) d) := by
  cases op with
  | bgk => exact collideBGK_eq omega src m
  | trt => exact collideTRT_eq omega src m

end Operator

/-- The step under `omp parallel for`: however the cells are shared out among
threads, and in whatever order the threads load and store, no access leaves the
allocation and the grids end as after the step of one thread. -/
theorem performStreamCollide_parallel [CharZero K] (g : Config) (op : Operator) (omega : K)
    (srcGrid dstGrid : Grid K) : ∃ out, op.perform g omega srcGrid dstGrid = some out ∧
      Leaves (stepCode g (op.collide omega)) (trips 0 (g.sizeZ * g.plane) 1)
        (fun k => g.Allocated k.2) (both srcGrid dstGrid) (both srcGrid out) := by
  have tab (p : ℤ) := cellStores_tabulates g (populations g srcGrid p) (flagBits g srcGrid p)
    (op.collide_eq omega)
  have run := original_run tab dstGrid
  have loop := (step_independent (g := g) (op.collide omega) _).leaves (trips_nodup one_pos)
    (fun p hp => step_allowed hp) (both srcGrid dstGrid)
  rw [← op.perform_eq] at run
  rw [foldl_step] at loop
  exact ⟨_, run, loop⟩

/-! ## The loops on one grid -/

def boundaryReads (g : Config) (near far p : ℤ) : Set ℤ :=
  {k | ∃ d, k = g.word (p + near * g.plane) (g.offset d) ∨ k = g.word (p + far * g.plane) (g.offset d)}

def boundaryWrites (g : Config) (p : ℤ) : Set ℤ := {k | ∃ d, k = g.word p (g.offset d)}

section Boundary
variable {near far : ℤ} (moments : ℤ → ℤ → (Dir → K) → (Dir → K) → Moments K)

theorem boundaryCode_eq (p : ℤ) : boundaryCode g near far moments p =
    loadAll (fun d => g.word (p + near * g.plane) (g.offset d)) (fun one =>
      loadAll (fun d => g.word (p + far * g.plane) (g.offset d)) (fun two =>
        editsCode id (ownStores g (fun q =>
          equilibriumStores (moments (g.cellX q) (g.cellY q) one two)) p))
        fluidOrder fun _ => 0) fluidOrder fun _ => 0 := by
  have place (k e : ℤ) : g.calcIndex 0 0 k e + g.nCellEntries * p = g.word (p + k * g.plane) e := by
    unfold Config.calcIndex Config.word Config.plane
    ring
  have number : g.nCellEntries * p / g.nCellEntries = p :=
    Int.mul_ediv_cancel_left _ g.nCellEntries_pos.ne'
  simp only [boundaryCode, place, number, zero_mul, add_zero]
  rfl

theorem boundaryCode_alone (p : ℤ) (m : Grid K) : (boundaryCode g near far moments p).alone m =
    runAll m (ownStores g (fun q => equilibriumStores (boundaryTable g near far moments m q)) p) := by
  rw [boundaryCode_eq, loadAll_every, loadAll_every]
  exact editsCode_alone (fun m : Grid K => m) (fun _ _ => rfl) (fun _ _ _ => rfl) _ m

theorem boundary_independent (notHere : near ≠ 0 ∧ far ≠ 0) (z : ℤ) :
    Independent (boundaryCode g near far moments) (boundaryReads g near far) (boundaryWrites g)
      (g.planeCells z) where
  within p _ := by
    have nearer (d : Dir) : g.word (p + near * g.plane) (g.offset d) ∈ boundaryReads g near far p :=
      ⟨d, Or.inl rfl⟩
    have farther (d : Dir) : g.word (p + far * g.plane) (g.offset d) ∈ boundaryReads g near far p :=
      ⟨d, Or.inr rfl⟩
    rw [boundaryCode_eq]
    apply loadAll_within nearer
    intro one
    apply loadAll_within farther
    intro two
    apply editsCode_within
    intro e he
    obtain ⟨⟨d, v⟩, -, rfl⟩ := List.mem_map.mp he
    exact ⟨d, rfl⟩
  apart p hp q hq other := by
    have apart {k : ℤ} (hk : k ≠ 0) {d d' : Dir}
        (same : g.word p (g.offset d) = g.word (q + k * g.plane) (g.offset d')) : False := by
      obtain ⟨cell, -⟩ := Config.word_inj (g.offset_range d) (g.offset_range d') same
      have moved := cellZ_add (g := g) q k
      rw [← cell, Config.mem_planeCells.mp hp, Config.mem_planeCells.mp hq] at moved
      omega
    apply Set.disjoint_left.mpr
    rintro k ⟨d, rfl⟩ (⟨d', nearer | farther⟩ | ⟨d', own⟩)
    · exact apart notHere.1 nearer
    · exact apart notHere.2 farther
    · exact other (Config.word_inj (g.offset_range d) (g.offset_range d') own).1

/-- A sweep of `LBM_handleInOutFlow` under `omp parallel for`. -/
theorem boundary_parallel [CharZero K] (hn : -2 ≤ near ∧ near ≤ 2) (hf : -2 ≤ far ∧ far ≤ 2)
    (notHere : near ≠ 0 ∧ far ≠ 0) {z : ℤ} (hz : 0 ≤ z ∧ z < g.sizeZ) (m : Grid K) :
    ∃ after, g.sweep z (z + 1) m (Original.boundaryCell g near far moments) = some after ∧
      Leaves (boundaryCode g near far moments) (g.planeCells z)
        g.Allocated m after := by
  have inside {p : ℤ} (hp : p ∈ g.planeCells z) : InGrid g p := by
    rwa [inGrid_iff, Config.mem_planeCells.mp hp]
  have pass (m : Grid K) (p : ℤ) (hp : p ∈ g.planeCells z) :
      Original.boundaryCell g near far moments m (g.nCellEntries * p) =
        some ((boundaryCode g near far moments p).alone m) := by
    rw [boundaryCell_eq hn hf moments equilibriumStores_tabulates (inside hp), boundaryCode_alone]
  have allowed (p : ℤ) (hp : p ∈ g.planeCells z) :
      ∀ i ∈ boundaryReads g near far p ∪ boundaryWrites g p, g.Allocated i := by
    obtain ⟨first, last⟩ := inside hp
    have word {k : ℤ} (hk : -2 ≤ k ∧ k ≤ 2) (d : Dir) :
        g.Allocated (g.word (p + k * g.plane) (g.offset d)) := by
      have low := mul_le_mul_of_nonneg_right hk.1 g.plane_pos.le
      have high := mul_le_mul_of_nonneg_right hk.2 g.plane_pos.le
      rw [Config.allocated_word (g.offset_range d)]
      constructor <;> linarith
    rintro i (⟨d, rfl | rfl⟩ | ⟨d, rfl⟩)
    · exact word hn d
    · exact word hf d
    · simpa using word (k := 0) (by omega) d
  refine ⟨_, ?_, (boundary_independent moments notHere z).leaves (trips_nodup one_pos) allowed m⟩
  rw [Config.sweep_eq, loopM_total fun m p hp => pass m p hp]
  rfl

end Boundary

namespace Initializer
variable (r : Initializer)

/-- The passes of the outermost loop: cells, or planes where the loops are nested. -/
def passes (g : Config) : Initializer → List ℤ
  | .grid => trips (-2 * g.plane) ((g.sizeZ + 2) * g.plane) 1
  | .ldc | .channel => trips (-2) (g.sizeZ + 2) 1

def passEdits (g : Config) : Initializer → ℤ → List (Edit ℤ (Word K))
  | .grid => Initializer.grid.cell g
  | .ldc => fun z => Initializer.ldc.work g z (z + 1)
  | .channel => fun z => Initializer.channel.work g z (z + 1)

/-- The cells that a pass goes through. -/
def visits (g : Config) : Initializer → ℤ → ℤ → Prop
  | .grid => fun q p => p = q
  | .ldc | .channel => fun q p => g.cellZ p = q

def passWrites (g : Config) (r : Initializer) (q : ℤ) : Set ℤ :=
  {i | ∃ p k, r.visits g q p ∧ (0 ≤ k ∧ k < g.nCellEntries) ∧ i = g.word p k}

theorem mem_passEdits {q : ℤ} {e : Edit ℤ (Word K)} (he : e ∈ r.passEdits g q) :
    e.addr ∈ r.passWrites g q := by
  have planes (r : Initializer) (he : e ∈ r.work g q (q + 1)) :
      ∃ p k, g.cellZ p = q ∧ (0 ≤ k ∧ k < g.nCellEntries) ∧ e.addr = g.word p k := by
    obtain ⟨p, hp, edit⟩ := List.mem_flatMap.mp he
    obtain ⟨k, hk, addr⟩ := r.mem_cell edit
    have := Config.plane_between.mp (mem_trips_one.mp hp)
    exact ⟨p, k, by omega, hk, addr⟩
  cases r with
  | grid =>
    obtain ⟨k, hk, addr⟩ := Initializer.grid.mem_cell he
    exact ⟨q, k, rfl, hk, addr⟩
  | ldc => exact planes .ldc he
  | channel => exact planes .channel he

/-- All passes together do the whole work. -/
theorem flatMap_passEdits :
    (r.passes g).flatMap (r.passEdits g) = (r.work g (-2) (g.sizeZ + 2) : List (Edit ℤ (Word K))) := by
  have planes (r : Initializer) : (trips (-2) (g.sizeZ + 2) 1).flatMap (fun z => r.work g z (z + 1)) =
      (r.work g (-2) (g.sizeZ + 2) : List (Edit ℤ (Word K))) := by
    have plane (z : ℤ) : (trips 0 g.plane 1).map (fun x => x + z * g.plane) =
        trips (z * g.plane) ((z + 1) * g.plane) 1 := by
      rw [trips_map_add, zero_add, show g.plane + z * g.plane = (z + 1) * g.plane by ring]
    have rows := @trips_rowMajor (-2) (g.sizeZ + 2) g.plane g.plane_pos.le
    simp only [work, ← rows, List.flatMap_assoc, plane]
  cases r with
  | grid => rfl
  | ldc => exact planes .ldc
  | channel => exact planes .channel

theorem pass_independent : Independent (fun q => editsCode id (r.passEdits g q : List (Edit ℤ (Word K))))
    (fun _ => ∅) (r.passWrites g) (r.passes g) where
  within q _ := editsCode_within fun e he => r.mem_passEdits he
  apart q _ q' _ other := by
    apply Set.disjoint_left.mpr
    rintro i ⟨p, k, hp, hk, rfl⟩ (read | ⟨p', k', hp', hk', same⟩)
    · cases read
    · obtain ⟨rfl, -⟩ := Config.word_inj hk hk' same
      apply other
      cases r with
      | grid => exact hp.symm.trans hp'
      | ldc => exact hp.symm.trans hp'
      | channel => exact hp.symm.trans hp'

theorem passes_nodup : (r.passes g).Nodup := by
  cases r with
  | grid => exact trips_nodup one_pos
  | ldc => exact trips_nodup one_pos
  | channel => exact trips_nodup one_pos

theorem pass_allowed {q : ℤ} (hq : q ∈ r.passes g) : ∀ i ∈ r.passWrites g q, g.Allocated i := by
  rintro i ⟨p, k, hp, hk, rfl⟩
  have plane (between : -2 ≤ g.cellZ p ∧ g.cellZ p < g.sizeZ + 2) : g.Allocated (g.word p k) :=
    (Config.allocated_word hk).mpr (Config.plane_between.mpr between)
  cases r with
  | grid =>
    obtain rfl : p = q := hp
    exact plane (Config.plane_between.mp (mem_trips_one.mp hq))
  | ldc =>
    obtain rfl : g.cellZ p = q := hp
    exact plane (mem_trips_one.mp hq)
  | channel =>
    obtain rfl : g.cellZ p = q := hp
    exact plane (mem_trips_one.mp hq)

end Initializer

/-- The initialisers under `omp parallel for`: cells or planes shared out in any
way, the threads in any order, they leave the grid that one thread leaves. -/
theorem initializers_parallel (g : Config) (r : Initializer) (grid : Grid K) :
    ∃ out, r.original g grid = some out ∧
      Leaves (fun q => editsCode id (r.passEdits g q)) (r.passes g) g.Allocated grid out := by
  have loop := (r.pass_independent (g := g) (K := K)).leaves r.passes_nodup
    (fun q hq i hi => r.pass_allowed hq i (by simpa using hi)) grid
  have edits (l : List ℤ) (m : Grid K) :
      l.foldl (fun m q => (editsCode id (r.passEdits g q)).alone m) m =
        runAll m (l.flatMap (r.passEdits g)) := by
    rw [← foldl_runAll]
    congr 1
    funext m q
    exact editsCode_alone (fun m : Grid K => m) (fun _ _ => rfl) (fun _ _ _ => rfl) _ m
  rw [edits, r.flatMap_passEdits] at loop
  exact ⟨_, r.original_run grid, loop⟩

/-- The two loops of `LBM_handleInOutFlow`, the second after all of the first. -/
theorem handleInOutFlow_parallel [CharZero K] (g : Config) (grid : Grid K) : ∃ mid out,
    Original.inflow g grid = some mid ∧ Original.handleInOutFlow g grid = some out ∧
    Leaves (boundaryCode g 1 2 (inflowMoments g)) (g.planeCells 0)
      g.Allocated grid mid ∧
    Leaves (boundaryCode g (-1) (-2) fun _ _ => outflowMoments)
      (g.planeCells (g.sizeZ - 1)) g.Allocated mid out := by
  have hz := g.sizeZ_pos
  obtain ⟨mid, inflow, first⟩ := boundary_parallel (g := g) (inflowMoments g)
    (show -2 ≤ (1 : ℤ) ∧ (1 : ℤ) ≤ 2 by omega) (show -2 ≤ (2 : ℤ) ∧ (2 : ℤ) ≤ 2 by omega) (by omega)
    (z := 0) (by omega) grid
  obtain ⟨out, outflow, second⟩ := boundary_parallel (g := g) (fun _ _ => outflowMoments)
    (show -2 ≤ (-1 : ℤ) ∧ (-1 : ℤ) ≤ 2 by omega) (show -2 ≤ (-2 : ℤ) ∧ (-2 : ℤ) ≤ 2 by omega) (by omega)
    (z := g.sizeZ - 1) (by omega) mid
  rw [zero_add] at inflow
  refine ⟨mid, out, inflow, ?_, first, second⟩
  rw [sub_add_cancel] at outflow
  rw [Original.handleInOutFlow, Original.inflow, inflow]
  exact outflow

theorem performStreamCollide_parallel_small : ∃ out,
    Original.performStreamCollideTRT Config.small (3 / 2) levelGrid levelGrid = some out ∧
      Leaves (stepCode Config.small (collideTRT (3 / 2))) (trips 0 (4 * 9) 1)
        (fun k => Config.small.Allocated k.2) (both levelGrid levelGrid) (both levelGrid out) :=
  performStreamCollide_parallel Config.small .trt (3 / 2) levelGrid levelGrid

theorem handleInOutFlow_parallel_small : ∃ mid out,
    Original.inflow Config.small levelGrid = some mid ∧
    Original.handleInOutFlow Config.small levelGrid = some out ∧
    Leaves (boundaryCode Config.small 1 2 (inflowMoments Config.small)) (Config.small.planeCells 0)
      Config.small.Allocated levelGrid mid ∧
    Leaves (boundaryCode Config.small (-1) (-2) fun _ _ => outflowMoments)
      (Config.small.planeCells 3) Config.small.Allocated mid out :=
  handleInOutFlow_parallel Config.small levelGrid

end MorelloWorkloads.Lbm
