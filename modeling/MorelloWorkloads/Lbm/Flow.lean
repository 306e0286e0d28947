import MorelloWorkloads.Lbm.Step
import MorelloWorkloads.Lbm.Threads

/-! `LBM_handleInOutFlow`: the first and the last plane of the channel are put
into equilibrium with moments that are extrapolated from the planes beside them. -/
namespace MorelloWorkloads.Lbm
open CountedLoop FlatMemory LatticeBoltzmann Dir

variable {K : Type*} [Field K]

/-- The stores of a cell that is set to the equilibrium of its moments. -/
def equilibriumStores : Moments K → List (Dir × K)
  | ⟨rho, ux, uy, uz⟩ =>
    let u2 := 1.5 * (ux * ux + uy * uy + uz * uz)
    [(C, dfl1 * rho * (1.0 - u2)),
      (N, dfl2 * rho * (1.0 + uy * (4.5 * uy + 3.0) - u2)),
      (S, dfl2 * rho * (1.0 + uy * (4.5 * uy - 3.0) - u2)),
      (E, dfl2 * rho * (1.0 + ux * (4.5 * ux + 3.0) - u2)),
      (W, dfl2 * rho * (1.0 + ux * (4.5 * ux - 3.0) - u2)),
      (T, dfl2 * rho * (1.0 + uz * (4.5 * uz + 3.0) - u2)),
      (B, dfl2 * rho * (1.0 + uz * (4.5 * uz - 3.0) - u2)),
      (NE, dfl3 * rho * (1.0 + (ux + uy) * (4.5 * (ux + uy) + 3.0) - u2)),
      (NW, dfl3 * rho * (1.0 + (-ux + uy) * (4.5 * (-ux + uy) + 3.0) - u2)),
      (SE, dfl3 * rho * (1.0 + (ux - uy) * (4.5 * (ux - uy) + 3.0) - u2)),
      (SW, dfl3 * rho * (1.0 + (-ux - uy) * (4.5 * (-ux - uy) + 3.0) - u2)),
      (NT, dfl3 * rho * (1.0 + (uy + uz) * (4.5 * (uy + uz) + 3.0) - u2)),
      (NB, dfl3 * rho * (1.0 + (uy - uz) * (4.5 * (uy - uz) + 3.0) - u2)),
      (ST, dfl3 * rho * (1.0 + (-uy + uz) * (4.5 * (-uy + uz) + 3.0) - u2)),
      (SB, dfl3 * rho * (1.0 + (-uy - uz) * (4.5 * (-uy - uz) + 3.0) - u2)),
      (ET, dfl3 * rho * (1.0 + (ux + uz) * (4.5 * (ux + uz) + 3.0) - u2)),
      (EB, dfl3 * rho * (1.0 + (ux - uz) * (4.5 * (ux - uz) + 3.0) - u2)),
      (WT, dfl3 * rho * (1.0 + (-ux + uz) * (4.5 * (-ux + uz) + 3.0) - u2)),
      (WB, dfl3 * rho * (1.0 + (-ux - uz) * (4.5 * (-ux - uz) + 3.0) - u2))]

/-- `rho1`, or `rho1` with `ux1`, `uy1` and `uz1` after their division. -/
def bulk (src : Dir → K) : Moments K :=
  let rho := src C + src N + src S + src E + src W + src T + src B + src NE + src NW + src SE +
    src SW + src NT + src NB + src ST + src SB + src ET + src EB + src WT + src WB
  let ux := src E - src W + src NE - src NW + src SE - src SW + src ET + src EB - src WT - src WB
  let uy := src N - src S + src NE + src NW - src SE - src SW + src NT + src NB - src ST - src SB
  let uz := src T - src B + src NT - src NB + src ST - src SB + src ET - src EB + src WT - src WB
  ⟨rho, ux / rho, uy / rho, uz / rho⟩

/-- What the inflow sweep sets; `x` and `y` are `SWEEP_X` and `SWEEP_Y`. -/
def inflowMoments (g : Config) (x y : ℤ) (one two : Dir → K) : Moments K :=
  let rho := 2.0 * (bulk one).rho - (bulk two).rho
  let px := (x : K) / (0.5 * ((g.sizeX - 1 : ℤ) : K)) - 1.0
  let py := (y : K) / (0.5 * ((g.sizeY - 1 : ℤ) : K)) - 1.0
  ⟨rho, 0.00, 0.00, 0.01 * (1.0 - px * px) * (1.0 - py * py)⟩

def outflowMoments (one two : Dir → K) : Moments K :=
  ⟨1.0, 2.0 * (bulk one).ux - (bulk two).ux, 2.0 * (bulk one).uy - (bulk two).uy,
    2.0 * (bulk one).uz - (bulk two).uz⟩

/-- The cells of a plane. -/
def Config.planeCells (g : Config) (z : ℤ) : List ℤ := trips (z * g.plane) ((z + 1) * g.plane) 1

theorem Config.mem_planeCells {g : Config} {z p : ℤ} : p ∈ g.planeCells z ↔ g.cellZ p = z := by
  rw [planeCells, mem_trips_one, plane_between]
  omega

namespace Original
variable (g : Config)

/-- The body of both sweeps: reads the cells of the planes `near` and `far` away. -/
def boundaryCell (near far : ℤ) (moments : ℤ → ℤ → (Dir → K) → (Dir → K) → Moments K) (srcGrid : Grid K)
    (i : ℤ) : Option (Grid K) := do
  let one ← readCell g.Allocated srcGrid fun d => g.calcIndex 0 0 near (g.offset d) + i
  let two ← readCell g.Allocated srcGrid fun d => g.calcIndex 0 0 far (g.offset d) + i
  let m := moments (i / g.nCellEntries % g.sizeX) (i / g.nCellEntries / g.sizeX % g.sizeY) one two
  runAllIn g.Allocated srcGrid ((equilibriumStores m).map fun (d, v) =>
    storeVal (g.calcIndex 0 0 0 (g.offset d) + i) v)

def inflow (srcGrid : Grid K) : Option (Grid K) :=
  g.sweep 0 1 srcGrid (boundaryCell g 1 2 (inflowMoments g))

def outflow (srcGrid : Grid K) : Option (Grid K) :=
  g.sweep (g.sizeZ - 1) g.sizeZ srcGrid (boundaryCell g (-1) (-2) fun _ _ => outflowMoments)

def handleInOutFlow (srcGrid : Grid K) : Option (Grid K) := do
  let srcGrid ← inflow g srcGrid
  outflow g srcGrid

end Original

variable {g : Config}

theorem bulk_eq (src : Dir → K) : (bulk src).rho = Lattice.density src ∧
    (bulk src).u = fun a => (d3q19 K).momentum src a / Lattice.density src := by
  constructor
  · rw [Lattice.density, sum_dir]
    rfl
  · funext a
    rw [momentum_eq, Lattice.density, sum_dir]
    fin_cases a <;> rfl

omit [Field K] in
theorem tabulates_map (v : Dir → K) : Tabulates (fluidOrder.map fun d => (d, v d)) v where
  nodup := by
    have order : (fluidOrder.map fun d => (d, v d)).map Prod.fst = fluidOrder := rfl
    rw [order]
    decide
  mem d := List.mem_map_of_mem (by cases d <;> decide)

section Boundary
variable [CharZero K]

theorem equilibriumStores_eq (m : Moments K) : equilibriumStores m =
    fluidOrder.map fun d => (d, (d3q19 K).equilibrium m.rho m.u d) := by
  have value (d : Dir) : (d3q19 K).equilibrium m.rho m.u d =
      weight d * m.rho * (1 + 3 * (d3q19 K).dot d m.u + 9 / 2 * (d3q19 K).dot d m.u ^ 2 -
        3 / 2 * (m.ux * m.ux + m.uy * m.uy + m.uz * m.uz)) := by
    rw [← sum_sq_eq]
    rfl
  obtain ⟨-, -, one, threeHalves, three, nineHalves⟩ := decimals (K := K)
  simp only [equilibriumStores, fluidOrder, List.map_cons, List.map_nil, List.cons.injEq,
    Prod.mk.injEq, true_and, and_true, value, dot_eq, neighbor, weight, one, threeHalves, three,
    nineHalves, Int.cast_zero, Int.cast_one, Int.cast_neg]
  refine ⟨?_, ?_, ?_, ?_, ?_, ?_, ?_, ?_, ?_, ?_, ?_, ?_, ?_, ?_, ?_, ?_, ?_, ?_, ?_⟩ <;> ring

theorem equilibriumStores_tabulates (m : Moments K) :
    Tabulates (equilibriumStores m) ((d3q19 K).equilibrium m.rho m.u) := by
  rw [equilibriumStores_eq]
  exact tabulates_map _

end Boundary

/-! ## The sweep over a plane -/

/-- The stores of a cell to its own words. -/
def ownStores (g : Config) (table : ℤ → List (Dir × K)) (p : ℤ) : List (Edit ℤ (Word K)) :=
  (table p).map fun (d, v) => storeVal (g.word p (g.offset d)) v

section Own
variable {table : ℤ → List (Dir × K)} {post : ℤ → Dir → K} (h : ∀ p, Tabulates (table p) (post p))
include h

omit [Field K] in
theorem mem_ownStores {p : ℤ} {e : Edit ℤ (Word K)} (he : e ∈ ownStores g table p) :
    ∃ d, e = storeVal (g.word p (g.offset d)) (post p d) := by
  obtain ⟨⟨d, v⟩, hmem, rfl⟩ := List.mem_map.mp he
  have value : v = post p d :=
    congrArg Prod.snd (List.inj_on_of_nodup_map (h p).nodup hmem ((h p).mem d) rfl)
  exact ⟨d, by rw [value]⟩

omit [Field K] in
theorem ownStores_nodup (p : ℤ) : ((ownStores g table p).map Edit.addr).Nodup := by
  have addrs : (ownStores g table p).map Edit.addr =
      ((table p).map Prod.fst).map fun d => g.word p (g.offset d) := by
    simp only [ownStores, List.map_map]
    rfl
  rw [addrs]
  apply (h p).nodup.map
  intro d d' same
  exact g.offset_inj _ _ (Config.word_inj (g.offset_range d) (g.offset_range d') same).2

omit [Field K] in
theorem ownStores_population {l : List ℤ} (nodup : l.Nodup) {p : ℤ} (hp : p ∈ l) (m : Grid K) :
    populations g (runAll m (l.flatMap (ownStores g table))) p = post p := by
  funext d
  have owner : ∀ q ∈ l, q ≠ p → ∀ e ∈ ownStores g table q, e.addr ≠ g.word p (g.offset d) := by
    intro q _ other e he same
    obtain ⟨d', rfl⟩ := mem_ownStores h he
    exact other (Config.word_inj (g.offset_range d') (g.offset_range d) same).1
  have mem : storeVal (g.word p (g.offset d)) (post p d) ∈ ownStores g table p :=
    List.mem_map_of_mem ((h p).mem d)
  have run := runAll_of_mem (ownStores_nodup h p) mem m
  rw [populations, runAll_flatMap_owner nodup hp owner]
  exact congrArg Word.val run

omit [Field K] in
/-- All other words keep what they hold. -/
theorem ownStores_other {l : List ℤ} (m : Grid K) {p e : ℤ} (he : 0 ≤ e ∧ e < g.nCellEntries)
    (other : p ∈ l → ∀ d, g.offset d ≠ e) :
    runAll m (l.flatMap (ownStores g table)) (g.word p e) = m (g.word p e) := by
  apply runAll_of_forall_ne
  intro c hc same
  obtain ⟨q, hq, hc⟩ := List.mem_flatMap.mp hc
  obtain ⟨d, rfl⟩ := mem_ownStores h hc
  obtain ⟨rfl, entry⟩ := Config.word_inj (g.offset_range d) he same
  exact other hq d entry

end Own

theorem cellZ_add (p k : ℤ) : g.cellZ (p + k * g.plane) = g.cellZ p + k :=
  Int.add_mul_ediv_right _ _ g.plane_pos.ne'

/-- The equilibria that the cells of a plane are set to. -/
def boundaryTable (g : Config) (near far : ℤ) (moments : ℤ → ℤ → (Dir → K) → (Dir → K) → Moments K)
    (m : Grid K) (p : ℤ) : Moments K :=
  moments (g.cellX p) (g.cellY p) (populations g m (p + near * g.plane))
    (populations g m (p + far * g.plane))

section Sweep
variable {near far : ℤ} (hn : -2 ≤ near ∧ near ≤ 2) (hf : -2 ≤ far ∧ far ≤ 2)
  (moments : ℤ → ℤ → (Dir → K) → (Dir → K) → Moments K)
include hn hf

theorem boundaryCell_eq (stores : ∀ m : Moments K, Tabulates (equilibriumStores m)
    ((d3q19 K).equilibrium m.rho m.u)) {p : ℤ} (hp : InGrid g p) (m : Grid K) :
    Original.boundaryCell g near far moments m (g.nCellEntries * p) =
      some (runAll m (ownStores g
        (fun q => equilibriumStores (boundaryTable g near far moments m q)) p)) := by
  have place (k e : ℤ) : g.calcIndex 0 0 k e + g.nCellEntries * p = g.word (p + k * g.plane) e := by
    unfold Config.calcIndex Config.word Config.plane
    ring
  have allocated {k e : ℤ} (hk : -2 ≤ k ∧ k ≤ 2) (he : 0 ≤ e ∧ e < g.nCellEntries) :
      g.Allocated (g.word (p + k * g.plane) e) := by
    have low := mul_le_mul_of_nonneg_right hk.1 g.plane_pos.le
    have high := mul_le_mul_of_nonneg_right hk.2 g.plane_pos.le
    rw [Config.allocated_word he]
    obtain ⟨first, last⟩ := hp
    constructor <;> linarith
  have number : g.nCellEntries * p / g.nCellEntries = p :=
    Int.mul_ediv_cancel_left _ g.nCellEntries_pos.ne'
  have reads {k : ℤ} (hk : -2 ≤ k ∧ k ≤ 2) :
      readCell g.Allocated m (fun d => g.word (p + k * g.plane) (g.offset d)) =
        some (populations g m (p + k * g.plane)) :=
    if_pos fun d => allocated hk (g.offset_range d)
  simp only [Original.boundaryCell, place, reads hn, reads hf, number, zero_mul, add_zero,
    Option.bind_eq_bind, Option.bind_some]
  rw [runAllIn_eq, if_pos]
  · rfl
  · intro e he
    obtain ⟨d, rfl⟩ := mem_ownStores (fun q => stores (boundaryTable g near far moments m q)) he
    have own := allocated (k := 0) (by omega) (g.offset_range d)
    rwa [zero_mul, add_zero] at own

variable (notHere : near ≠ 0 ∧ far ≠ 0)
include notHere

/-- The sweep reads other planes than the one that it writes: it sets the cells
as the grid at its start tells. -/
theorem boundary_sweep [CharZero K] {z : ℤ} (hz : 0 ≤ z ∧ z < g.sizeZ) (m : Grid K) :
    g.sweep z (z + 1) m (Original.boundaryCell g near far moments) =
      some (runAll m ((g.planeCells z).flatMap (ownStores g
        fun p => equilibriumStores (boundaryTable g near far moments m p)))) := by
  have stores := equilibriumStores_tabulates (K := K)
  have visited {p : ℤ} (hp : p ∈ g.planeCells z) : g.cellZ p = z := Config.mem_planeCells.mp hp
  rw [Config.sweep_eq, loopM]
  apply foldlM_inPlace
    (fun m => ownStores g fun p => equilibriumStores (boundaryTable g near far moments m p))
    fun i => ∃ q d, g.cellZ q = z ∧ i = g.word q (g.offset d)
  · intro p hp m
    apply boundaryCell_eq hn hf moments stores
    rw [inGrid_iff, visited hp]
    exact hz
  · intro p hp m e he
    obtain ⟨d, rfl⟩ := mem_ownStores (fun q => stores (boundaryTable g near far moments m q)) he
    exact ⟨p, d, visited hp, rfl⟩
  · intro p hp m m' agree
    have same {k : ℤ} (hk : k ≠ 0) : populations g m (p + k * g.plane) =
        populations g m' (p + k * g.plane) := by
      funext d
      rw [populations, populations, agree]
      rintro ⟨q, d', hq, word⟩
      obtain ⟨rfl, -⟩ := Config.word_inj (g.offset_range d) (g.offset_range d') word
      rw [cellZ_add, visited hp] at hq
      omega
    simp only [ownStores, boundaryTable, same notHere.1, same notHere.2]

end Sweep

/-! ## What the boundary holds afterwards -/

/-- Where every quotient of the source has a divisor that is not zero. -/
def inletVelocity (g : Config) (p : ℤ) : Fin 3 → K :=
  let px := 2.0 * (g.cellX p : K) / (g.sizeX - 1) - 1
  let py := 2.0 * (g.cellY p : K) / (g.sizeY - 1) - 1
  ![0, 0, 0.01 * (1 - px ^ 2) * (1 - py ^ 2)]

def inletDensity (g : Config) (m : Grid K) (p : ℤ) : K :=
  2.0 * Lattice.density (populations g m (p + g.plane)) - Lattice.density (populations g m (p + 2 * g.plane))

def bulkVelocity (g : Config) (m : Grid K) (p : ℤ) : Fin 3 → K :=
  fun a => (d3q19 K).momentum (populations g m p) a / Lattice.density (populations g m p)

def outletVelocity (g : Config) (m : Grid K) (p : ℤ) : Fin 3 → K :=
  fun a => 2.0 * bulkVelocity g m (p - g.plane) a - bulkVelocity g m (p - 2 * g.plane) a

/-- The populations of the cells of plane `z` are the equilibrium of these moments
and have them; every other word of memory is as it was, the flags too. -/
structure SetTo (g : Config) (z : ℤ) (rho : ℤ → K) (u : ℤ → Fin 3 → K) (before after : Grid K) :
    Prop where
  populations : ∀ p, g.cellZ p = z → populations g after p = (d3q19 K).equilibrium (rho p) (u p)
  density : ∀ p, g.cellZ p = z → ∑ d, Lbm.populations g after p d = rho p
  momentum : ∀ p, g.cellZ p = z →
    ∀ a, (d3q19 K).momentum (Lbm.populations g after p) a = rho p * u p a
  other : ∀ p e, 0 ≤ e → e < g.nCellEntries → (g.cellZ p = z → ∀ d, g.offset d ≠ e) →
    after (g.word p e) = before (g.word p e)

section Moments
variable [CharZero K]

/-- The moments come from the lattice. -/
theorem SetTo.of_populations {z : ℤ} {rho : ℤ → K} {u : ℤ → Fin 3 → K} {before after : Grid K}
    (set : ∀ p, g.cellZ p = z → Lbm.populations g after p = (d3q19 K).equilibrium (rho p) (u p))
    (other : ∀ p e, 0 ≤ e → e < g.nCellEntries → (g.cellZ p = z → ∀ d, g.offset d ≠ e) →
      after (g.word p e) = before (g.word p e)) : SetTo g z rho u before after where
  populations := set
  density p hp := by
    rw [set p hp]
    exact Lattice.density_equilibrium d3q19_isotropic _ _
  momentum p hp a := by
    rw [set p hp]
    exact Lattice.momentum_equilibrium d3q19_isotropic _ _ a
  other := other

theorem boundary_sets {near far : ℤ} (hn : -2 ≤ near ∧ near ≤ 2) (hf : -2 ≤ far ∧ far ≤ 2)
    (moments : ℤ → ℤ → (Dir → K) → (Dir → K) → Moments K) (notHere : near ≠ 0 ∧ far ≠ 0) {z : ℤ}
    (hz : 0 ≤ z ∧ z < g.sizeZ) (m : Grid K) :
    ∃ after, g.sweep z (z + 1) m (Original.boundaryCell g near far moments) = some after ∧
      SetTo g z (fun p => (boundaryTable g near far moments m p).rho)
        (fun p => (boundaryTable g near far moments m p).u) m after := by
  have table (p : ℤ) := equilibriumStores_tabulates (boundaryTable g near far moments m p)
  refine ⟨_, boundary_sweep hn hf moments notHere hz m, SetTo.of_populations ?_ ?_⟩
  · intro p hp
    exact ownStores_population table (trips_nodup one_pos) (Config.mem_planeCells.mpr hp) m
  · intro p e low high other
    exact ownStores_other table m ⟨low, high⟩ fun hp => other (Config.mem_planeCells.mp hp)

theorem inflow_table (m : Grid K) (p : ℤ) :
    (boundaryTable g 1 2 (inflowMoments g) m p).rho = inletDensity g m p ∧
    (boundaryTable g 1 2 (inflowMoments g) m p).u = inletVelocity g p := by
  constructor
  · simp only [boundaryTable, inflowMoments, (bulk_eq _).1, inletDensity, one_mul]
  · have centred (x size : K) : x / (0.5 * (size - 1)) - 1.0 = 2.0 * x / (size - 1) - 1 := by
      rw [show (0.5 : K) = 1 / 2 by norm_num, show (1.0 : K) = 1 by norm_num,
        show (2.0 : K) = 2 by norm_num, one_div, div_mul_eq_div_div, div_inv_eq_mul, mul_comm x]
    simp only [boundaryTable, inflowMoments, Moments.u, inletVelocity, Int.cast_sub, Int.cast_one,
      centred]
    norm_num [sq]

theorem outflow_table (m : Grid K) (p : ℤ) :
    (boundaryTable g (-1) (-2) (fun _ _ => outflowMoments) m p).rho = 1 ∧
    (boundaryTable g (-1) (-2) (fun _ _ => outflowMoments) m p).u = outletVelocity g m p := by
  have nearer : p + -1 * g.plane = p - g.plane := by ring
  have farther : p + -2 * g.plane = p - 2 * g.plane := by ring
  constructor
  · norm_num [boundaryTable, outflowMoments]
  · have component (src : Dir → K) (a : Fin 3) :
        (d3q19 K).momentum src a / Lattice.density src = (bulk src).u a :=
      (congrFun (bulk_eq src).2 a).symm
    funext a
    simp only [outletVelocity, bulkVelocity, component, boundaryTable, outflowMoments, nearer, farther]
    fin_cases a <;> rfl

end Moments

/-- A parabola that vanishes at both ends. -/
theorem profile_edge [CharZero K] {n k : ℤ} (wide : 1 < n) (edge : k = 0 ∨ k = n - 1) :
    1 - (2.0 * (k : K) / (n - 1) - 1) ^ 2 = 0 := by
  have width : (n : K) - 1 ≠ 0 := by
    have : n - 1 ≠ 0 := by omega
    exact_mod_cast this
  cases edge with
  | inl first =>
    rw [first]
    norm_num
  | inr last =>
    rw [last]
    push_cast
    rw [mul_div_assoc, div_self width]
    norm_num

/-- The cells at the four walls of the channel. -/
def Side (g : Config) (p : ℤ) : Prop :=
  (g.cellX p = 0 ∨ g.cellX p = g.sizeX - 1) ∨ g.cellY p = 0 ∨ g.cellY p = g.sizeY - 1

/-- The profile vanishes at the walls. -/
theorem inletVelocity_side [CharZero K] {p : ℤ} (wide : 1 < g.sizeX ∧ 1 < g.sizeY) (side : Side g p) :
    (inletVelocity g p : Fin 3 → K) = 0 := by
  funext a
  cases side with
  | inl x =>
    have edge := profile_edge (K := K) wide.1 x
    fin_cases a <;> simp [inletVelocity, edge]
  | inr y =>
    have edge := profile_edge (K := K) wide.2 y
    fin_cases a <;> simp [inletVelocity, edge]

/-- Neither sweep leaves the allocation, and each sets its plane. -/
theorem handleInOutFlow_planes [CharZero K] (g : Config) (grid : Grid K) : ∃ mid out,
    Original.inflow g grid = some mid ∧ Original.handleInOutFlow g grid = some out ∧
    SetTo g 0 (inletDensity g grid) (inletVelocity g) grid mid ∧
    SetTo g (g.sizeZ - 1) (fun _ => 1) (outletVelocity g mid) mid out := by
  have hz := g.sizeZ_pos
  obtain ⟨mid, inflow, inlet⟩ := boundary_sets (g := g) (show -2 ≤ (1 : ℤ) ∧ (1 : ℤ) ≤ 2 by omega)
    (show -2 ≤ (2 : ℤ) ∧ (2 : ℤ) ≤ 2 by omega) (inflowMoments g) (by omega) (z := 0) (by omega) grid
  obtain ⟨out, outflow, outlet⟩ := boundary_sets (g := g) (show -2 ≤ (-1 : ℤ) ∧ (-1 : ℤ) ≤ 2 by omega)
    (show -2 ≤ (-2 : ℤ) ∧ (-2 : ℤ) ≤ 2 by omega) (fun _ _ => outflowMoments) (by omega)
    (z := g.sizeZ - 1) (by omega) mid
  simp only [fun p => (inflow_table (g := g) grid p).1, fun p => (inflow_table (g := g) grid p).2] at inlet
  simp only [fun p => (outflow_table (g := g) mid p).1, fun p => (outflow_table (g := g) mid p).2] at outlet
  rw [sub_add_cancel] at outflow
  rw [zero_add] at inflow
  refine ⟨mid, out, inflow, ?_, inlet, outlet⟩
  rw [Original.handleInOutFlow, Original.inflow, inflow]
  exact outflow

/-- With four planes the outflow does not see what the inflow has set. -/
theorem populations_before_outlet {grid mid : Grid K} {rho : ℤ → K} {u : ℤ → Fin 3 → K}
    (inlet : SetTo g 0 rho u grid mid) (deep : 4 ≤ g.sizeZ) {p : ℤ} (last : g.cellZ p = g.sizeZ - 1) :
    populations g mid (p - g.plane) = populations g grid (p - g.plane) ∧
      populations g mid (p - 2 * g.plane) = populations g grid (p - 2 * g.plane) := by
  have kept {k : ℤ} (hk : 1 ≤ k ∧ k ≤ 2) :
      populations g mid (p - k * g.plane) = populations g grid (p - k * g.plane) := by
    have away : g.cellZ (p - k * g.plane) ≠ 0 := by
      have := cellZ_add (g := g) p (-k)
      rw [neg_mul, ← sub_eq_add_neg] at this
      omega
    funext d
    rw [populations, populations, inlet.other _ _ (g.offset_range d).1 (g.offset_range d).2
      fun here => absurd here away]
  have nearer := kept (k := 1) (by omega)
  rw [one_mul] at nearer
  exact ⟨nearer, kept (k := 2) (by omega)⟩

theorem outletVelocity_deep {grid mid : Grid K} {rho : ℤ → K} {u : ℤ → Fin 3 → K}
    (inlet : SetTo g 0 rho u grid mid) (deep : 4 ≤ g.sizeZ) {p : ℤ} (last : g.cellZ p = g.sizeZ - 1) :
    outletVelocity g mid p = outletVelocity g grid p := by
  obtain ⟨nearer, farther⟩ := populations_before_outlet inlet deep last
  funext a
  simp only [outletVelocity, bulkVelocity, nearer, farther]

/-- The cells whose mass the outflow divides by have some: the quotients of a field by zero are
zero, and not those of the source. -/
def OutletDense (g : Config) (m : Grid K) : Prop :=
  ∀ p, g.cellZ p = g.sizeZ - 1 → Lattice.density (populations g m (p - g.plane)) ≠ 0 ∧
    Lattice.density (populations g m (p - 2 * g.plane)) ≠ 0

/-- Inflow and outflow set the two end planes, to an extrapolated density with a
profile that vanishes at the walls and to unit density with an extrapolated
velocity, and touch nothing else. No access leaves the allocation. -/
theorem handleInOutFlow_sets [CharZero K] (g : Config) (grid : Grid K)
    (wide : 1 < g.sizeX ∧ 1 < g.sizeY)
    (_dense : ∀ mid, Original.inflow g grid = some mid → OutletDense g mid) : ∃ mid out,
    Original.inflow g grid = some mid ∧ Original.handleInOutFlow g grid = some out ∧
    SetTo g 0 (inletDensity g grid) (inletVelocity g) grid mid ∧
    SetTo g (g.sizeZ - 1) (fun _ => 1) (outletVelocity g mid) mid out ∧
    (∀ p, Side g p → inletVelocity g p = (0 : Fin 3 → K)) ∧
    (4 ≤ g.sizeZ → ∀ p, g.cellZ p = g.sizeZ - 1 → outletVelocity g mid p = outletVelocity g grid p) := by
  obtain ⟨mid, out, inflow, run, inlet, outlet⟩ := handleInOutFlow_planes g grid
  exact ⟨mid, out, inflow, run, inlet, outlet, fun _ => inletVelocity_side wide,
    fun deep _ last => outletVelocity_deep inlet deep last⟩

/-- Every population is one. -/
def levelGrid : Grid ℚ := fun _ => ⟨1, 0⟩

theorem handleInOutFlow_sets_small : ∃ mid out, Original.inflow Config.small levelGrid = some mid ∧
    Original.handleInOutFlow Config.small levelGrid = some out ∧
    SetTo Config.small 0 (inletDensity Config.small levelGrid) (inletVelocity Config.small) levelGrid mid ∧
    SetTo Config.small 3 (fun _ => 1) (outletVelocity Config.small mid) mid out ∧
    (∀ p, Config.small.cellY p = 2 → inletVelocity Config.small p = (0 : Fin 3 → ℚ)) ∧
    (∀ p, Config.small.cellZ p = 3 →
      outletVelocity Config.small mid p = outletVelocity Config.small levelGrid p) := by
  have density (p : ℤ) : Lattice.density (populations Config.small levelGrid p) ≠ 0 := by
    rw [Lattice.density, sum_dir]
    norm_num [populations, levelGrid]
  have dense : ∀ mid, Original.inflow Config.small levelGrid = some mid → OutletDense Config.small mid := by
    obtain ⟨mid, -, inflow, -, inlet, -⟩ := handleInOutFlow_planes Config.small levelGrid
    intro mid' inflow' p last
    obtain rfl : mid = mid' := Option.some.inj (inflow.symm.trans inflow')
    obtain ⟨nearer, farther⟩ := populations_before_outlet inlet (by decide) last
    rw [nearer, farther]
    exact ⟨density _, density _⟩
  obtain ⟨mid, out, inflow, run, inlet, outlet, sides, deep⟩ :=
    handleInOutFlow_sets Config.small levelGrid ⟨by decide, by decide⟩ dense
  exact ⟨mid, out, inflow, run, inlet, outlet, fun p hp => sides p (.inr (.inr hp)),
    fun p hp => deep (by decide) p hp⟩

end MorelloWorkloads.Lbm
