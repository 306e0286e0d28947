import MorelloWorkloads.Lbm.Port
import MorelloWorkloads.Lbm.Setup

/-! The words of its private arrays that a thread names. A step stays inside the
arrays; the initialisers still cover the margins of the caller's grid. -/
namespace MorelloWorkloads.Lbm
open CountedLoop FlatMemory

variable {K : Type*} [Field K]

/-- The functions that the drivers of the port start their threads with. -/
inductive ThreadFunction
  | initializeGrid | initializeLdc | initializeChannel | streamCollideBGK | streamCollideTRT

namespace ThreadFunction
variable (g : Config)

def Collides (f : ThreadFunction) : Prop := f = streamCollideBGK ∨ f = streamCollideTRT

/-- How many planes the driver shares out, and the lowest of them. -/
def shared : ThreadFunction → ℤ × ℤ
  | initializeGrid | initializeLdc | initializeChannel => (g.sizeZ + 4, -2)
  | streamCollideBGK | streamCollideTRT => (g.sizeZ, 0)

def startZ (f : ThreadFunction) (numThreads i : ℤ) : ℤ :=
  Slabs.first (f.shared g).1 numThreads (f.shared g).2 i

def endZ (f : ThreadFunction) (numThreads i : ℤ) : ℤ :=
  Slabs.last (f.shared g).1 numThreads (f.shared g).2 i

/-- The function on the arrays of its argument; `grid` is `dstGrid` in a step. -/
def run (ok : ℤ → Prop) [DecidablePred ok] (omega : K) (startZ endZ : ℤ) (srcGrid grid : Grid K) :
    ThreadFunction → Option (Grid K)
  | initializeGrid => Threads.threadInitializeGrid g ok startZ endZ grid
  | initializeLdc => Threads.threadInitializeLdc g ok startZ endZ grid
  | initializeChannel => Threads.threadInitializeChannel g ok startZ endZ grid
  | streamCollideBGK => Threads.threadStreamCollide g ok (collideBGK omega) startZ endZ srcGrid grid
  | streamCollideTRT => Threads.threadStreamCollide g ok (collideTRT omega) startZ endZ srcGrid grid

/-- The words that thread `i` of `numThreads` reads or writes. -/
def UsesIndex (f : ThreadFunction) (omega : K) (numThreads i : ℤ) (srcGrid grid : Grid K) : ℤ → Prop :=
  Uses fun ok _ => f.run g ok omega (f.startZ g numThreads i) (f.endZ g numThreads i) srcGrid grid

end ThreadFunction

/-! ## Sweeps over planes -/

/-- All words lie in cells of the planes `[lo, hi)`, and each of these planes
has one in its first cell. -/
structure SweepsPlanes (g : Config) (used : ℤ → Prop) (lo hi : ℤ) : Prop where
  within : ∀ j, used j → ∃ p e, j = g.word p e ∧ (0 ≤ e ∧ e < g.nCellEntries) ∧
    lo ≤ g.cellZ p ∧ g.cellZ p < hi
  corner : ∀ z, lo ≤ z → z < hi → ∃ e, (0 ≤ e ∧ e < g.nCellEntries) ∧ used (g.word (z * g.plane) e)

variable {g : Config}

/-- Such a sweep is inside the array when its planes are. -/
theorem SweepsPlanes.inside_iff {used : ℤ → Prop} {lo hi : ℤ} (h : SweepsPlanes g used lo hi) :
    (∀ j, used j → g.InArray j) ↔ (lo < hi → 0 ≤ lo ∧ hi ≤ g.sizeZ) := by
  constructor
  · intro inside nonempty
    have plane {z : ℤ} (hlo : lo ≤ z) (hhi : z < hi) : 0 ≤ z ∧ z < g.sizeZ := by
      obtain ⟨e, he, hu⟩ := h.corner z hlo hhi
      have hp : InGrid g (z * g.plane) := (Config.inArray_word he).mp (inside _ hu)
      rwa [inGrid_iff, Config.cellZ_mul_plane] at hp
    have low := plane le_rfl nonempty
    have high := plane (show lo ≤ hi - 1 by omega) (by omega)
    omega
  · intro planes j hj
    obtain ⟨p, e, rfl, he, hlo, hhi⟩ := h.within j hj
    obtain ⟨low, high⟩ := planes (hlo.trans_lt hhi)
    apply (Config.inArray_word he).mpr
    exact (inGrid_iff p).mpr ⟨low.trans hlo, hhi.trans_le high⟩

theorem Initializer.thread_uses (r : Initializer) (lo hi : ℤ) (grid : Grid K) (j : ℤ) :
    Uses (fun ok _ => r.thread g ok lo hi grid) j ↔
      ∃ e ∈ (r.work g lo hi : List (Edit ℤ (Word K))), e.addr = j := by
  apply uses_iff
  intro ok _
  rw [r.thread_sweep, r.checked_sweep, runAllIn_eq]
  simp

theorem Initializer.thread_sweepsPlanes (r : Initializer) (lo hi : ℤ) (grid : Grid K) :
    SweepsPlanes g (Uses fun ok _ => r.thread g ok lo hi grid) lo hi := by
  constructor
  · intro j hj
    obtain ⟨e, he, rfl⟩ := (r.thread_uses lo hi grid j).mp hj
    obtain ⟨p, hp, hep⟩ := List.mem_flatMap.mp he
    obtain ⟨k, hk, ha⟩ := r.mem_cell hep
    exact ⟨p, k, ha, hk, Config.plane_between.mp (mem_trips_one.mp hp)⟩
  · intro z hlo hhi
    obtain ⟨e, he⟩ := List.exists_mem_of_ne_nil _ (r.cell_corner (K := K) (g := g) z)
    obtain ⟨k, hk, ha⟩ := r.mem_cell he
    refine ⟨k, hk, (r.thread_uses lo hi grid _).mpr ⟨e, ?_, ha⟩⟩
    exact List.mem_flatMap.mpr ⟨_, Config.corner_mem hlo hhi, he⟩

section Step
variable {collide : (Dir → K) → Moments K → List (Dir × K)}
  {relax : (Dir → K) → (Dir → K) → Dir → K}
  (h : ∀ src m, collide src m =
    fluidOrder.map fun d => (d, relax src ((d3q19 K).equilibrium m.rho m.u) d))
  (lo hi : ℤ) (src dst : Grid K)
include h

/-- A cell's step reads all of its entries, and stores to these places only. -/
theorem threadStreamCollide_uses (j : ℤ) :
    Uses (fun ok _ => Threads.threadStreamCollide g ok collide lo hi src dst) j ↔
      ∃ p ∈ trips (lo * g.plane) (hi * g.plane) 1,
        g.word p g.flags = j ∨ ∃ d, g.word p (g.offset d) = j := by
  apply uses_iff
  intro ok _
  rw [thread_run_of fun p => cellStores_tabulates g _ _ h]
  simp only [Option.isSome_ite, forall_exists_index, and_imp, or_imp]
  constructor
  · intro cells j p hp
    refine ⟨?_, ?_⟩
    · rintro rfl
      exact (cells p hp).1
    · rintro d rfl
      exact (cells p hp).2 d
  · intro words p hp
    exact ⟨(words _ p hp).1 rfl, fun d => (words _ p hp).2 d rfl⟩

theorem threadStreamCollide_sweepsPlanes :
    SweepsPlanes g (Uses fun ok _ => Threads.threadStreamCollide g ok collide lo hi src dst) lo hi := by
  have uses := threadStreamCollide_uses (g := g) h lo hi src dst
  constructor
  · intro j hj
    obtain ⟨p, hp, hword⟩ := (uses j).mp hj
    have planes := Config.plane_between.mp (mem_trips_one.mp hp)
    cases hword with
    | inl flags => exact ⟨p, g.flags, flags.symm, g.flags_range, planes⟩
    | inr population =>
      obtain ⟨d, rfl⟩ := population
      exact ⟨p, g.offset d, rfl, g.offset_range d, planes⟩
  · intro z hlo hhi
    exact ⟨g.flags, g.flags_range, (uses _).mpr ⟨_, Config.corner_mem hlo hhi, .inl rfl⟩⟩

end Step

/-! ## The slabs of the drivers -/

namespace ThreadFunction

theorem sweepsPlanes [CharZero K] (f : ThreadFunction) (omega : K) (n i : ℤ) (src dst : Grid K) :
    SweepsPlanes g (f.UsesIndex g omega n i src dst) (f.startZ g n i) (f.endZ g n i) := by
  cases f with
  | initializeGrid => exact Initializer.grid.thread_sweepsPlanes _ _ dst
  | initializeLdc => exact Initializer.ldc.thread_sweepsPlanes _ _ dst
  | initializeChannel => exact Initializer.channel.thread_sweepsPlanes _ _ dst
  | streamCollideBGK => exact threadStreamCollide_sweepsPlanes (collideBGK_eq omega) _ _ src dst
  | streamCollideTRT => exact threadStreamCollide_sweepsPlanes (collideTRT_eq omega) _ _ src dst

section Slabs
variable {n i : ℤ} (hn : 1 ≤ n) (hz : n ≤ g.sizeZ) (hi : 0 ≤ i) (hin : i < n)
include hn hz hi hin

/-- Of the planes with the margins, the first two and the last two are outside:
they fall to thread 0, to thread 1 if the slabs are of one plane, and to the last. -/
theorem marginSlab_inside_iff :
    (0 ≤ Slabs.first (g.sizeZ + 4) n (-2) i ∧ Slabs.last (g.sizeZ + 4) n (-2) i ≤ g.sizeZ) ↔
      i < n - 1 ∧ (2 ≤ i ∨ i = 1 ∧ 2 * n ≤ g.sizeZ + 4) := by
  have hc := Slabs.chunk_pos (g.sizeZ + 4) n
  have thick : 2 ≤ Slabs.chunk (g.sizeZ + 4) n ↔ 2 * n ≤ g.sizeZ + 4 :=
    Slabs.le_chunk_iff hn one_lt_two
  have start : 0 ≤ Slabs.first (g.sizeZ + 4) n (-2) i ↔ 2 ≤ i ∨ i = 1 ∧ 2 * n ≤ g.sizeZ + 4 := by
    unfold Slabs.first
    rcases (show i = 0 ∨ i = 1 ∨ 2 ≤ i by omega) with rfl | rfl | h2
    · omega
    · omega
    · have : i * 1 ≤ i * Slabs.chunk (g.sizeZ + 4) n := mul_le_mul_of_nonneg_left hc hi
      omega
  have stop : Slabs.last (g.sizeZ + 4) n (-2) i ≤ g.sizeZ ↔ i < n - 1 := by
    unfold Slabs.last
    split
    · omega
    · have all := Slabs.mul_chunk_le hn (show n ≤ g.sizeZ + 4 by omega)
      have upto : (i + 1) * Slabs.chunk (g.sizeZ + 4) n ≤ (n - 1) * Slabs.chunk (g.sizeZ + 4) n :=
        mul_le_mul_of_nonneg_right (by omega) hc.le
      have rest : (n - 1) * Slabs.chunk (g.sizeZ + 4) n =
          n * Slabs.chunk (g.sizeZ + 4) n - Slabs.chunk (g.sizeZ + 4) n := by ring
      rcases (show Slabs.chunk (g.sizeZ + 4) n = 1 ∨ 2 ≤ Slabs.chunk (g.sizeZ + 4) n by omega) with
        one | two
      · rw [one] at upto ⊢
        omega
      · omega
  rw [start, stop, and_comm]

theorem slab_inside_iff (f : ThreadFunction) :
    (f.startZ g n i < f.endZ g n i → 0 ≤ f.startZ g n i ∧ f.endZ g n i ≤ g.sizeZ) ↔
      f.Collides ∨ i < n - 1 ∧ (2 ≤ i ∨ i = 1 ∧ 2 * n ≤ g.sizeZ + 4) := by
  have margin := marginSlab_inside_iff hn hz hi hin
  have nonempty := Slabs.first_lt_last (i := i) (-2) hn (show n ≤ g.sizeZ + 4 by omega)
  have low := Slabs.base_le_first g.sizeZ n 0 hi
  have high := Slabs.last_le 0 g.sizeZ_pos.le hn (show n ≤ g.sizeZ + 1 by omega) hin
  rw [zero_add] at high
  cases f with
  | initializeGrid | initializeLdc | initializeChannel =>
    simpa [Collides, startZ, endZ, shared, nonempty] using margin
  | streamCollideBGK | streamCollideTRT =>
    simp [Collides, startZ, endZ, shared, low, high]

end Slabs
end ThreadFunction

/-- A thread of an initialiser stays inside its private array only if its slab
has none of the four planes of the margins; a thread of a step always does. -/
theorem thread_indices_inside_iff [CharZero K] (f : ThreadFunction) {n i : ℤ} (hn : 1 ≤ n)
    (hz : n ≤ g.sizeZ) (hi : 0 ≤ i) (hin : i < n) (omega : K) (src dst : Grid K) :
    (∀ j, f.UsesIndex g omega n i src dst j → g.InArray j) ↔
      f.Collides ∨ i < n - 1 ∧ (2 ≤ i ∨ i = 1 ∧ 2 * n ≤ g.sizeZ + 4) := by
  rw [(f.sweepsPlanes omega n i src dst).inside_iff]
  exact f.slab_inside_iff hn hz hi hin

section Single
open Config (single)

theorem thread_indices_inside_iff_single :
    (∀ j, ThreadFunction.streamCollideTRT.UsesIndex single (1 : ℚ) 1 0 blankGrid blankGrid j →
        single.InArray j) ↔
      ThreadFunction.streamCollideTRT.Collides ∨
        (0 : ℤ) < 1 - 1 ∧ ((2 : ℤ) ≤ 0 ∨ (0 : ℤ) = 1 ∧ 2 * 1 ≤ single.sizeZ + 4) :=
  thread_indices_inside_iff .streamCollideTRT (by decide) (by decide) (by decide) (by decide) 1 _ _

/-- The only thread for one cell begins two planes below its array. -/
theorem thread_indices_outside :
    ¬ ∀ j, ThreadFunction.initializeGrid.UsesIndex single (1 : ℚ) 1 0 blankGrid blankGrid j →
      single.InArray j := by
  rw [(ThreadFunction.initializeGrid.sweepsPlanes 1 1 0 blankGrid blankGrid).inside_iff]
  decide

end Single

end MorelloWorkloads.Lbm
