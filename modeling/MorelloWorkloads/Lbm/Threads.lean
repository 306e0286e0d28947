import MorelloWorkloads.Lbm.Original
import MorelloWorkloads.Lib.Slabs

/-! The port to threads. A thread works on private copies of the grids, embedded
in its `thread_data`: arrays of `length` words without margins. Only `ok` words
of these can be accessed; in C that is the array and no word beyond it. -/
namespace MorelloWorkloads.Lbm
open CountedLoop FlatMemory

namespace Threads

variable {K : Type*} [Field K] (g : Config) (ok : ℤ → Prop) [DecidablePred ok]

/-- `memcpy` into a block that `malloc` returned with the content `fresh`. -/
def privateCopy (fresh grid : Grid K) : Grid K := copy g.length fresh grid

def threadInitializeGrid (startZ endZ : ℤ) (grid : Grid K) : Option (Grid K) :=
  g.planes startZ endZ grid fun grid x y z => runAllIn ok grid (initialCell g (g.calcIndex x y z))

def threadInitializeLdc (startZ endZ : ℤ) (grid : Grid K) : Option (Grid K) :=
  g.planes startZ endZ grid fun grid x y z => runAllIn ok grid (ldcCell g x y z)

def threadInitializeChannel (startZ endZ : ℤ) (grid : Grid K) : Option (Grid K) :=
  g.planes startZ endZ grid fun grid x y z => runAllIn ok grid (channelCell g x y z)

/-- The port stores every population in its own cell. -/
def threadStreamCollide (collide : (Dir → K) → Moments K → List (Dir × K)) (startZ endZ : ℤ)
    (srcGrid dstGrid : Grid K) : Option (Grid K) :=
  g.planes startZ endZ dstGrid fun dstGrid x y z =>
    streamCollideCell ok g collide srcGrid (g.calcIndex x y z g.flags)
      (fun d => g.calcIndex x y z (g.offset d)) (fun d => g.calcIndex x y z (g.offset d)) dstGrid

/-- Creates one thread for each slab and joins them all; the arrays they leave.
They share no word, so their interleaving does not matter. -/
def runThreads (total base numThreads : ℤ) (thread : ℤ → ℤ → ℤ → Option (Grid K)) :
    Option (List (Grid K)) :=
  (trips 0 numThreads 1).mapM fun i =>
    thread i (Slabs.first total numThreads base i) (Slabs.last total numThreads base i)

/-- The driver of the initialisers: planes `-2` to `sizeZ + 1` in slabs, then
`memcpy(grid, thread_data[0].grid, sizeof(LBM_Grid))`. -/
def initializeThreads (numThreads : ℤ) (fresh : ℤ → Grid K)
    (thread : ℤ → ℤ → Grid K → Option (Grid K)) (grid : Grid K) : Option (Grid K) := do
  let data ← runThreads (g.sizeZ + 4) (-2) numThreads fun i startZ endZ =>
    thread startZ endZ (privateCopy g (fresh i) grid)
  let first ← data.head?
  some (copy g.length grid first)

def initializeGrid (numThreads : ℤ) (fresh : ℤ → Grid K) (grid : Grid K) : Option (Grid K) :=
  initializeThreads g numThreads fresh (threadInitializeGrid g ok) grid

def initializeSpecialCellsForLDC (numThreads : ℤ) (fresh : ℤ → Grid K) (grid : Grid K) :
    Option (Grid K) :=
  initializeThreads g numThreads fresh (threadInitializeLdc g ok) grid

def initializeSpecialCellsForChannel (numThreads : ℤ) (fresh : ℤ → Grid K) (grid : Grid K) :
    Option (Grid K) :=
  initializeThreads g numThreads fresh (threadInitializeChannel g ok) grid

/-- The part that the two drivers of a step share. -/
def stepThreads (collide : (Dir → K) → Moments K → List (Dir × K)) (numThreads : ℤ)
    (fresh : ℤ → Grid K × Grid K) (srcGrid dstGrid : Grid K) : Option (List (Grid K)) :=
  runThreads g.sizeZ 0 numThreads fun i startZ endZ =>
    threadStreamCollide g ok collide startZ endZ (privateCopy g (fresh i).1 srcGrid)
      (privateCopy g (fresh i).2 dstGrid)

/-- Copies back what the first thread has left. -/
def performStreamCollideBGK (omega : K) (numThreads : ℤ) (fresh : ℤ → Grid K × Grid K)
    (srcGrid dstGrid : Grid K) : Option (Grid K) := do
  let data ← stepThreads g ok (collideBGK omega) numThreads fresh srcGrid dstGrid
  let first ← data.head?
  some (copy g.length dstGrid first)

/-- Copies nothing back before it frees the threads' data. -/
def performStreamCollideTRT (omega : K) (numThreads : ℤ) (fresh : ℤ → Grid K × Grid K)
    (srcGrid dstGrid : Grid K) : Option (Grid K) := do
  let _ ← stepThreads g ok (collideTRT omega) numThreads fresh srcGrid dstGrid
  some dstGrid

end Threads

/-! ## Comparing runs -/

variable {K : Type*} {g : Config}

/-- Both runs are defined and leave the same words in `range`. -/
def Matches (range : ℤ → Prop) (a b : Option (Grid K)) : Prop :=
  ∃ m m', a = some m ∧ b = some m' ∧ ∀ i, range i → m i = m' i

theorem matches_some_iff (range : ℤ → Prop) (m m' : Grid K) :
    Matches range (some m) (some m') ↔ ∀ i, range i → m i = m' i := by
  constructor
  · rintro ⟨_, _, ha, hb, agree⟩
    cases ha
    cases hb
    exact agree
  · intro agree
    exact ⟨m, m', rfl, rfl, agree⟩

theorem not_matches_none (range : ℤ → Prop) (b : Option (Grid K)) : ¬ Matches range none b := by
  rintro ⟨_, _, ha, _⟩
  cases ha

def InGrid (g : Config) (p : ℤ) : Prop := 0 ≤ p ∧ p < g.sizeZ * g.plane

instance : DecidablePred (InGrid g) := fun _ => inferInstanceAs (Decidable (_ ∧ _))

theorem inGrid_iff (p : ℤ) : InGrid g p ↔ 0 ≤ g.cellZ p ∧ g.cellZ p < g.sizeZ := by
  rw [InGrid, ← Config.plane_between, zero_mul]

theorem privateCopy_word (fresh grid : Grid K) {p e : ℤ} (hp : InGrid g p)
    (he : 0 ≤ e ∧ e < g.nCellEntries) :
    Threads.privateCopy g fresh grid (g.word p e) = grid (g.word p e) :=
  copy_inside _ _ ((Config.inArray_word he).mpr hp)

theorem inGrid_zero : InGrid g 0 := ⟨le_rfl, mul_pos g.sizeZ_pos g.plane_pos⟩

/-! ## The planes of the threads -/

namespace Threads

/-- The planes that thread `i` of `runThreads` goes through. -/
def slab (total base numThreads i : ℤ) : Set ℤ :=
  {z | z ∈ trips (Slabs.first total numThreads base i) (Slabs.last total numThreads base i) 1}

/-- As `initializeThreads` hands them out. -/
def initializeSlab (g : Config) : ℤ → ℤ → Set ℤ := slab (g.sizeZ + 4) (-2)

/-- As `stepThreads` hands them out. -/
def stepSlab (g : Config) : ℤ → ℤ → Set ℤ := slab g.sizeZ 0

theorem slab_eq (total base n : ℤ) : slab total base n = Slabs.slab total n base := by
  ext i z
  exact mem_trips_one

/-- A clamped slab of a step lies above the grid as soon as there are two
threads more than planes; the initialisers have four planes more to give. -/
theorem slabs_partition_iff (g : Config) {n : ℤ} (hn : 1 ≤ n) :
    (Slabs.Partition (initializeSlab g n) n (Set.Ico (-2) (g.sizeZ + 2)) ∧
      Slabs.Partition (stepSlab g n) n (Set.Ico 0 g.sizeZ) ↔ n ≤ g.sizeZ + 1) ∧
    (Slabs.Partition (initializeSlab g n) n (Set.Ico (-2) (g.sizeZ + 2)) ↔ n ≤ g.sizeZ + 5) := by
  have hz := g.sizeZ_pos
  have setup : Slabs.Partition (initializeSlab g n) n (Set.Ico (-2) (g.sizeZ + 2)) ↔
      n ≤ g.sizeZ + 5 := by
    have := Slabs.partition_iff (-2) (show 0 ≤ g.sizeZ + 4 by omega) hn
    rwa [← slab_eq, show -2 + (g.sizeZ + 4) = g.sizeZ + 2 by ring,
      show g.sizeZ + 4 + 1 = g.sizeZ + 5 by ring] at this
  have step : Slabs.Partition (stepSlab g n) n (Set.Ico 0 g.sizeZ) ↔ n ≤ g.sizeZ + 1 := by
    have := Slabs.partition_iff 0 hz.le hn
    rwa [← slab_eq, zero_add] at this
  refine ⟨?_, setup⟩
  rw [setup, step]
  omega

section Single
open Config (single)

theorem slabs_partition_iff_single :
    (Slabs.Partition (initializeSlab single 2) 2 (Set.Ico (-2) (single.sizeZ + 2)) ∧
      Slabs.Partition (stepSlab single 2) 2 (Set.Ico 0 single.sizeZ) ↔ 2 ≤ single.sizeZ + 1) ∧
    (Slabs.Partition (initializeSlab single 2) 2 (Set.Ico (-2) (single.sizeZ + 2)) ↔
      2 ≤ single.sizeZ + 5) :=
  slabs_partition_iff single (by decide)

/-- Of three threads for one plane, the second gets the plane above it. -/
theorem slabs_overrun :
    ¬ (Slabs.Partition (initializeSlab single 3) 3 (Set.Ico (-2) (single.sizeZ + 2)) ∧
      Slabs.Partition (stepSlab single 3) 3 (Set.Ico 0 single.sizeZ)) := by
  rintro ⟨-, h⟩
  have handed : (1 : ℤ) ∈ stepSlab single 3 1 := by
    change (1 : ℤ) ∈ trips _ _ 1
    decide
  have inside : (1 : ℤ) ∈ Set.Ico 0 single.sizeZ := by
    rw [← h.cover]
    exact Set.mem_biUnion (show (1 : ℤ) ∈ Set.Ico 0 3 by decide) handed
  exact absurd inside.2 (by decide)

end Single

end Threads

end MorelloWorkloads.Lbm
