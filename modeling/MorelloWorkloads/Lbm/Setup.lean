import MorelloWorkloads.Lbm.Threads

/-! The initialisers of the port against those of the original. All three go
through the planes `-2` to `sizeZ + 1`, and a cell's edits stay in the cell. -/
namespace MorelloWorkloads.Lbm
open CountedLoop FlatMemory

variable {K : Type*} [Field K] (g : Config)

inductive Initializer
  | grid | ldc | channel

namespace Initializer

/-- The edits that a routine makes to cell `p`. -/
def cell : Initializer → ℤ → List (Edit ℤ (Word K))
  | .grid, p => initialCell g (g.word p)
  | .ldc, p => ldcCell g (g.cellX p) (g.cellY p) (g.cellZ p)
  | .channel, p => channelCell g (g.cellX p) (g.cellY p) (g.cellZ p)

def original : Initializer → Grid K → Option (Grid K)
  | .grid => Original.initializeGrid g
  | .ldc => Original.initializeSpecialCellsForLDC g
  | .channel => Original.initializeSpecialCellsForChannel g

section Threaded
variable (ok : ℤ → Prop) [DecidablePred ok]

def thread : Initializer → ℤ → ℤ → Grid K → Option (Grid K)
  | .grid => Threads.threadInitializeGrid g ok
  | .ldc => Threads.threadInitializeLdc g ok
  | .channel => Threads.threadInitializeChannel g ok

def threaded (n : ℤ) (fresh : ℤ → Grid K) : Initializer → Grid K → Option (Grid K)
  | .grid => Threads.initializeGrid g ok n fresh
  | .ldc => Threads.initializeSpecialCellsForLDC g ok n fresh
  | .channel => Threads.initializeSpecialCellsForChannel g ok n fresh

end Threaded

variable {g} (r : Initializer)

/-- The edits to a cell stay in the cell. -/
theorem mem_cell {p : ℤ} {e : Edit ℤ (Word K)} (he : e ∈ r.cell g p) :
    ∃ k, (0 ≤ k ∧ k < g.nCellEntries) ∧ e.addr = g.word p k := by
  have own : g.calcIndex (g.cellX p) (g.cellY p) (g.cellZ p) g.flags = g.word p g.flags := by
    rw [Config.calcIndex_eq, Config.cell_of_coords]
  cases r with
  | grid =>
    cases List.mem_append.mp he with
    | inl hd =>
      obtain ⟨⟨d, v⟩, _, rfl⟩ := List.mem_map.mp hd
      exact ⟨g.offset d, g.offset_range d, rfl⟩
    | inr hf =>
      obtain rfl := List.mem_singleton.mp hf
      exact ⟨g.flags, g.flags_range, rfl⟩
  | ldc =>
    refine ⟨g.flags, g.flags_range, ?_⟩
    simp only [cell, ldcCell, own] at he
    split at he
    · obtain rfl := List.mem_singleton.mp he
      rfl
    · split at he
      · obtain rfl := List.mem_singleton.mp he
        rfl
      · cases he
  | channel =>
    refine ⟨g.flags, g.flags_range, ?_⟩
    simp only [cell, channelCell, own] at he
    split at he
    · cases he with
      | head =>
        rfl
      | tail _ he =>
        obtain rfl := List.mem_singleton.mp he
        rfl
    · cases he

/-- Every routine edits the first cell of every plane. -/
theorem cell_corner (z : ℤ) : (r.cell g (z * g.plane) : List (Edit ℤ (Word K))) ≠ [] := by
  have corner : g.cellX (z * g.plane) = 0 := by
    rw [Config.cellX, Config.plane, mul_comm g.sizeX, ← mul_assoc, Int.mul_emod_left]
  cases r with
  | grid => simp [cell, initialCell]
  | ldc => simp [cell, ldcCell, corner]
  | channel => simp [cell, channelCell, corner]

theorem original_sweep (grid : Grid K) : r.original g grid =
    loopM (-2 * g.plane) ((g.sizeZ + 2) * g.plane) 1 grid fun m p =>
      runAllIn g.Allocated m (r.cell g p) := by
  cases r with
  | grid =>
    have here (p e : ℤ) : g.calcIndex 0 0 0 e + g.nCellEntries * p = g.word p e := by
      unfold Config.calcIndex Config.word
      ring
    rw [original, Original.initializeGrid, Config.sweep_eq]
    simp only [here]
    rfl
  | ldc => exact Config.planes_eq _ _ _ _
  | channel => exact Config.planes_eq _ _ _ _

theorem thread_sweep (ok : ℤ → Prop) [DecidablePred ok] (lo hi : ℤ) (grid : Grid K) :
    r.thread g ok lo hi grid =
      loopM (lo * g.plane) (hi * g.plane) 1 grid fun m p => runAllIn ok m (r.cell g p) := by
  cases r with
  | grid =>
    rw [thread, Threads.threadInitializeGrid, Config.planes_eq]
    simp only [cell]
    congr 1
    funext m p
    congr 2
    funext e
    rw [Config.calcIndex_eq, Config.cell_of_coords]
  | ldc => exact Config.planes_eq _ _ _ _
  | channel => exact Config.planes_eq _ _ _ _

theorem threaded_eq (ok : ℤ → Prop) [DecidablePred ok] (n : ℤ) (fresh : ℤ → Grid K)
    (grid : Grid K) : r.threaded g ok n fresh grid =
      Threads.initializeThreads g n fresh (r.thread g ok) grid := by
  cases r <;> rfl

/-- The whole work on the planes `[lo, hi)`. -/
def work (g : Config) (r : Initializer) (lo hi : ℤ) : List (Edit ℤ (Word K)) :=
  (trips (lo * g.plane) (hi * g.plane) 1).flatMap (r.cell g)

theorem checked_sweep (ok : ℤ → Prop) [DecidablePred ok] (lo hi : ℤ) (grid : Grid K) :
    loopM (lo * g.plane) (hi * g.plane) 1 grid (fun m p => runAllIn ok m (r.cell g p)) =
      runAllIn ok grid (r.work g lo hi) := by
  have run := foldlM_runAllIn ok (fun _ : ℤ => True) (r.cell g)
    (trips (lo * g.plane) (hi * g.plane) 1) grid
  simp only [if_true, true_and] at run
  rw [loopM, run, runAllIn_eq, work]
  refine if_congr ?_ rfl rfl
  simp only [List.mem_flatMap, forall_exists_index, and_imp]
  exact ⟨fun h e p hp he => h p hp e he, fun h p hp e he => h e p hp he⟩

/-- The original is defined: all its planes are allocated. -/
theorem original_run (grid : Grid K) :
    r.original g grid = some (runAll grid (r.work g (-2) (g.sizeZ + 2))) := by
  rw [original_sweep, checked_sweep, runAllIn_eq, if_pos]
  intro e he
  obtain ⟨p, hp, hep⟩ := List.mem_flatMap.mp he
  obtain ⟨k, hk, ha⟩ := r.mem_cell hep
  rw [ha, Config.allocated_word hk]
  exact mem_trips_one.mp hp

/-- A word after a sweep: its cell's own edits, if the sweep has reached it. -/
theorem work_word (lo hi : ℤ) (grid : Grid K) {p k : ℤ} (hk : 0 ≤ k ∧ k < g.nCellEntries) :
    runAll grid (r.work g lo hi) (g.word p k) =
      if lo ≤ g.cellZ p ∧ g.cellZ p < hi then runAll grid (r.cell g p) (g.word p k)
      else grid (g.word p k) := by
  have owner {q : ℤ} {e : Edit ℤ (Word K)} (he : e ∈ r.cell g q) (ha : e.addr = g.word p k) :
      q = p := by
    obtain ⟨k', hk', ha'⟩ := r.mem_cell he
    exact (Config.word_inj hk' hk (ha'.symm.trans ha)).1
  by_cases hz : lo ≤ g.cellZ p ∧ g.cellZ p < hi
  · have hp := mem_trips_one.mpr (Config.plane_between.mpr hz)
    rw [if_pos hz]
    exact runAll_flatMap_owner (trips_nodup one_pos) hp
      (fun q _ hne e he ha => hne (owner he ha)) grid
  · rw [if_neg hz]
    apply runAll_of_forall_ne
    intro e he ha
    obtain ⟨q, hq, heq⟩ := List.mem_flatMap.mp he
    obtain rfl := owner heq ha
    exact hz (Config.plane_between.mp (mem_trips_one.mp hq))

/-- The first thread begins two planes below its array, whatever the sizes are. -/
theorem threaded_undefined {n : ℤ} (hn : 1 ≤ n) (fresh : ℤ → Grid K) (grid : Grid K) :
    r.threaded g g.InArray n fresh grid = none := by
  have top : -2 < Slabs.last (g.sizeZ + 4) n (-2) 0 :=
    Slabs.base_lt_last_zero (-2) (show 0 < g.sizeZ + 4 by linarith [g.sizeZ_pos])
  have first : r.thread g g.InArray (Slabs.first (g.sizeZ + 4) n (-2) 0)
      (Slabs.last (g.sizeZ + 4) n (-2) 0) (Threads.privateCopy g (fresh 0) grid) = none := by
    rw [thread_sweep, checked_sweep, runAllIn_eq, Slabs.first_zero, if_neg]
    intro inside
    obtain ⟨e, he⟩ := List.exists_mem_of_ne_nil _ (r.cell_corner (K := K) (-2))
    obtain ⟨k, hk, ha⟩ := r.mem_cell he
    have := inside e (List.mem_flatMap.mpr ⟨_, Config.corner_mem le_rfl top, he⟩)
    rw [ha, Config.inArray_word hk] at this
    linarith [this.1, g.plane_pos]
  rw [threaded_eq, Threads.initializeThreads, Threads.runThreads, trips_cons one_pos (by omega),
    List.mapM_cons, first]
  rfl

/-- What comes back from a first thread that reaches up to the plane `top`. -/
def returned (g : Config) (r : Initializer) (top : ℤ) (fresh grid : Grid K) : Grid K :=
  copy g.length grid (runAll (Threads.privateCopy g fresh grid) (r.work g (-2) top))

theorem returned_word (top : ℤ) (fresh grid : Grid K) {p k : ℤ} (hk : 0 ≤ k ∧ k < g.nCellEntries) :
    returned g r top fresh grid (g.word p k) =
      if InGrid g p ∧ g.cellZ p < top then runAll grid (r.cell g p) (g.word p k)
      else grid (g.word p k) := by
  by_cases hp : InGrid g p
  · have hz := (inGrid_iff p).mp hp
    have same := privateCopy_word fresh grid hp hk
    rw [returned, copy_inside _ _ ((Config.inArray_word hk).mpr hp), r.work_word _ _ _ hk]
    by_cases ht : g.cellZ p < top
    · rw [if_pos ⟨by omega, ht⟩, if_pos ⟨hp, ht⟩]
      exact runAll_congr same
    · rw [if_neg fun h => ht h.2, if_neg fun h => ht h.2, same]
  · rw [if_neg fun h => hp h.1]
    exact copy_outside _ _ fun h => hp ((Config.inArray_word hk).mp h)

/-- If the words around a private array were its own, the planes up to the first
thread's end would come back as far as they lie in the array. -/
theorem threaded_unchecked {n : ℤ} (hn : 1 ≤ n) (fresh : ℤ → Grid K) (grid : Grid K) :
    r.threaded g (fun _ => True) n fresh grid =
      some (returned g r (Slabs.last (g.sizeZ + 4) n (-2) 0) (fresh 0) grid) := by
  have run (i lo hi : ℤ) : r.thread g (fun _ => True) lo hi (Threads.privateCopy g (fresh i) grid) =
      if True then some (runAll (Threads.privateCopy g (fresh i) grid) (r.work g lo hi))
      else none := by
    rw [thread_sweep, checked_sweep, runAllIn_eq]
    exact if_congr (by simp) rfl rfl
  rw [threaded_eq, Threads.initializeThreads, Threads.runThreads]
  simp only [run]
  rw [mapM_guard, if_pos fun _ _ => trivial]
  simp only [Option.bind_eq_bind, Option.bind_some, head_map_trips (show 0 < n by omega),
    Slabs.first_zero]
  rfl

/-- A cell that holds already what the routine gives it. -/
def Settled (g : Config) (r : Initializer) (grid : Grid K) (p : ℤ) : Prop := runAll grid (r.cell g p) = grid

theorem settled_iff (grid : Grid K) (p : ℤ) : Settled g r grid p ↔
    ∀ k, 0 ≤ k → k < g.nCellEntries → runAll grid (r.cell g p) (g.word p k) = grid (g.word p k) := by
  constructor
  · intro settled k _ _
    rw [settled]
  · intro words
    funext i
    obtain ⟨q, k, rfl, hk⟩ := g.exists_word i
    by_cases hq : q = p
    · subst hq
      exact words k hk.1 hk.2
    · apply runAll_of_forall_ne
      intro e he ha
      obtain ⟨k', hk', ha'⟩ := r.mem_cell he
      exact hq (Config.word_inj hk' hk (ha'.symm.trans ha)).1.symm

theorem unchecked_matches_iff {n : ℤ} (hn : 1 ≤ n) (fresh : ℤ → Grid K) (grid : Grid K) :
    Matches g.Allocated (r.threaded g (fun _ => True) n fresh grid) (r.original g grid) ↔
      ∀ p, -2 ≤ g.cellZ p → g.cellZ p < g.sizeZ + 2 →
        ¬ (InGrid g p ∧ g.cellZ p < Slabs.last (g.sizeZ + 4) n (-2) 0) → Settled g r grid p := by
  have made {p k : ℤ} (hk : 0 ≤ k ∧ k < g.nCellEntries) (hz : -2 ≤ g.cellZ p ∧ g.cellZ p < g.sizeZ + 2) :
      runAll grid (r.work g (-2) (g.sizeZ + 2)) (g.word p k) = runAll grid (r.cell g p) (g.word p k) := by
    rw [r.work_word _ _ _ hk, if_pos hz]
  rw [threaded_unchecked r hn, original_run, matches_some_iff]
  constructor
  · intro agree p hlo hhi hp
    rw [settled_iff]
    intro k hk hkN
    have same := agree _
      ((Config.allocated_word ⟨hk, hkN⟩).mpr (Config.plane_between.mpr ⟨hlo, hhi⟩))
    rw [returned_word r _ _ _ ⟨hk, hkN⟩, if_neg hp, made ⟨hk, hkN⟩ ⟨hlo, hhi⟩] at same
    exact same.symm
  · intro settled i hi
    obtain ⟨p, k, rfl, hk⟩ := g.exists_word i
    have hz := Config.plane_between.mp ((Config.allocated_word hk).mp hi)
    rw [made hk hz, returned_word r _ _ _ hk]
    by_cases hp : InGrid g p ∧ g.cellZ p < Slabs.last (g.sizeZ + 4) n (-2) 0
    · rw [if_pos hp]
    · rw [if_neg hp]
      exact ((r.settled_iff grid p).mp (settled p hz.1 hz.2 hp) k hk.1 hk.2).symm

end Initializer

/-- No run of an initialiser of the port is like the original's: its first
thread stores below its array. Were those stores harmless, the margin planes and
the planes past the first slab would still be lost. -/
theorem initializers_never_match {n : ℤ} (hn : 1 ≤ n) (fresh : ℤ → Grid K) (grid : Grid K)
    (r : Initializer) :
    ¬ Matches g.Allocated (r.threaded g g.InArray n fresh grid) (r.original g grid) ∧
    (Matches g.Allocated (r.threaded g (fun _ => True) n fresh grid) (r.original g grid) ↔
      ∀ p, -2 ≤ g.cellZ p → g.cellZ p < g.sizeZ + 2 →
        ¬ (InGrid g p ∧ g.cellZ p < Slabs.last (g.sizeZ + 4) n (-2) 0) →
        r.Settled g grid p) := by
  constructor
  · rw [r.threaded_undefined hn]
    exact not_matches_none _ _
  · exact r.unchecked_matches_iff hn fresh grid

section Single
open Config (single)

def blankGrid : Grid ℚ := fun _ => ⟨0, 0⟩

/-- One thread and one cell: the routine fails before anything is copied back. -/
theorem initializers_differ :
    ¬ Matches single.Allocated
      (Threads.initializeGrid single single.InArray 1 (fun _ => blankGrid) blankGrid)
      (Original.initializeGrid single blankGrid) := by
  have undefined : Threads.initializeGrid single single.InArray 1 (fun _ => blankGrid) blankGrid =
      none := Initializer.grid.threaded_undefined le_rfl _ _
  rw [undefined]
  exact not_matches_none _ _

theorem initializers_never_match_single :
    ¬ Matches single.Allocated
      (Initializer.ldc.threaded single single.InArray 3 (fun _ => blankGrid) blankGrid)
      (Initializer.ldc.original single blankGrid) ∧
    (Matches single.Allocated
        (Initializer.ldc.threaded single (fun _ => True) 3 (fun _ => blankGrid) blankGrid)
        (Initializer.ldc.original single blankGrid) ↔
      ∀ p, -2 ≤ single.cellZ p → single.cellZ p < single.sizeZ + 2 →
        ¬ (InGrid single p ∧ single.cellZ p < Slabs.last (single.sizeZ + 4) 3 (-2) 0) →
        Initializer.ldc.Settled single blankGrid p) :=
  initializers_never_match single (by decide) (fun _ => blankGrid) blankGrid .ldc

end Single

end MorelloWorkloads.Lbm
