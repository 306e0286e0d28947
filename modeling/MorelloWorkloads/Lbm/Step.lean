import MorelloWorkloads.Lbm.Collision
import MorelloWorkloads.Lbm.Threads

/-! Both programs make a step by the same stores to the populations of the
cells; only the cell that receives a population differs. -/
namespace MorelloWorkloads.Lbm
open CountedLoop FlatMemory

variable {K : Type*} [Field K] (g : Config)

/-- How far a population streams in one step, in cells. -/
def shift (d : Dir) : ℤ := g.cell (neighbor d).1 (neighbor d).2.1 (neighbor d).2.2

def populations (src : Grid K) (p : ℤ) (d : Dir) : K := (src (g.word p (g.offset d))).val

def flagBits (src : Grid K) (p : ℤ) : BitVec 32 := (src (g.word p g.flags)).bits

/-- The stores that cell `p` makes when direction `d` is stored `move d` cells on. -/
def cellProgram (collide : (Dir → K) → Moments K → List (Dir × K)) (src : Grid K) (move : Dir → ℤ)
    (p : ℤ) : List (Edit ℤ (Word K)) :=
  (cellStores g collide (populations g src p) (flagBits g src p)).map fun (d, v) =>
    storeVal (g.word (p + move d) (g.offset d)) v

variable {g}

theorem word_add (p q e : ℤ) : g.word q e + g.nCellEntries * p = g.word (p + q) e := by
  unfold Config.word
  ring

/-- The step's body is defined when all words it names can be accessed. -/
theorem streamCollideCell_eq (ok : ℤ → Prop) [DecidablePred ok]
    (collide : (Dir → K) → Moments K → List (Dir × K)) (src dst : Grid K) (move : Dir → ℤ) (p : ℤ) :
    streamCollideCell ok g collide src (g.word p g.flags) (fun d => g.word p (g.offset d))
        (fun d => g.word (p + move d) (g.offset d)) dst =
      if ok (g.word p g.flags) ∧ ∀ d, ok (g.word p (g.offset d)) then
        runAllIn ok dst (cellProgram g collide src move p)
      else none := by
  by_cases hf : ok (g.word p g.flags)
  · by_cases hd : ∀ d, ok (g.word p (g.offset d))
    · simp only [streamCollideCell, load, readCell, hf, hd, if_true, implies_true, and_self]
      rfl
    · simp [streamCollideCell, load, readCell, hf, hd]
  · simp [streamCollideCell, load, hf]

section Program
variable {collide : (Dir → K) → Moments K → List (Dir × K)} {src : Grid K} {post : ℤ → Dir → K}
  (h : ∀ p, Tabulates (cellStores g collide (populations g src p) (flagBits g src p)) (post p))
  (move : Dir → ℤ) {l : List ℤ} (hl : l.Nodup) (dst : Grid K)
include h

theorem mem_cellProgram {p : ℤ} {e : Edit ℤ (Word K)} (he : e ∈ cellProgram g collide src move p) :
    ∃ d, e = storeVal (g.word (p + move d) (g.offset d)) (post p d) := by
  obtain ⟨⟨d, v⟩, hmem, rfl⟩ := List.mem_map.mp he
  have hv : v = post p d := by
    have distinct := (h p).nodup
    exact congrArg Prod.snd (List.inj_on_of_nodup_map distinct hmem ((h p).mem d) rfl)
  exact ⟨d, by rw [hv]⟩

theorem cellProgram_addrs_nodup (p : ℤ) : ((cellProgram g collide src move p).map Edit.addr).Nodup := by
  have addrs : (cellProgram g collide src move p).map Edit.addr =
      ((cellStores g collide (populations g src p) (flagBits g src p)).map Prod.fst).map
        fun d => g.word (p + move d) (g.offset d) := by
    simp only [cellProgram, List.map_map]
    rfl
  rw [addrs]
  refine (h p).nodup.map fun d d' eq => ?_
  exact g.offset_inj _ _ (Config.word_inj (g.offset_range d) (g.offset_range d') eq).2

include hl in
/-- After a sweep, a population is what the cell it came from has sent; where
no cell of the sweep sends to it, it is unchanged. -/
theorem sweep_population (p : ℤ) (d : Dir) :
    runAll dst (l.flatMap (cellProgram g collide src move)) (g.word p (g.offset d)) =
      if p - move d ∈ l then (dst (g.word p (g.offset d))).setVal (post (p - move d) d)
      else dst (g.word p (g.offset d)) := by
  have sender {q : ℤ} {e : Edit ℤ (Word K)} (he : e ∈ cellProgram g collide src move q)
      (ha : e.addr = g.word p (g.offset d)) : q = p - move d := by
    obtain ⟨d', rfl⟩ := mem_cellProgram h move he
    obtain ⟨hp, ho⟩ := Config.word_inj (g.offset_range d') (g.offset_range d) ha
    obtain rfl : d' = d := g.offset_inj _ _ ho
    omega
  by_cases hm : p - move d ∈ l
  · rw [if_pos hm, runAll_flatMap_owner hl hm fun q _ hq e he ha => hq (sender he ha)]
    have mem : storeVal (g.word (p - move d + move d) (g.offset d)) (post (p - move d) d) ∈
        cellProgram g collide src move (p - move d) := List.mem_map_of_mem ((h _).mem d)
    have run := runAll_of_mem (cellProgram_addrs_nodup h move (p - move d)) mem dst
    rwa [sub_add_cancel] at run
  · rw [if_neg hm]
    apply runAll_of_forall_ne
    intro e he ha
    obtain ⟨q, hq, heq⟩ := List.mem_flatMap.mp he
    exact hm (sender heq ha ▸ hq)

/-- A sweep changes populations only. -/
theorem sweep_other {p e : ℤ} (he : 0 ≤ e ∧ e < g.nCellEntries) (hne : ∀ d, g.offset d ≠ e) :
    runAll dst (l.flatMap (cellProgram g collide src move)) (g.word p e) = dst (g.word p e) := by
  apply runAll_of_forall_ne
  intro c hc ha
  obtain ⟨q, _, hq⟩ := List.mem_flatMap.mp hc
  obtain ⟨d, rfl⟩ := mem_cellProgram h move hq
  exact hne d (Config.word_inj (g.offset_range d) he ha).2

end Program

/-! ## What the runs leave -/

theorem shift_bounds (d : Dir) : -2 * g.plane ≤ shift g d ∧ shift g d ≤ 2 * g.plane := by
  have hx := g.sizeX_pos
  have hxy : g.sizeX ≤ g.plane := le_mul_of_one_le_right hx.le g.sizeY_pos
  have hz : g.cell 0 0 1 = g.plane := by simp [Config.cell, Config.plane]
  have hcell (x y z : ℤ) : g.cell x y z = x + y * g.sizeX + z * g.plane := by
    unfold Config.cell Config.plane
    ring
  cases d <;> simp only [shift, neighbor, hcell] <;> constructor <;> linarith

section Runs
variable {collide : (Dir → K) → Moments K → List (Dir × K)} {src : Grid K} {post : ℤ → Dir → K}
  (h : ∀ p, Tabulates (cellStores g collide (populations g src p) (flagBits g src p)) (post p))
include h

/-- The original's step is defined: its stores stay inside the allocation. -/
theorem original_run (dst : Grid K) :
    Original.performStreamCollide g collide src dst =
      some (runAll dst ((trips 0 (g.sizeZ * g.plane) 1).flatMap
        (cellProgram g collide src (shift g)))) := by
  have body (m : Grid K) (p : ℤ) :
      streamCollideCell g.Allocated g collide src (g.calcIndex 0 0 0 g.flags + g.nCellEntries * p)
        (fun d => g.calcIndex 0 0 0 (g.offset d) + g.nCellEntries * p)
        (Original.neighborIndex g (g.nCellEntries * p)) m =
      if g.Allocated (g.word p g.flags) ∧ ∀ d, g.Allocated (g.word p (g.offset d)) then
        runAllIn g.Allocated m (cellProgram g collide src (shift g) p)
      else none := by
    rw [← streamCollideCell_eq]
    have here (e : ℤ) : g.calcIndex 0 0 0 e + g.nCellEntries * p = g.word p e := by
      rw [Config.calcIndex_eq, word_add]
      simp [Config.cell]
    have there (d : Dir) : Original.neighborIndex g (g.nCellEntries * p) d =
        g.word (p + shift g d) (g.offset d) := word_add p _ _
    simp only [here]
    congr 1
    exact funext there
  have allocated {p q : ℤ} (hp : p ∈ trips 0 (g.sizeZ * g.plane) 1) {e : ℤ}
      (he : 0 ≤ e ∧ e < g.nCellEntries) (hq : -2 * g.plane ≤ q ∧ q ≤ 2 * g.plane) :
      g.Allocated (g.word (p + q) e) := by
    have hb := mem_trips_one.mp hp
    rw [Config.allocated_word he]
    constructor <;> linarith
  have own : -2 * g.plane ≤ 0 ∧ 0 ≤ 2 * g.plane := by
    have := g.plane_pos
    omega
  rw [Original.performStreamCollide, Config.sweep_eq, zero_mul, loopM]
  simp only [body]
  rw [foldlM_runAllIn, if_pos]
  intro p hp
  refine ⟨⟨?_, fun d => ?_⟩, fun e he => ?_⟩
  · simpa using allocated hp g.flags_range own
  · simpa using allocated hp (g.offset_range d) own
  · obtain ⟨d, rfl⟩ := mem_cellProgram h (shift g) he
    exact allocated hp (g.offset_range d) (shift_bounds d)

/-- A thread's part of the step is defined when the cells of its slab can be accessed. -/
theorem thread_run_of (ok : ℤ → Prop) [DecidablePred ok] (lo hi : ℤ) (dst : Grid K) :
    Threads.threadStreamCollide g ok collide lo hi src dst =
      if ∀ p ∈ trips (lo * g.plane) (hi * g.plane) 1,
          ok (g.word p g.flags) ∧ ∀ d, ok (g.word p (g.offset d)) then
        some (runAll dst ((trips (lo * g.plane) (hi * g.plane) 1).flatMap
          (cellProgram g collide src fun _ => 0)))
      else none := by
  have body (m : Grid K) (p : ℤ) :
      streamCollideCell ok g collide src
        (g.calcIndex (g.cellX p) (g.cellY p) (g.cellZ p) g.flags)
        (fun d => g.calcIndex (g.cellX p) (g.cellY p) (g.cellZ p) (g.offset d))
        (fun d => g.calcIndex (g.cellX p) (g.cellY p) (g.cellZ p) (g.offset d)) m =
      if ok (g.word p g.flags) ∧ ∀ d, ok (g.word p (g.offset d)) then
        runAllIn ok m (cellProgram g collide src (fun _ => 0) p)
      else none := by
    rw [← streamCollideCell_eq]
    simp only [Config.calcIndex_eq, Config.cell_of_coords, add_zero]
  -- a cell stores to the words that it has read
  have guard (p : ℤ) : ((ok (g.word p g.flags) ∧ ∀ d, ok (g.word p (g.offset d))) ∧
      ∀ e ∈ cellProgram g collide src (fun _ => 0) p, ok e.addr) ↔
      ok (g.word p g.flags) ∧ ∀ d, ok (g.word p (g.offset d)) := by
    constructor
    · exact And.left
    · intro hp
      refine ⟨hp, fun e he => ?_⟩
      obtain ⟨d, rfl⟩ := mem_cellProgram h (fun _ => 0) he
      simpa [storeVal] using hp.2 d
  rw [Threads.threadStreamCollide, Config.planes_eq, loopM]
  simp only [body]
  rw [foldlM_runAllIn]
  simp only [guard]

/-- In a thread's own array that is so when its planes lie in the grid. -/
theorem thread_run (lo hi : ℤ) (dst : Grid K) :
    Threads.threadStreamCollide g g.InArray collide lo hi src dst =
      if lo < hi → 0 ≤ lo ∧ hi ≤ g.sizeZ then
        some (runAll dst ((trips (lo * g.plane) (hi * g.plane) 1).flatMap
          (cellProgram g collide src fun _ => 0)))
      else none := by
  have inGrid (p : ℤ) : (g.InArray (g.word p g.flags) ∧ ∀ d, g.InArray (g.word p (g.offset d))) ↔
      0 ≤ p ∧ p < g.sizeZ * g.plane := by
    constructor
    · intro guard
      exact (Config.inArray_word g.flags_range).mp guard.1
    · intro hp
      have ok {e : ℤ} (he : 0 ≤ e ∧ e < g.nCellEntries) := (Config.inArray_word he).mpr hp
      exact ⟨ok g.flags_range, fun d => ok (g.offset_range d)⟩
  rw [thread_run_of h]
  simp only [inGrid]
  refine if_congr ?_ rfl rfl
  exact g.planes_inside_iff lo hi

end Runs

end MorelloWorkloads.Lbm
