import MorelloWorkloads.Lbm.Step

/-! The step of the port against that of the original. The port stores every
population in its own cell, and of the threads' copies at most one returns. -/
namespace MorelloWorkloads.Lbm
open CountedLoop FlatMemory LatticeBoltzmann

variable {K : Type*} [Field K] {g : Config}

omit [Field K] in
theorem setVal_eq_iff (w : Word K) (v : K) : w.setVal v = w ↔ w.val = v := by
  cases w with
  | mk val bits => simp [Word.setVal, eq_comm]

omit [Field K] in
theorem setVal_inj (w : Word K) (v v' : K) : w.setVal v = w.setVal v' ↔ v = v' := by
  simp [Word.setVal]

section Step
variable {collide : (Dir → K) → Moments K → List (Dir × K)} {relax : (Dir → K) → (Dir → K) → Dir → K}

/-- What cell `p` sends out. -/
def sentBy (g : Config) (relax : (Dir → K) → (Dir → K) → Dir → K) (src : Grid K) (p : ℤ) : Dir → K :=
  sent g (populations g src p) (flagBits g src p) relax

theorem sentBy_privateCopy (fresh src : Grid K) {p : ℤ} (hp : InGrid g p) :
    sentBy g relax (Threads.privateCopy g fresh src) p = sentBy g relax src p := by
  have pops : populations g (Threads.privateCopy g fresh src) p = populations g src p := by
    funext d
    rw [populations, privateCopy_word fresh src hp (g.offset_range d), populations]
  rw [sentBy, pops, flagBits, privateCopy_word fresh src hp g.flags_range]
  rfl

variable (h : ∀ src m, collide src m =
  fluidOrder.map fun d => (d, relax src ((d3q19 K).equilibrium m.rho m.u) d))
include h

/-- The original leaves at `p` what the cell upstream has sent. -/
theorem original_step (src dst : Grid K) : ∃ out, Original.performStreamCollide g collide src dst = some out ∧
    (∀ p d, out (g.word p (g.offset d)) = if InGrid g (p - shift g d) then
      (dst (g.word p (g.offset d))).setVal (sentBy g relax src (p - shift g d) d)
      else dst (g.word p (g.offset d))) ∧
    ∀ p e, 0 ≤ e → e < g.nCellEntries → (∀ d, g.offset d ≠ e) →
      out (g.word p e) = dst (g.word p e) := by
  have tab (p : ℤ) := cellStores_tabulates g (populations g src p) (flagBits g src p) h
  refine ⟨_, original_run tab dst, fun p d => ?_, fun p e he heN hne => ?_⟩
  · rw [sweep_population tab _ (trips_nodup one_pos)]
    exact if_congr mem_trips_one rfl rfl
  · exact sweep_other tab _ dst ⟨he, heN⟩ hne

/-- What a thread leaves in its private copy of the destination. -/
def threadOut (g : Config) (collide : (Dir → K) → Moments K → List (Dir × K)) (lo hi : ℤ)
    (fresh : Grid K × Grid K) (src dst : Grid K) : Grid K :=
  runAll (Threads.privateCopy g fresh.2 dst) ((trips (lo * g.plane) (hi * g.plane) 1).flatMap
    (cellProgram g collide (Threads.privateCopy g fresh.1 src) fun _ => 0))

/-- A thread leaves, in its own slab, what each cell has sent, at that cell. -/
theorem threadOut_population (lo hi : ℤ) (fresh : Grid K × Grid K) (src dst : Grid K) {p : ℤ}
    (hp : InGrid g p) (d : Dir) :
    threadOut g collide lo hi fresh src dst (g.word p (g.offset d)) =
      if lo ≤ g.cellZ p ∧ g.cellZ p < hi then
        (dst (g.word p (g.offset d))).setVal (sentBy g relax src p d)
      else dst (g.word p (g.offset d)) := by
  have tab (p : ℤ) := cellStores_tabulates g (populations g (Threads.privateCopy g fresh.1 src) p)
    (flagBits g (Threads.privateCopy g fresh.1 src) p) h
  rw [threadOut, sweep_population tab _ (trips_nodup one_pos),
    privateCopy_word _ _ hp (g.offset_range d), sub_zero]
  have value : sent g (populations g (Threads.privateCopy g fresh.1 src) p)
      (flagBits g (Threads.privateCopy g fresh.1 src) p) relax = sentBy g relax src p :=
    sentBy_privateCopy fresh.1 src hp
  rw [value]
  exact if_congr (mem_trips_one.trans Config.plane_between) rfl rfl

theorem threadOut_other (lo hi : ℤ) (fresh : Grid K × Grid K) (src dst : Grid K) {p e : ℤ}
    (hp : InGrid g p) (he : 0 ≤ e ∧ e < g.nCellEntries) (hne : ∀ d, g.offset d ≠ e) :
    threadOut g collide lo hi fresh src dst (g.word p e) = dst (g.word p e) := by
  have tab (p : ℤ) := cellStores_tabulates g (populations g (Threads.privateCopy g fresh.1 src) p)
    (flagBits g (Threads.privateCopy g fresh.1 src) p) h
  rw [threadOut, sweep_other tab _ _ he hne, privateCopy_word _ _ hp he]

/-- With more threads than planes and one, some thread leaves its arrays. -/
theorem stepThreads_eq {n : ℤ} (hn : 1 ≤ n) (fresh : ℤ → Grid K × Grid K) (src dst : Grid K) :
    Threads.stepThreads g g.InArray collide n fresh src dst =
      if n ≤ g.sizeZ + 1 then
        some ((trips 0 n 1).map fun i => threadOut g collide (Slabs.first g.sizeZ n 0 i)
          (Slabs.last g.sizeZ n 0 i) (fresh i) src dst)
      else none := by
  have run (i : ℤ) : Threads.threadStreamCollide g g.InArray collide (Slabs.first g.sizeZ n 0 i)
      (Slabs.last g.sizeZ n 0 i) (Threads.privateCopy g (fresh i).1 src)
      (Threads.privateCopy g (fresh i).2 dst) =
        if Slabs.first g.sizeZ n 0 i < Slabs.last g.sizeZ n 0 i →
            0 ≤ Slabs.first g.sizeZ n 0 i ∧ Slabs.last g.sizeZ n 0 i ≤ g.sizeZ then
          some (threadOut g collide (Slabs.first g.sizeZ n 0 i) (Slabs.last g.sizeZ n 0 i) (fresh i)
            src dst)
        else none :=
    thread_run (fun p => cellStores_tabulates g _ _ h) _ _ _
  have inside := Slabs.inside_iff 0 g.sizeZ_pos.le hn
  simp only [zero_add] at inside
  rw [Threads.stepThreads, Threads.runThreads]
  simp only [run]
  rw [mapM_guard]
  refine if_congr ?_ rfl rfl
  rw [← inside]
  simp only [mem_trips_one, and_imp]

end Step

omit [Field K] in
/-- Grids that differ in populations only agree when these do. -/
theorem agree_iff {m m' : Grid K} (other : ∀ p e, InGrid g p → 0 ≤ e → e < g.nCellEntries →
    (∀ d, g.offset d ≠ e) → m (g.word p e) = m' (g.word p e)) :
    (∀ i, g.InArray i → m i = m' i) ↔
      ∀ p d, InGrid g p → m (g.word p (g.offset d)) = m' (g.word p (g.offset d)) := by
  constructor
  · intro agree p d hp
    exact agree _ ((Config.inArray_word (g.offset_range d)).mpr hp)
  · intro agree i hi
    obtain ⟨p, e, rfl, he⟩ := g.exists_word i
    have hp := (Config.inArray_word he).mp hi
    by_cases hd : ∃ d, g.offset d = e
    · obtain ⟨d, rfl⟩ := hd
      exact agree p d hp
    · exact other p e hp he.1 he.2 fun d eq => hd ⟨d, eq⟩

/-- A step of which one cannot tell that its populations stay where they are, nor
that the planes from `top` on are not made at all. -/
structure StreamingInvisible (g : Config) (top : ℤ) (sentAt : ℤ → Dir → K) (dst : Grid K) :
    Prop where
  inside : ∀ p d, InGrid g p → g.cellZ p < top → InGrid g (p - shift g d) →
    sentAt p d = sentAt (p - shift g d) d
  inflow : ∀ p d, InGrid g p → g.cellZ p < top → ¬ InGrid g (p - shift g d) →
    populations g dst p d = sentAt p d
  above : ∀ p d, InGrid g p → top ≤ g.cellZ p → InGrid g (p - shift g d) →
    populations g dst p d = sentAt (p - shift g d) d

omit [Field K] in
/-- One population, made by the first thread up to `top` and by the original. -/
theorem population_agrees_iff {w : Word K} {v v' : K} {mine upstream : Prop} [Decidable mine]
    [Decidable upstream] :
    (if mine then w.setVal v else w) = (if upstream then w.setVal v' else w) ↔
      (mine → upstream → v = v') ∧ (mine → ¬ upstream → w.val = v) ∧
        (¬ mine → upstream → w.val = v') := by
  by_cases hm : mine
  · by_cases hu : upstream
    · simp [hm, hu, setVal_inj]
    · simp [hm, hu, setVal_eq_iff]
  · by_cases hu : upstream
    · simp [hm, hu, eq_comm (a := w), setVal_eq_iff]
    · simp [hm, hu]

/-- No source grid makes the ports agree with the original on every destination:
the population that enters the first cell from below the grid is an example. -/
theorem exists_visible {top : ℤ} (ht : 0 < top) (sentAt : ℤ → Dir → K) :
    ∃ dst, ¬ StreamingInvisible g top sentAt dst := by
  refine ⟨fun _ => ⟨sentAt 0 .T + 1, 0⟩, fun invisible => ?_⟩
  have below : ¬ InGrid g (0 - shift g .T) := by
    have hp := g.plane_pos
    have hs : shift g .T = g.plane := by simp [shift, neighbor, Config.cell, Config.plane]
    rw [hs, InGrid]
    omega
  have hz : g.cellZ 0 < top := by simpa [Config.cellZ] using ht
  have := invisible.inflow 0 .T inGrid_zero hz below
  simp [populations] at this

section Drivers
variable {collide : (Dir → K) → Moments K → List (Dir × K)} {relax : (Dir → K) → (Dir → K) → Dir → K}
  (h : ∀ src m, collide src m =
    fluidOrder.map fun d => (d, relax src ((d3q19 K).equilibrium m.rho m.u) d))
include h

/-- What comes back from the first thread, against the original. -/
theorem firstThread_matches_iff (top : ℤ) (fresh : Grid K × Grid K) (src dst : Grid K) :
    Matches g.InArray (some (copy g.length dst (threadOut g collide 0 top fresh src dst)))
        (Original.performStreamCollide g collide src dst) ↔
      StreamingInvisible g top (sentBy g relax src) dst := by
  obtain ⟨out, hout, outPop, outOther⟩ := original_step h src dst
  have other (p e : ℤ) (hp : InGrid g p) (he : 0 ≤ e) (heN : e < g.nCellEntries)
      (hne : ∀ d, g.offset d ≠ e) :
      copy g.length dst (threadOut g collide 0 top fresh src dst) (g.word p e) = out (g.word p e) := by
    rw [copy_inside _ _ ((Config.inArray_word ⟨he, heN⟩).mpr hp), outOther p e he heN hne,
      threadOut_other h _ _ _ _ _ hp ⟨he, heN⟩ hne]
  have population {p : ℤ} (hp : InGrid g p) (d : Dir) :
      copy g.length dst (threadOut g collide 0 top fresh src dst) (g.word p (g.offset d)) =
        if g.cellZ p < top then (dst (g.word p (g.offset d))).setVal (sentBy g relax src p d)
        else dst (g.word p (g.offset d)) := by
    rw [copy_inside _ _ ((Config.inArray_word (g.offset_range d)).mpr hp),
      threadOut_population h _ _ _ _ _ hp]
    exact if_congr (and_iff_right ((inGrid_iff p).mp hp).1) rfl rfl
  rw [hout, matches_some_iff, agree_iff other]
  constructor
  · intro agree
    have each (p : ℤ) (d : Dir) (hp : InGrid g p) := population_agrees_iff.mp
      ((population hp d).symm.trans ((agree p d hp).trans (outPop p d)))
    exact ⟨fun p d hp => (each p d hp).1, fun p d hp => (each p d hp).2.1,
      fun p d hp hz => (each p d hp).2.2 (not_lt.mpr hz)⟩
  · intro invisible p d hp
    rw [population hp d, outPop p d]
    exact population_agrees_iff.mpr ⟨invisible.inside p d hp, invisible.inflow p d hp,
      fun hz => invisible.above p d hp (not_lt.mp hz)⟩

/-- A driver that finishes with `finish` is defined only for few enough threads. -/
theorem driver_matches_iff {n : ℤ} (hn : 1 ≤ n) (fresh : ℤ → Grid K × Grid K) (src dst : Grid K)
    (finish : List (Grid K) → Option (Grid K)) (b : Option (Grid K)) :
    Matches g.InArray ((Threads.stepThreads g g.InArray collide n fresh src dst).bind finish) b ↔
      n ≤ g.sizeZ + 1 ∧ Matches g.InArray (finish ((trips 0 n 1).map fun i =>
        threadOut g collide (Slabs.first g.sizeZ n 0 i) (Slabs.last g.sizeZ n 0 i) (fresh i) src dst)) b := by
  rw [stepThreads_eq h hn]
  by_cases fits : n ≤ g.sizeZ + 1
  · rw [if_pos fits, Option.bind_some]
    exact (and_iff_right fits).symm
  · rw [if_neg fits, Option.bind_none]
    exact iff_of_false (not_matches_none _ _) fun both => fits both.1

/-- What the original leaves, against the destination as it was. -/
theorem unchanged_matches_iff (src dst : Grid K) :
    Matches g.InArray (some dst) (Original.performStreamCollide g collide src dst) ↔
      ∀ p d, InGrid g p → InGrid g (p - shift g d) →
        populations g dst p d = sentBy g relax src (p - shift g d) d := by
  obtain ⟨out, hout, outPop, outOther⟩ := original_step h src dst
  rw [hout, matches_some_iff, agree_iff fun p e _ he heN hne => (outOther p e he heN hne).symm]
  apply forall₃_congr
  intro p d hp
  rw [outPop p d]
  by_cases upstream : InGrid g (p - shift g d)
  · simp [upstream, eq_comm (a := dst _), setVal_eq_iff, populations]
  · simp [upstream]

end Drivers

section Routines
variable [CharZero K] (g) (omega : K) {n : ℤ} (hn : 1 ≤ n) (fresh : ℤ → Grid K × Grid K)
  (src : Grid K)
include hn

theorem bgk_matches_iff (dst : Grid K) :
    Matches g.InArray (Threads.performStreamCollideBGK g g.InArray omega n fresh src dst)
        (Original.performStreamCollideBGK g omega src dst) ↔
      n ≤ g.sizeZ + 1 ∧ StreamingInvisible g (Slabs.last g.sizeZ n 0 0)
        (sentBy g (Lattice.bgk omega) src) dst := by
  have h := collideBGK_eq (K := K) omega
  apply (driver_matches_iff h hn fresh src dst _ _).trans
  apply and_congr_right
  intro _
  rw [← firstThread_matches_iff h _ (fresh 0)]
  simp only [Option.bind_eq_bind, Option.bind_some, head_map_trips (show 0 < n by omega),
    Slabs.first_zero]
  rfl

theorem trt_matches_iff (dst : Grid K) :
    Matches g.InArray (Threads.performStreamCollideTRT g g.InArray omega n fresh src dst)
        (Original.performStreamCollideTRT g omega src dst) ↔
      n ≤ g.sizeZ + 1 ∧ ∀ p d, InGrid g p → InGrid g (p - shift g d) →
        populations g dst p d =
          sentBy g ((d3q19 K).trt omega (lambda0 omega)) src (p - shift g d) d := by
  have h := collideTRT_eq (K := K) omega
  apply (driver_matches_iff h hn fresh src dst _ _).trans
  apply and_congr_right
  intro _
  exact unchanged_matches_iff h src dst

/-- Only the first thread's slab returns from the BGK step, and in it every
population is one cell behind: on no source grid is this the original's step. -/
theorem performStreamCollideBGK_matches_iff :
    (∀ dst, Matches g.InArray (Threads.performStreamCollideBGK g g.InArray omega n fresh src dst)
        (Original.performStreamCollideBGK g omega src dst) ↔
      n ≤ g.sizeZ + 1 ∧ StreamingInvisible g (Slabs.last g.sizeZ n 0 0)
        (sentBy g (Lattice.bgk omega) src) dst) ∧
    ¬ ∀ dst, Matches g.InArray (Threads.performStreamCollideBGK g g.InArray omega n fresh src dst)
        (Original.performStreamCollideBGK g omega src dst) := by
  have each := bgk_matches_iff g omega hn fresh src
  refine ⟨each, fun always => ?_⟩
  have top : 0 < Slabs.last g.sizeZ n 0 0 := Slabs.base_lt_last_zero 0 g.sizeZ_pos
  obtain ⟨dst, visible⟩ := exists_visible top (sentBy g (Lattice.bgk omega) src)
  exact visible ((each dst).mp (always dst)).2

/-- Nothing returns from the TRT step: the destination is as it was. -/
theorem performStreamCollideTRT_matches_iff :
    (∀ dst, Matches g.InArray (Threads.performStreamCollideTRT g g.InArray omega n fresh src dst)
        (Original.performStreamCollideTRT g omega src dst) ↔
      n ≤ g.sizeZ + 1 ∧ ∀ p d, InGrid g p → InGrid g (p - shift g d) →
        populations g dst p d =
          sentBy g ((d3q19 K).trt omega (lambda0 omega)) src (p - shift g d) d) ∧
    ¬ ∀ dst, Matches g.InArray (Threads.performStreamCollideTRT g g.InArray omega n fresh src dst)
        (Original.performStreamCollideTRT g omega src dst) := by
  have each := trt_matches_iff g omega hn fresh src
  refine ⟨each, fun always => ?_⟩
  let rest := sentBy g ((d3q19 K).trt omega (lambda0 omega)) src 0 .C
  have stays : shift g .C = 0 := by simp [shift, neighbor, Config.cell]
  have here : InGrid g (0 - shift g .C) := by simpa [stays] using inGrid_zero
  have held := ((each fun _ => ⟨rest + 1, 0⟩).mp (always _)).2 0 .C inGrid_zero here
  simp [populations, stays, rest] at held

end Routines

section Single
open Config (single)

/-- A cell that is an obstacle at rest, and a destination that is full. -/
def obstacleAtRest : Grid ℚ := fun _ => ⟨0, 1⟩

def full : Grid ℚ := fun _ => ⟨7, 0⟩

def blank : ℤ → Grid ℚ × Grid ℚ := fun _ => (fun _ => ⟨0, 0⟩, fun _ => ⟨0, 0⟩)

theorem sentBy_obstacleAtRest (relax : (Dir → ℚ) → (Dir → ℚ) → Dir → ℚ) (p : ℤ) (d : Dir) :
    sentBy single relax obstacleAtRest p d = 0 := by
  have obstacle : testFlag 1 single.obstacle := by decide
  exact if_pos obstacle

theorem performStreamCollideBGK_differs :
    ¬ Matches single.InArray
      (Threads.performStreamCollideBGK single single.InArray 1 1 blank obstacleAtRest full)
      (Original.performStreamCollideBGK single 1 obstacleAtRest full) := by
  intro same
  have invisible := ((bgk_matches_iff single 1 le_rfl blank obstacleAtRest full).mp same).2
  have entered := invisible.inflow 0 .N (by decide) (by decide) (by decide)
  rw [sentBy_obstacleAtRest] at entered
  simp [populations, full] at entered

theorem performStreamCollideTRT_differs :
    ¬ Matches single.InArray
      (Threads.performStreamCollideTRT single single.InArray 1 1 blank obstacleAtRest full)
      (Original.performStreamCollideTRT single 1 obstacleAtRest full) := by
  intro same
  have held := ((trt_matches_iff single 1 le_rfl blank obstacleAtRest full).mp same).2 0 .C
    (by decide) (by decide)
  rw [sentBy_obstacleAtRest] at held
  simp [populations, full] at held

end Single

section Small
open Config (small)

/-- No two populations are the same. -/
def unevenGrid : Grid ℚ := fun i => ⟨i + 1, 0⟩

/-- Two threads, with two of the four planes for each. -/
theorem performStreamCollideBGK_matches_iff_small :
    (∀ dst, Matches small.InArray
        (Threads.performStreamCollideBGK small small.InArray (3 / 2) 2 blank unevenGrid dst)
        (Original.performStreamCollideBGK small (3 / 2) unevenGrid dst) ↔
      2 ≤ small.sizeZ + 1 ∧ StreamingInvisible small (Slabs.last small.sizeZ 2 0 0)
        (sentBy small (Lattice.bgk (3 / 2)) unevenGrid) dst) ∧
    ¬ ∀ dst, Matches small.InArray
        (Threads.performStreamCollideBGK small small.InArray (3 / 2) 2 blank unevenGrid dst)
        (Original.performStreamCollideBGK small (3 / 2) unevenGrid dst) :=
  performStreamCollideBGK_matches_iff small (3 / 2) (by decide) blank unevenGrid

theorem performStreamCollideTRT_matches_iff_small :
    (∀ dst, Matches small.InArray
        (Threads.performStreamCollideTRT small small.InArray (3 / 2) 2 blank unevenGrid dst)
        (Original.performStreamCollideTRT small (3 / 2) unevenGrid dst) ↔
      2 ≤ small.sizeZ + 1 ∧ ∀ p d, InGrid small p → InGrid small (p - shift small d) →
        populations small dst p d = sentBy small ((d3q19 ℚ).trt (3 / 2) (lambda0 (3 / 2))) unevenGrid
          (p - shift small d) d) ∧
    ¬ ∀ dst, Matches small.InArray
        (Threads.performStreamCollideTRT small small.InArray (3 / 2) 2 blank unevenGrid dst)
        (Original.performStreamCollideTRT small (3 / 2) unevenGrid dst) :=
  performStreamCollideTRT_matches_iff small (3 / 2) (by decide) blank unevenGrid

end Small

end MorelloWorkloads.Lbm
