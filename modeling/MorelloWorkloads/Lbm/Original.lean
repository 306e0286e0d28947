import MorelloWorkloads.Lbm.Kernels

/-! The sequential program: each routine goes once through the caller's grid,
which it may access as far as `LBM_allocateGrid` has reserved it. -/
namespace MorelloWorkloads.Lbm
open FlatMemory Dir

section Cells
variable {K : Type*} [Field K] (ok : ℤ → Prop) [DecidablePred ok]

/-- Reads the populations of a cell, which lie where `index` says. -/
def readCell (src : Grid K) (index : Dir → ℤ) : Option (Dir → K) :=
  if ∀ d, ok (index d) then some fun d => (src (index d)).val else none

/-- The body of the sweeps of a step: `from` a cell of one grid `to` the places
of the other that `dstIndex` names. -/
def streamCollideCell (g : Config) (collide : (Dir → K) → Moments K → List (Dir × K))
    (srcGrid : Grid K) (flagsIndex : ℤ) (srcIndex dstIndex : Dir → ℤ) (dstGrid : Grid K) :
    Option (Grid K) := do
  let flags ← load ok srcGrid flagsIndex
  let src ← readCell ok srcGrid srcIndex
  runAllIn ok dstGrid ((cellStores g collide src flags.bits).map fun (d, v) => storeVal (dstIndex d) v)

/-- The stores of `LBM_initializeGrid` to a cell whose words lie where `index` says. -/
def initialCell (g : Config) (index : ℤ → ℤ) : List (Edit ℤ (Word K)) :=
  ([(C, dfl1), (N, dfl2), (S, dfl2), (E, dfl2), (W, dfl2), (T, dfl2), (B, dfl2), (NE, dfl3),
    (NW, dfl3), (SE, dfl3), (SW, dfl3), (NT, dfl3), (NB, dfl3), (ST, dfl3), (SB, dfl3), (ET, dfl3),
    (EB, dfl3), (WT, dfl3), (WB, dfl3)].map fun (d, v) => storeVal (index (g.offset d)) v) ++
    [clearAllFlags (index g.flags)]

/-- The flags of the lid-driven cavity: obstacle walls and, below the lids, the
accelerated layer. -/
def ldcCell (g : Config) (x y z : ℤ) : List (Edit ℤ (Word K)) :=
  if x = 0 ∨ x = g.sizeX - 1 ∨ y = 0 ∨ y = g.sizeY - 1 ∨ z = 0 ∨ z = g.sizeZ - 1 then
    [setFlag (g.calcIndex x y z g.flags) g.obstacle]
  else if (z = 1 ∨ z = g.sizeZ - 2) ∧ 1 < x ∧ x < g.sizeX - 2 ∧ 1 < y ∧ y < g.sizeY - 2 then
    [setFlag (g.calcIndex x y z g.flags) g.accel]
  else []

/-- The flags of the channel. The test for an obstacle stands inside the branch
that has just set it, and reads the word again. -/
def channelCell (g : Config) (x y z : ℤ) : List (Edit ℤ (Word K)) :=
  if x = 0 ∨ x = g.sizeX - 1 ∨ y = 0 ∨ y = g.sizeY - 1 then
    [setFlag (g.calcIndex x y z g.flags) g.obstacle,
      ⟨g.calcIndex x y z g.flags, fun w =>
        if (z = 0 ∨ z = g.sizeZ - 1) ∧ ¬ testFlag w.bits g.obstacle then
          { w with bits := w.bits ||| g.inOutFlow }
        else w⟩]
  else []

end Cells

namespace Original
variable {K : Type*} [Field K] (g : Config)

def initializeGrid (grid : Grid K) : Option (Grid K) :=
  g.sweep (-2) (g.sizeZ + 2) grid fun grid i =>
    runAllIn g.Allocated grid (initialCell g fun e => g.calcIndex 0 0 0 e + i)

def initializeSpecialCellsForLDC (grid : Grid K) : Option (Grid K) :=
  g.planes (-2) (g.sizeZ + 2) grid fun grid x y z => runAllIn g.Allocated grid (ldcCell g x y z)

def initializeSpecialCellsForChannel (grid : Grid K) : Option (Grid K) :=
  g.planes (-2) (g.sizeZ + 2) grid fun grid x y z => runAllIn g.Allocated grid (channelCell g x y z)

/-- `GRID_ENTRY_SWEEP`, with the step of the macros `NEIGHBOR_*`. -/
def neighborIndex (i : ℤ) (d : Dir) : ℤ :=
  g.calcIndex (neighbor d).1 (neighbor d).2.1 (neighbor d).2.2 (g.offset d) + i

/-- With `COLLIDE_STREAM`, a population is read in its own cell and stored in
the cell to which it streams. -/
def performStreamCollide (collide : (Dir → K) → Moments K → List (Dir × K))
    (srcGrid dstGrid : Grid K) : Option (Grid K) :=
  g.sweep 0 g.sizeZ dstGrid fun dstGrid i =>
    streamCollideCell g.Allocated g collide srcGrid (g.calcIndex 0 0 0 g.flags + i)
      (fun d => g.calcIndex 0 0 0 (g.offset d) + i) (neighborIndex g i) dstGrid

def performStreamCollideBGK (omega : K) (srcGrid dstGrid : Grid K) : Option (Grid K) :=
  performStreamCollide g (collideBGK omega) srcGrid dstGrid

def performStreamCollideTRT (omega : K) (srcGrid dstGrid : Grid K) : Option (Grid K) :=
  performStreamCollide g (collideTRT omega) srcGrid dstGrid

end Original
end MorelloWorkloads.Lbm
