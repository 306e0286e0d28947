import MorelloWorkloads.Lib.CountedLoop
import MorelloWorkloads.Lib.FlatMemory
import Mathlib.Data.BitVec
import Mathlib.Data.Finset.Insert
import Mathlib.Data.Fintype.Defs
import Mathlib.Tactic.LinearCombination

/-! The grid of `lbm_1d_array.h`: cells of `nCellEntries` words in one flat
array, allocated with two margin planes below the array and two above it. -/
namespace MorelloWorkloads.Lbm
open CountedLoop FlatMemory

/-- The populations of a cell, named as in `lbm.h`. -/
inductive Dir
  | C | N | S | E | W | T | B
  | NE | NW | SE | SW | NT | NB | ST | SB | ET | EB | WT | WB
  deriving DecidableEq

instance : Fintype Dir where
  elems := {.C, .N, .S, .E, .W, .T, .B, .NE, .NW, .SE, .SW, .NT, .NB, .ST, .SB, .ET, .EB, .WT, .WB}
  complete d := by cases d <;> decide

/-- What `lbm.h` fixes: the grid's sizes, the place of each entry in a cell and
the flag bits. -/
structure Config where
  sizeX : ℤ
  sizeY : ℤ
  sizeZ : ℤ
  nCellEntries : ℤ
  offset : Dir → ℤ
  flags : ℤ
  obstacle : BitVec 32
  accel : BitVec 32
  inOutFlow : BitVec 32
  sizeX_pos : 0 < sizeX
  sizeY_pos : 0 < sizeY
  sizeZ_pos : 0 < sizeZ
  offset_range : ∀ d, 0 ≤ offset d ∧ offset d < nCellEntries
  flags_range : 0 ≤ flags ∧ flags < nCellEntries
  offset_inj : ∀ d d', offset d = offset d' → d = d'
  flags_ne : ∀ d, offset d ≠ flags

/-- A word of the grid, read as a `double` or, in the `FLAGS` entry of a cell,
as an `unsigned int`. -/
structure Word (K : Type*) where
  val : K
  bits : BitVec 32
  deriving DecidableEq

abbrev Grid (K : Type*) := ℤ → Word K

/-- The step of the `NEIGHBOR_*` macros. -/
def neighbor : Dir → ℤ × ℤ × ℤ
  | .C => (0, 0, 0)
  | .N => (0, 1, 0)
  | .S => (0, -1, 0)
  | .E => (1, 0, 0)
  | .W => (-1, 0, 0)
  | .T => (0, 0, 1)
  | .B => (0, 0, -1)
  | .NE => (1, 1, 0)
  | .NW => (-1, 1, 0)
  | .SE => (1, -1, 0)
  | .SW => (-1, -1, 0)
  | .NT => (0, 1, 1)
  | .NB => (0, 1, -1)
  | .ST => (0, -1, 1)
  | .SB => (0, -1, -1)
  | .ET => (1, 0, 1)
  | .EB => (1, 0, -1)
  | .WT => (-1, 0, 1)
  | .WB => (-1, 0, -1)

variable {K σ : Type*}

def testFlag (flags f : BitVec 32) : Bool := flags &&& f != 0

def Word.setVal (w : Word K) (v : K) : Word K := { w with val := v }

def storeVal (i : ℤ) (v : K) : Edit ℤ (Word K) := ⟨i, fun w => w.setVal v⟩

def setFlag (i : ℤ) (f : BitVec 32) : Edit ℤ (Word K) := ⟨i, fun w => { w with bits := w.bits ||| f }⟩

def clearAllFlags (i : ℤ) : Edit ℤ (Word K) := ⟨i, fun w => { w with bits := 0 }⟩

namespace Config
variable (g : Config)

def calcIndex (x y z e : ℤ) : ℤ := e + g.nCellEntries * (x + y * g.sizeX + z * g.sizeX * g.sizeY)

/-- The number of words of `LBM_Grid`. -/
def length : ℤ := g.sizeZ * g.sizeY * g.sizeX * g.nCellEntries

def margin : ℤ := 2 * g.sizeX * g.sizeY * g.nCellEntries

def InArray (i : ℤ) : Prop := 0 ≤ i ∧ i < g.length

/-- What `LBM_allocateGrid` reserves around the pointer that it returns. -/
def Allocated (i : ℤ) : Prop := -g.margin ≤ i ∧ i < g.length + g.margin

instance : DecidablePred g.InArray := fun _ => inferInstanceAs (Decidable (_ ∧ _))
instance : DecidablePred g.Allocated := fun _ => inferInstanceAs (Decidable (_ ∧ _))

/-- `SWEEP_START(0, 0, lo, 0, 0, hi) .. SWEEP_END` -/
def sweep (lo hi : ℤ) (s : σ) (body : σ → ℤ → Option σ) : Option σ :=
  loopM (g.calcIndex 0 0 lo 0) (g.calcIndex 0 0 hi 0) g.nCellEntries s body

/-- The loop nest over the planes `z` of `[lo, hi)`. -/
def planes (lo hi : ℤ) (s : σ) (body : σ → ℤ → ℤ → ℤ → Option σ) : Option σ :=
  loopM lo hi 1 s fun s z => loopM 0 g.sizeY 1 s fun s y => loopM 0 g.sizeX 1 s fun s x => body s x y z

/-! ## Cells and words by number -/

def cell (x y z : ℤ) : ℤ := x + y * g.sizeX + z * g.sizeX * g.sizeY

/-- Word `e` of cell `p`. -/
def word (p e : ℤ) : ℤ := e + g.nCellEntries * p

/-- How many cells a plane has. -/
def plane : ℤ := g.sizeX * g.sizeY

def cellX (p : ℤ) : ℤ := p % g.sizeX
def cellY (p : ℤ) : ℤ := p / g.sizeX % g.sizeY
def cellZ (p : ℤ) : ℤ := p / g.plane

theorem calcIndex_eq (x y z e : ℤ) : g.calcIndex x y z e = g.word (g.cell x y z) e := rfl

theorem nCellEntries_pos : 0 < g.nCellEntries := lt_of_le_of_lt g.flags_range.1 g.flags_range.2

theorem plane_pos : 0 < g.plane := mul_pos g.sizeX_pos g.sizeY_pos

theorem length_eq : g.length = g.nCellEntries * (g.sizeZ * g.plane) := by
  unfold length plane
  ring

theorem margin_eq : g.margin = g.nCellEntries * (2 * g.plane) := by
  unfold margin plane
  ring

variable {g}

theorem word_inj {p p' e e' : ℤ} (he : 0 ≤ e ∧ e < g.nCellEntries) (he' : 0 ≤ e' ∧ e' < g.nCellEntries)
    (h : g.word p e = g.word p' e') : p = p' ∧ e = e' := by
  have number {p e : ℤ} (he : 0 ≤ e ∧ e < g.nCellEntries) : g.word p e / g.nCellEntries = p := by
    unfold word
    rw [Int.add_mul_ediv_left _ _ g.nCellEntries_pos.ne', Int.ediv_eq_zero_of_lt he.1 he.2, zero_add]
  have hp : p = p' := by rw [← number (p := p) he, h, number he']
  subst hp
  exact ⟨rfl, add_right_cancel h⟩

/-- A word lies between two cell boundaries as its cell does. -/
theorem word_between {p e lo hi : ℤ} (he : 0 ≤ e ∧ e < g.nCellEntries) :
    (g.nCellEntries * lo ≤ g.word p e ∧ g.word p e < g.nCellEntries * hi) ↔ lo ≤ p ∧ p < hi := by
  have hN := g.nCellEntries_pos
  have below : g.nCellEntries * lo ≤ g.word p e ↔ lo ≤ p := by
    constructor
    · intro h
      by_contra hp
      have : g.nCellEntries * (p + 1) ≤ g.nCellEntries * lo :=
        mul_le_mul_of_nonneg_left (by omega) hN.le
      unfold word at h
      linarith
    · intro h
      have := mul_le_mul_of_nonneg_left h hN.le
      unfold word
      omega
  have above : g.word p e < g.nCellEntries * hi ↔ p < hi := by
    constructor
    · intro h
      by_contra hp
      have : g.nCellEntries * hi ≤ g.nCellEntries * p := mul_le_mul_of_nonneg_left (by omega) hN.le
      unfold word at h
      omega
    · intro h
      have : g.nCellEntries * (p + 1) ≤ g.nCellEntries * hi :=
        mul_le_mul_of_nonneg_left (by omega) hN.le
      unfold word
      linarith
  rw [below, above]

theorem inArray_word {p e : ℤ} (he : 0 ≤ e ∧ e < g.nCellEntries) :
    g.InArray (g.word p e) ↔ 0 ≤ p ∧ p < g.sizeZ * g.plane := by
  rw [← word_between he, InArray, length_eq, mul_zero]

theorem allocated_word {p e : ℤ} (he : 0 ≤ e ∧ e < g.nCellEntries) :
    g.Allocated (g.word p e) ↔ -2 * g.plane ≤ p ∧ p < (g.sizeZ + 2) * g.plane := by
  rw [← word_between he, Allocated, length_eq, margin_eq,
    show -(g.nCellEntries * (2 * g.plane)) = g.nCellEntries * (-2 * g.plane) by ring,
    show g.nCellEntries * (g.sizeZ * g.plane) + g.nCellEntries * (2 * g.plane) =
      g.nCellEntries * ((g.sizeZ + 2) * g.plane) by ring]

variable (g) in
/-- Every word is an entry of a cell. -/
theorem exists_word (i : ℤ) : ∃ p e, i = g.word p e ∧ 0 ≤ e ∧ e < g.nCellEntries :=
  ⟨i / g.nCellEntries, i % g.nCellEntries, (Int.emod_add_mul_ediv i g.nCellEntries).symm,
    Int.emod_nonneg i g.nCellEntries_pos.ne', Int.emod_lt_of_pos i g.nCellEntries_pos⟩

theorem cell_coords {x y z : ℤ} (hx : 0 ≤ x ∧ x < g.sizeX) (hy : 0 ≤ y ∧ y < g.sizeY) :
    g.cellX (g.cell x y z) = x ∧ g.cellY (g.cell x y z) = y ∧ g.cellZ (g.cell x y z) = z := by
  have row : g.cell x y z = x + (y + z * g.sizeY) * g.sizeX := by
    unfold cell
    ring
  have hdiv : g.cell x y z / g.sizeX = y + z * g.sizeY := by
    rw [row, Int.add_mul_ediv_right _ _ g.sizeX_pos.ne', Int.ediv_eq_zero_of_lt hx.1 hx.2, zero_add]
  refine ⟨?_, ?_, ?_⟩
  · rw [cellX, row, Int.add_mul_emod_self_right, Int.emod_eq_of_lt hx.1 hx.2]
  · rw [cellY, hdiv, Int.add_mul_emod_self_right, Int.emod_eq_of_lt hy.1 hy.2]
  · rw [cellZ, plane, ← Int.ediv_ediv_of_nonneg g.sizeX_pos.le, hdiv,
      Int.add_mul_ediv_right _ _ g.sizeY_pos.ne', Int.ediv_eq_zero_of_lt hy.1 hy.2, zero_add]

/-- Cells of the planes `[lo, hi)`. -/
theorem plane_between {p lo hi : ℤ} :
    (lo * g.plane ≤ p ∧ p < hi * g.plane) ↔ lo ≤ g.cellZ p ∧ g.cellZ p < hi := by
  rw [Config.cellZ, Int.le_ediv_iff_mul_le g.plane_pos, Int.ediv_lt_iff_lt_mul g.plane_pos]

theorem cellZ_mul_plane (z : ℤ) : g.cellZ (z * g.plane) = z := Int.mul_ediv_cancel z g.plane_pos.ne'

/-- A sweep over planes visits the first cell of each. -/
theorem corner_mem {z lo hi : ℤ} (hlo : lo ≤ z) (hhi : z < hi) :
    z * g.plane ∈ trips (lo * g.plane) (hi * g.plane) 1 := by
  rw [mem_trips_one, plane_between, cellZ_mul_plane]
  exact ⟨hlo, hhi⟩

theorem cell_of_coords (p : ℤ) : g.cell (g.cellX p) (g.cellY p) (g.cellZ p) = p := by
  have hx := Int.emod_add_mul_ediv p g.sizeX
  have hy := Int.emod_add_mul_ediv (p / g.sizeX) g.sizeY
  have hz : g.cellZ p = p / g.sizeX / g.sizeY := by
    rw [cellZ, plane, Int.ediv_ediv_of_nonneg g.sizeX_pos.le]
  unfold cell
  rw [hz, cellX, cellY]
  linear_combination hx + g.sizeX * hy

/-- A sweep over planes stays in the array when the planes do. -/
theorem planes_inside_iff (lo hi : ℤ) :
    (∀ p ∈ trips (lo * g.plane) (hi * g.plane) 1, 0 ≤ p ∧ p < g.sizeZ * g.plane) ↔
      (lo < hi → 0 ≤ lo ∧ hi ≤ g.sizeZ) := by
  have inGrid (p : ℤ) : (0 ≤ p ∧ p < g.sizeZ * g.plane) ↔ 0 ≤ g.cellZ p ∧ g.cellZ p < g.sizeZ := by
    rw [← plane_between, zero_mul]
  simp only [mem_trips_one, inGrid, plane_between]
  constructor
  · intro h hlt
    have hlo := h (lo * g.plane) (by rw [cellZ_mul_plane]; omega)
    have hhi := h ((hi - 1) * g.plane) (by rw [cellZ_mul_plane]; omega)
    rw [cellZ_mul_plane] at hlo hhi
    omega
  · intro h p hp
    have := h (by omega)
    omega

/-! ## Both ways to go through the planes visit the cells in order -/

theorem sweep_eq (lo hi : ℤ) (s : σ) (body : σ → ℤ → Option σ) :
    g.sweep lo hi s body =
      loopM (lo * g.plane) (hi * g.plane) 1 s fun s p => body s (g.nCellEntries * p) := by
  have bound (z : ℤ) : g.calcIndex 0 0 z 0 = g.nCellEntries * (z * g.plane) := by
    unfold calcIndex plane
    ring
  rw [sweep, loopM, bound, bound, trips_stride g.nCellEntries_pos, List.foldlM_map, loopM]

theorem planes_eq (lo hi : ℤ) (s : σ) (body : σ → ℤ → ℤ → ℤ → Option σ) :
    g.planes lo hi s body = loopM (lo * g.plane) (hi * g.plane) 1 s
      fun s p => body s (g.cellX p) (g.cellY p) (g.cellZ p) := by
  have rows (s : σ) (f : σ → ℤ → Option σ) : loopM 0 g.plane 1 s f =
      loopM 0 g.sizeY 1 s fun s y => loopM 0 g.sizeX 1 s fun s x => f s (x + y * g.sizeX) := by
    rw [← loopM_rowMajor g.sizeX_pos.le, zero_mul, plane, mul_comm]
  rw [loopM_rowMajor g.plane_pos.le, planes]
  simp only [rows]
  refine loopM_congr (fun s z _ => loopM_congr (fun s y hy => loopM_congr (fun s x hx => ?_) s) s) s
  have flat : x + y * g.sizeX + z * g.plane = g.cell x y z := by
    unfold cell plane
    ring
  obtain ⟨hX, hY, hZ⟩ := cell_coords (z := z) (mem_trips_one.mp hx) (mem_trips_one.mp hy)
  rw [flat, hX, hY, hZ]

/-- One cell, its entries in the order in which `Dir` names them. -/
def single : Config where
  sizeX := 1
  sizeY := 1
  sizeZ := 1
  nCellEntries := 20
  offset d := d.ctorIdx
  flags := 19
  obstacle := 1
  accel := 2
  inOutFlow := 4
  sizeX_pos := one_pos
  sizeY_pos := one_pos
  sizeZ_pos := one_pos
  offset_range d := by cases d <;> decide
  flags_range := by decide
  offset_inj := by decide
  flags_ne d := by cases d <;> decide

/-- Three by three cells in four planes. -/
def small : Config :=
  { single with
    sizeX := 3
    sizeY := 3
    sizeZ := 4
    sizeX_pos := by decide
    sizeY_pos := by decide
    sizeZ_pos := by decide }

end Config
end MorelloWorkloads.Lbm
