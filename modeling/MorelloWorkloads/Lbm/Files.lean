import MorelloWorkloads.Lbm.Statistics
import MorelloWorkloads.Lib.Rounding

/-! The files of the solver: the map of the obstacles, and the velocity field, which one
machine stores and any machine compares with its own. -/
namespace MorelloWorkloads.Lbm
open CountedLoop FlatMemory LatticeBoltzmann Rounding Dir

section Obstacles
variable {K : Type*} (g : Config)

/-- `none` is `EOF`. -/
def fgetc : List Char → Option Char × List Char
  | [] => (none, [])
  | c :: file => (some c, file)

/-- Reads the character for a cell. -/
def loadCell (x y z : ℤ) (s : Grid K × List Char) : Option (Grid K × List Char) := do
  let r := fgetc s.2
  let grid ← (if r.1 ≠ some '.' then
      runAllIn g.Allocated s.1 [setFlag (g.calcIndex x y z g.flags) g.obstacle]
    else some s.1)
  return (grid, r.2)

/-- Reads a row and its last character. -/
def loadRow (y z : ℤ) (s : Grid K × List Char) : Option (Grid K × List Char) := do
  let s ← loopM 0 g.sizeX 1 s fun s x => loadCell g x y z s
  return (s.1, (fgetc s.2).2)

/-- Reads a plane and the character behind it. -/
def loadPlane (z : ℤ) (s : Grid K × List Char) : Option (Grid K × List Char) := do
  let s ← loopM 0 g.sizeY 1 s fun s y => loadRow g y z s
  return (s.1, (fgetc s.2).2)

def loadObstacleFile (grid : Grid K) (file : List Char) : Option (Grid K) := do
  let s ← loopM 0 g.sizeZ 1 (grid, file) fun s z => loadPlane g z s
  return s.1

/-- Where the file has the character for a cell. -/
def charOf (x y z : ℤ) : ℤ := z * (g.sizeY * (g.sizeX + 1) + 1) + y * (g.sizeX + 1) + x

/-- The edits for a cell, by the character that the file has for it. -/
def obstacleCell (file : List Char) (x y z : ℤ) : List (Edit ℤ (Word K)) :=
  if file[(charOf g x y z).toNat]? = some '.' then []
  else [setFlag (g.calcIndex x y z g.flags) g.obstacle]

variable {g}

theorem charOf_nonneg {x y z : ℤ} (hx : 0 ≤ x) (hy : 0 ≤ y) (hz : 0 ≤ z) : 0 ≤ charOf g x y z := by
  have width : 0 ≤ g.sizeX + 1 := by linarith [g.sizeX_pos]
  have rows : 0 ≤ g.sizeY * (g.sizeX + 1) + 1 := by linarith [mul_nonneg g.sizeY_pos.le width]
  unfold charOf
  linarith [mul_nonneg hy width, mul_nonneg hz rows]

theorem fgetc_drop (file : List Char) {k : ℤ} (nonneg : 0 ≤ k) :
    fgetc (file.drop k.toNat) = (file[k.toNat]?, file.drop (k + 1).toNat) := by
  have next : (k + 1).toNat = k.toNat + 1 := by omega
  rw [next, ← List.head?_drop, ← List.tail_drop]
  cases file.drop k.toNat with
  | nil => rfl
  | cons c rest => rfl

theorem loadCell_drop {x y z : ℤ} (hx : 0 ≤ x) (hy : 0 ≤ y) (hz : 0 ≤ z) (grid : Grid K) (file : List Char) :
    loadCell g x y z (grid, file.drop (charOf g x y z).toNat) =
      (runAllIn g.Allocated grid (obstacleCell g file x y z)).map fun grid =>
        (grid, file.drop (charOf g (x + 1) y z).toNat) := by
  have next : charOf g x y z + 1 = charOf g (x + 1) y z := by
    unfold charOf
    ring
  have char := fgetc_drop file (charOf_nonneg (g := g) hx hy hz)
  rw [next] at char
  simp only [loadCell, char, obstacleCell]
  by_cases free : file[(charOf g x y z).toNat]? = some '.'
  · rw [if_neg (not_not.mpr free), if_pos free]
    rfl
  · rw [if_pos free, if_neg free]
    cases runAllIn g.Allocated grid [setFlag (g.calcIndex x y z g.flags) g.obstacle] with
    | none => rfl
    | some grid => rfl

theorem loadRow_drop {y z : ℤ} (hy : 0 ≤ y) (hz : 0 ≤ z) (grid : Grid K) (file : List Char) :
    loadRow g y z (grid, file.drop (charOf g 0 y z).toNat) =
      (loopM 0 g.sizeX 1 grid fun grid x => runAllIn g.Allocated grid (obstacleCell g file x y z)).map
        fun grid => (grid, file.drop (charOf g 0 (y + 1) z).toNat) := by
  have cells : loopM 0 g.sizeX 1 (grid, file.drop (charOf g 0 y z).toNat)
      (fun s x => loadCell g x y z s) = (loopM 0 g.sizeX 1 grid fun grid x =>
        runAllIn g.Allocated grid (obstacleCell g file x y z)).map fun grid =>
          (grid, file.drop (charOf g g.sizeX y z).toNat) :=
    loopM_alongside g.sizeX_pos.le (fun x => file.drop (charOf g x y z).toNat)
      (fun grid x hx _ => loadCell_drop hx hy hz grid file) grid
  have next : charOf g g.sizeX y z + 1 = charOf g 0 (y + 1) z := by
    unfold charOf
    ring
  have last := fgetc_drop file (charOf_nonneg (g := g) g.sizeX_pos.le hy hz)
  rw [next] at last
  rw [loadRow, cells]
  cases loopM 0 g.sizeX 1 grid fun grid x => runAllIn g.Allocated grid (obstacleCell g file x y z) with
  | none => rfl
  | some grid => simp only [Option.map_some, Option.bind_eq_bind, Option.bind_some, last]; rfl

theorem loadPlane_drop {z : ℤ} (hz : 0 ≤ z) (grid : Grid K) (file : List Char) :
    loadPlane g z (grid, file.drop (charOf g 0 0 z).toNat) =
      (loopM 0 g.sizeY 1 grid fun grid y => loopM 0 g.sizeX 1 grid fun grid x =>
        runAllIn g.Allocated grid (obstacleCell g file x y z)).map
        fun grid => (grid, file.drop (charOf g 0 0 (z + 1)).toNat) := by
  have rows : loopM 0 g.sizeY 1 (grid, file.drop (charOf g 0 0 z).toNat)
      (fun s y => loadRow g y z s) = (loopM 0 g.sizeY 1 grid fun grid y =>
        loopM 0 g.sizeX 1 grid fun grid x =>
          runAllIn g.Allocated grid (obstacleCell g file x y z)).map fun grid =>
            (grid, file.drop (charOf g 0 g.sizeY z).toNat) :=
    loopM_alongside g.sizeY_pos.le (fun y => file.drop (charOf g 0 y z).toNat)
      (fun grid y hy _ => loadRow_drop hy hz grid file) grid
  have next : charOf g 0 g.sizeY z + 1 = charOf g 0 0 (z + 1) := by
    unfold charOf
    ring
  have last := fgetc_drop file (charOf_nonneg (g := g) le_rfl g.sizeY_pos.le hz)
  rw [next] at last
  rw [loadPlane, rows]
  cases loopM 0 g.sizeY 1 grid fun grid y => loopM 0 g.sizeX 1 grid fun grid x =>
      runAllIn g.Allocated grid (obstacleCell g file x y z) with
  | none => rfl
  | some grid => simp only [Option.map_some, Option.bind_eq_bind, Option.bind_some, last]; rfl

/-- The loops read the file in order, so that each cell has its own character. -/
theorem loadObstacleFile_eq (grid : Grid K) (file : List Char) : loadObstacleFile g grid file =
    g.planes 0 g.sizeZ grid fun grid x y z => runAllIn g.Allocated grid (obstacleCell g file x y z) := by
  have planes : loopM 0 g.sizeZ 1 (grid, file.drop (charOf g 0 0 0).toNat)
      (fun s z => loadPlane g z s) = (loopM 0 g.sizeZ 1 grid fun grid z =>
        loopM 0 g.sizeY 1 grid fun grid y => loopM 0 g.sizeX 1 grid fun grid x =>
          runAllIn g.Allocated grid (obstacleCell g file x y z)).map fun grid =>
            (grid, file.drop (charOf g 0 0 g.sizeZ).toNat) :=
    loopM_alongside g.sizeZ_pos.le (fun z => file.drop (charOf g 0 0 z).toNat)
      (fun grid z hz _ => loadPlane_drop hz grid file) grid
  have start : file.drop (charOf g 0 0 0).toNat = file := by simp [charOf]
  rw [start] at planes
  rw [loadObstacleFile, planes, Config.planes]
  cases loopM 0 g.sizeZ 1 grid fun grid z => loopM 0 g.sizeY 1 grid fun grid y =>
      loopM 0 g.sizeX 1 grid fun grid x => runAllIn g.Allocated grid (obstacleCell g file x y z) with
  | none => rfl
  | some grid => rfl

/-- After loading, a cell of the grid is an obstacle unless it had been none and the file
has a dot for it; so the cells that a short file leaves out become obstacles. Nothing else
changes. -/
theorem loadObstacleFile_sets (grid : Grid K) (file : List Char) : ∃ out,
    loadObstacleFile g grid file = some out ∧
    (∀ p, InGrid g p → out (g.word p g.flags) = if file[(charOf g (g.cellX p) (g.cellY p)
        (g.cellZ p)).toNat]? = some '.' then grid (g.word p g.flags)
      else { grid (g.word p g.flags) with bits := (grid (g.word p g.flags)).bits ||| g.obstacle }) ∧
    ∀ i, (∀ p, InGrid g p → i ≠ g.word p g.flags) → out i = grid i := by
  let cell (p : ℤ) : List (Edit ℤ (Word K)) := obstacleCell g file (g.cellX p) (g.cellY p) (g.cellZ p)
  have named {p : ℤ} {e : Edit ℤ (Word K)} (he : e ∈ cell p) : e.addr = g.word p g.flags := by
    simp only [cell, obstacleCell] at he
    split at he
    · exact absurd he List.not_mem_nil
    · rw [List.mem_singleton.mp he, setFlag, Config.calcIndex_eq, Config.cell_of_coords]
  have visited (p : ℤ) : p ∈ trips (0 * g.plane) (g.sizeZ * g.plane) 1 ↔ InGrid g p := by
    rw [mem_trips_one, zero_mul, InGrid]
  have run := foldlM_runAllIn g.Allocated (fun _ : ℤ => True) cell
    (trips (0 * g.plane) (g.sizeZ * g.plane) 1) grid
  simp only [if_true, true_and] at run
  rw [if_pos fun p hp e he => ?_] at run
  · refine ⟨_, (loadObstacleFile_eq grid file).trans ((Config.planes_eq ..).trans run), ?_, ?_⟩
    · intro p inside
      have owner : ∀ q ∈ trips (0 * g.plane) (g.sizeZ * g.plane) 1, q ≠ p → ∀ e ∈ cell q,
          e.addr ≠ g.word p g.flags := fun q _ other e he same =>
        other (Config.word_inj g.flags_range g.flags_range ((named he).symm.trans same)).1
      rw [runAll_flatMap_owner (trips_nodup one_pos) ((visited p).mpr inside) owner]
      simp only [cell, obstacleCell, Config.calcIndex_eq, Config.cell_of_coords]
      split
      · rfl
      · exact run_self grid (setFlag (g.word p g.flags) g.obstacle)
    · intro i other
      apply runAll_of_forall_ne
      intro e he same
      obtain ⟨p, hp, here⟩ := List.mem_flatMap.mp he
      exact other p ((visited p).mp hp) (same.symm.trans (named here))
  · have inside := (visited p).mp hp
    rw [named he, Config.allocated_word g.flags_range]
    have := g.plane_pos
    constructor
    · linarith [inside.1]
    · linarith [inside.2]

end Obstacles

/-! ## The velocity field -/

/-- The number format of `OUTPUT_PRECISION`: the bytes of a number that is converted to it,
from the least significant on, and the number that bytes stand for. -/
structure Format (K : Type*) [Zero K] [LE K] where
  size : ℕ
  bytes : K → List UInt8
  value : List UInt8 → K
  bytes_length : ∀ v, (bytes v).length = size
  round_round : ∀ v, value (bytes (value (bytes v))) = value (bytes v)
  round_zero : value (bytes 0) = 0
  round_mono : ∀ v w, v ≤ w → value (bytes v) ≤ value (bytes w)

namespace Format
variable {K : Type*} [Zero K] [LE K] (F : Format K) (bigEndian : Bool)

/-- A number that is converted to `OUTPUT_PRECISION`. -/
def round (v : K) : K := F.value (F.bytes v)

/-- The bytes of a variable, as the machine keeps them. -/
def inMemory (v : K) : List UInt8 := if bigEndian then (F.bytes v).reverse else F.bytes v

/-- The variable whose bytes these are on the machine. -/
def ofMemory (vPtr : List UInt8) : K := F.value (if bigEndian then vPtr.reverse else vPtr)

/-- `buffer[i] = vPtr[sizeof(OUTPUT_PRECISION) - i - 1]` -/
def swapped (vPtr : List UInt8) : List UInt8 :=
  (List.range F.size).map fun i => vPtr.getD (F.size - i - 1) 0

def storeValue (file : List UInt8) (v : K) : List UInt8 :=
  file ++ if bigEndian then F.swapped (F.inMemory bigEndian v) else F.inMemory bigEndian v

/-- With what is left of the file; `none` when that is too short. -/
def loadValue (file : List UInt8) : Option (K × List UInt8) :=
  if F.size ≤ file.length then
    let buffer := file.take F.size
    some (F.ofMemory bigEndian (if bigEndian then F.swapped buffer else buffer), file.drop F.size)
  else none

variable {F}

theorem swapped_eq {vPtr : List UInt8} (length : vPtr.length = F.size) : F.swapped vPtr = vPtr.reverse := by
  apply List.ext_getElem
  · simp [swapped, length]
  · intro i low high
    have inside : F.size - i - 1 < vPtr.length := by
      rw [List.length_reverse] at high
      omega
    have byte : vPtr.getD (F.size - i - 1) 0 = vPtr[F.size - i - 1] := (List.getElem_eq_getD 0).symm
    simp only [swapped, List.getElem_map, List.getElem_range, List.getElem_reverse, byte]
    congr 1
    omega

/-- The file has the bytes in the same order, whatever the machine. -/
theorem storeValue_eq (file : List UInt8) (v : K) : F.storeValue bigEndian file v = file ++ F.bytes v := by
  cases bigEndian with
  | false => rfl
  | true =>
    have length : (F.bytes v).reverse.length = F.size := by rw [List.length_reverse, F.bytes_length]
    simp [storeValue, inMemory, swapped_eq length]

theorem loadValue_bytes (v : K) (rest : List UInt8) :
    F.loadValue bigEndian (F.bytes v ++ rest) = some (F.round v, rest) := by
  have front : (F.bytes v ++ rest).take F.size = F.bytes v := by
    rw [← F.bytes_length v, List.take_left']
    rfl
  have back : (F.bytes v ++ rest).drop F.size = rest := by
    rw [← F.bytes_length v, List.drop_left']
    rfl
  have long : F.size ≤ (F.bytes v ++ rest).length := by simp [F.bytes_length]
  rw [loadValue, if_pos long, front, back]
  cases bigEndian with
  | false => simp [ofMemory, round]
  | true => simp [ofMemory, swapped_eq (F.bytes_length v), round]

end Format

section Velocity
variable {K : Type} [Field K] [LinearOrder K] (g : Config) (F : Format K) (double : K → K) (bigEndian : Bool)

/-- A sum from the left, each partial sum being rounded to its type. -/
def sumOf (round : K → K) : List K → K
  | [] => 0
  | v :: vs => vs.foldl (fun s v => round (s + v)) v

/-- `rho`, in a variable that rounds what it is given. -/
def rhoOf (round : K → K) (src : Dir → K) : K :=
  round (sumOf double [src C, src N, src S, src E, src W, src T, src B, src NE, src NW, src SE, src SW,
    src NT, src NB, src ST, src SB, src ET, src EB, src WT, src WB])

/-- The sums for `ux`, `uy` and `uz`. -/
def sumsOf (src : Dir → K) : Fin 3 → K :=
  ![sumOf double [src E, -src W, src NE, -src NW, src SE, -src SW, src ET, src EB, -src WT, -src WB],
    sumOf double [src N, -src S, src NE, src NW, -src SE, -src SW, src NT, src NB, -src ST, -src SB],
    sumOf double [src T, -src B, src NT, -src NB, src ST, -src SB, src ET, -src EB, src WT, -src WB]]

/-- `ux`, `uy` and `uz` after their division, in variables of the same type as `rho`. -/
def quotientsOf (round : K → K) (src : Dir → K) : Fin 3 → K :=
  fun a => round (round (sumsOf double src a) / rhoOf double round src)

/-- A cell without mass has no velocity. -/
def velocityOf (round : K → K) (src : Dir → K) : Option (Fin 3 → K) :=
  if rhoOf double round src = 0 then none else some (quotientsOf double round src)

/-- The file that `LBM_storeVelocityField` writes when `binary` is set. -/
def storeVelocityField (grid : Grid K) : Option (List UInt8) :=
  g.planes 0 g.sizeZ [] fun file x y z => do
    let src ← readCell g.Allocated grid fun d => g.calcIndex x y z (g.offset d)
    let u ← velocityOf double F.round src
    return (List.ofFn u).foldl (F.storeValue bigEndian) file

/-- `diff2`, for a velocity in `double`s and one of the file. -/
def diff2Of (u fileU : Fin 3 → K) : K :=
  let dU (a : Fin 3) := F.round (double (u a - fileU a))
  sumOf F.round (List.ofFn fun a => F.round (dU a * dU a))

/-- `if( diff2 > maxDiff2 ) maxDiff2 = diff2;` -/
def larger (maxDiff2 diff2 : K) : K := if diff2 > maxDiff2 then diff2 else maxDiff2

/-- Compares a cell, given `maxDiff2` and what is left of the file. -/
def compareCell (grid : Grid K) (s : K × List UInt8) (x y z : ℤ) : Option (K × List UInt8) := do
  let src ← readCell g.Allocated grid fun d => g.calcIndex x y z (g.offset d)
  let u ← velocityOf double double src
  let fileUx ← F.loadValue bigEndian s.2
  let fileUy ← F.loadValue bigEndian fileUx.2
  let fileUz ← F.loadValue bigEndian fileUy.2
  return (larger s.1 (diff2Of F double u ![fileUx.1, fileUy.1, fileUz.1]), fileUz.2)

/-- The `maxDiff2` of `LBM_compareVelocityField` for such a file. -/
def compareVelocityField (grid : Grid K) (file : List UInt8) : Option K := do
  let s ← g.planes 0 g.sizeZ (F.round (-1e30), file) (compareCell g F double bigEndian grid)
  return s.1

/-- The velocity of a cell, in variables that round what they are given. -/
def velocityAt (round : K → K) (grid : Grid K) (p : ℤ) : Fin 3 → K :=
  quotientsOf double round (populations g grid p)

/-- How far the velocities of a cell are apart, the one of `other` having been stored. -/
def difference2 (grid other : Grid K) (p : ℤ) : K :=
  diff2Of F double (velocityAt g double double grid p) (velocityAt g double F.round other p)

/-- No cell of the grid has a mass that is rounded to zero. -/
def Massive (round : K → K) (grid : Grid K) : Prop :=
  ∀ p, InGrid g p → rhoOf double round (populations g grid p) ≠ 0

variable {g F double bigEndian}

theorem velocityOf_eq {round : K → K} {grid : Grid K} {p : ℤ}
    (massive : rhoOf double round (populations g grid p) ≠ 0) :
    velocityOf double round (populations g grid p) = some (velocityAt g double round grid p) :=
  if_neg massive

omit [Field K] [LinearOrder K] in
theorem readCell_inGrid (grid : Grid K) {p : ℤ} (inside : InGrid g p) :
    readCell g.Allocated grid (fun d => g.calcIndex (g.cellX p) (g.cellY p) (g.cellZ p) (g.offset d)) =
      some (populations g grid p) := by
  have plane := g.plane_pos
  simp only [Config.calcIndex_eq, Config.cell_of_coords]
  refine if_pos fun d => ?_
  rw [Config.allocated_word (g.offset_range d)]
  constructor
  · linarith [inside.1]
  · linarith [inside.2]

/-- What the file has for a cell. -/
def cellBytes (g : Config) (F : Format K) (double : K → K) (grid : Grid K) (p : ℤ) : List UInt8 :=
  (List.ofFn (velocityAt g double F.round grid p)).flatMap F.bytes

/-- What it has for the cells from `p` on. -/
def bytesFrom (g : Config) (F : Format K) (double : K → K) (grid : Grid K) (p : ℤ) : List UInt8 :=
  (trips p (g.sizeZ * g.plane) 1).flatMap (cellBytes g F double grid)

theorem storeVelocityField_eq {grid : Grid K} (massive : Massive g double F.round grid) :
    storeVelocityField g F double bigEndian grid = some (bytesFrom g F double grid 0) := by
  have size : 0 ≤ g.sizeZ * g.plane := mul_nonneg g.sizeZ_pos.le g.plane_pos.le
  have written : ∃ file, storeVelocityField g F double bigEndian grid = some file ∧
      file = bytesFrom g F double grid 0 := by
    rw [storeVelocityField, Config.planes_eq, zero_mul]
    refine loopM_upto size (fun p file => file = (trips 0 p 1).flatMap (cellBytes g F double grid))
      (fun p file low high before => ?_) rfl
    have cell := readCell_inGrid grid (g := g) ⟨low, high⟩
    have velocity := velocityOf_eq (massive p ⟨low, high⟩)
    have last : trips 0 (p + 1) 1 = trips 0 p 1 ++ [p] := by
      have one : trips p (p + 1) 1 = [p] := by
        rw [trips_cons one_pos (lt_add_one p), trips_nil one_pos le_rfl]
      rw [← trips_append low (lt_add_one p).le, one]
    refine ⟨file ++ cellBytes g F double grid p, ?_, ?_⟩
    · simp only [cell, velocity, Option.bind_eq_bind, Option.bind_some, cellBytes, List.ofFn_succ,
        List.ofFn_zero, List.foldl_cons, List.foldl_nil, List.flatMap_cons, List.flatMap_nil,
        Format.storeValue_eq, List.append_assoc, List.append_nil]
      rfl
    · rw [last, List.flatMap_append, List.flatMap_singleton, before]
  obtain ⟨file, run, rfl⟩ := written
  exact run

variable (F double bigEndian) in
/-- The values of a cell are loaded as they have been stored, on any machine. -/
theorem loadValues (grid : Grid K) {p : ℤ} (inside : p < g.sizeZ * g.plane) : ∃ second third,
    F.loadValue bigEndian (bytesFrom g F double grid p) =
      some (velocityAt g double F.round grid p 0, second) ∧
    F.loadValue bigEndian second = some (velocityAt g double F.round grid p 1, third) ∧
    F.loadValue bigEndian third =
      some (velocityAt g double F.round grid p 2, bytesFrom g F double grid (p + 1)) := by
  have loaded (a : Fin 3) (rest : List UInt8) :
      F.loadValue bigEndian (F.bytes (velocityAt g double F.round grid p a) ++ rest) =
        some (velocityAt g double F.round grid p a, rest) := by
    have again : F.round (velocityAt g double F.round grid p a) = velocityAt g double F.round grid p a :=
      F.round_round _
    rw [Format.loadValue_bytes, again]
  simp only [bytesFrom, trips_cons one_pos inside, List.flatMap_cons, cellBytes, List.ofFn_succ,
    List.ofFn_zero, List.flatMap_nil, List.append_assoc, List.nil_append]
  exact ⟨_, _, loaded 0 _, loaded 1 _, loaded 2 _⟩

theorem compareCell_eq {grid other : Grid K} {p : ℤ} (inside : InGrid g p)
    (massive : rhoOf double double (populations g grid p) ≠ 0) (maxDiff2 : K) :
    compareCell g F double bigEndian grid (maxDiff2, bytesFrom g F double other p) (g.cellX p) (g.cellY p)
        (g.cellZ p) =
      some (larger maxDiff2 (difference2 g F double grid other p), bytesFrom g F double other (p + 1)) := by
  obtain ⟨second, third, x, y, z⟩ := loadValues F double bigEndian other inside.2
  have velocity : velocityOf double double (populations g grid p) =
      some (velocityAt g double double grid p) := velocityOf_eq massive
  have loaded : ![velocityAt g double F.round other p 0, velocityAt g double F.round other p 1,
      velocityAt g double F.round other p 2] = velocityAt g double F.round other p := by
    funext a
    fin_cases a <;> rfl
  simp only [compareCell, readCell_inGrid grid inside, velocity, x, y, z, Option.bind_eq_bind,
    Option.bind_some, loaded, difference2]
  rfl

/-- On the file of another grid, the comparison keeps the largest difference. -/
theorem compareVelocityField_eq {grid other : Grid K} (massive : Massive g double double grid) :
    compareVelocityField g F double bigEndian grid (bytesFrom g F double other 0) =
      loopM 0 (g.sizeZ * g.plane) 1 (F.round (-1e30)) fun maxDiff2 p =>
        some (larger maxDiff2 (difference2 g F double grid other p)) := by
  have size : 0 ≤ g.sizeZ * g.plane := mul_nonneg g.sizeZ_pos.le g.plane_pos.le
  have passes : loopM 0 (g.sizeZ * g.plane) 1 (F.round (-1e30), bytesFrom g F double other 0)
      (fun s p => compareCell g F double bigEndian grid s (g.cellX p) (g.cellY p) (g.cellZ p)) =
        (loopM 0 (g.sizeZ * g.plane) 1 (F.round (-1e30)) fun maxDiff2 p =>
          some (larger maxDiff2 (difference2 g F double grid other p))).map
          fun maxDiff2 => (maxDiff2, bytesFrom g F double other (g.sizeZ * g.plane)) :=
    loopM_alongside size (bytesFrom g F double other)
      (fun maxDiff2 p low high => compareCell_eq ⟨low, high⟩ (massive p ⟨low, high⟩) maxDiff2) _
  rw [compareVelocityField, Config.planes_eq, zero_mul, passes]
  cases loopM 0 (g.sizeZ * g.plane) 1 (F.round (-1e30)) fun maxDiff2 p =>
      some (larger maxDiff2 (difference2 g F double grid other p)) with
  | none => rfl
  | some maxDiff2 => rfl

omit [Field K] in
theorem le_larger_left (maxDiff2 diff2 : K) : maxDiff2 ≤ larger maxDiff2 diff2 := by
  unfold larger
  split
  · exact le_of_lt ‹_›
  · exact le_rfl

omit [Field K] in
theorem le_larger_right (maxDiff2 diff2 : K) : diff2 ≤ larger maxDiff2 diff2 := by
  unfold larger
  split
  · exact le_rfl
  · exact not_lt.mp ‹_›

theorem Format.round_nonneg {v : K} (nonneg : 0 ≤ v) : 0 ≤ F.round v :=
  F.round_zero.symm.trans_le (F.round_mono _ _ nonneg)

theorem difference2_nonneg [IsStrictOrderedRing K] (grid other : Grid K) (p : ℤ) :
    0 ≤ difference2 g F double grid other p := by
  have square (v : K) : 0 ≤ F.round (v * v) := F.round_nonneg (mul_self_nonneg v)
  exact F.round_nonneg (add_nonneg (F.round_nonneg (add_nonneg (square _) (square _))) (square _))

theorem difference2_self (zero : double 0 = 0) {grid other : Grid K} {p : ℤ}
    (same : velocityAt g double double grid p = velocityAt g double F.round other p) :
    difference2 g F double grid other p = 0 := by
  have none_left : F.round 0 = 0 := F.round_zero
  simp [difference2, diff2Of, sumOf, same, zero, none_left]

variable (F) in
/-- Comparing with a file that was stored on this machine or one of the other byte order
finds the largest difference of the velocities. It is zero when the format holds the
velocities of both grids and they are the same. -/
theorem compareVelocityField_stored [IsStrictOrderedRing K] (zero : double 0 = 0) {grid other : Grid K}
    (massive : Massive g double double grid) (stored : Massive g double F.round other) (theirs ours : Bool) :
    ∃ file maxDiff2, storeVelocityField g F double theirs other = some file ∧
      compareVelocityField g F double ours grid file = some maxDiff2 ∧
      (∀ p, InGrid g p → difference2 g F double grid other p ≤ maxDiff2) ∧
      (∃ p, InGrid g p ∧ difference2 g F double grid other p = maxDiff2) ∧
      ((∀ p, InGrid g p → velocityAt g double double grid p = velocityAt g double F.round other p) →
        maxDiff2 = 0) := by
  have size : 0 ≤ g.sizeZ * g.plane := mul_nonneg g.sizeZ_pos.le g.plane_pos.le
  obtain ⟨maxDiff2, run, high, met⟩ : ∃ maxDiff2,
      compareVelocityField g F double ours grid (bytesFrom g F double other 0) = some maxDiff2 ∧
      (∀ p, 0 ≤ p → p < g.sizeZ * g.plane → difference2 g F double grid other p ≤ maxDiff2) ∧
      (maxDiff2 = F.round (-1e30) ∨ ∃ p, InGrid g p ∧ difference2 g F double grid other p = maxDiff2) := by
    rw [compareVelocityField_eq massive]
    refine loopM_upto size
      (fun n maxDiff2 => (∀ p, 0 ≤ p → p < n → difference2 g F double grid other p ≤ maxDiff2) ∧
        (maxDiff2 = F.round (-1e30) ∨ ∃ p, InGrid g p ∧ difference2 g F double grid other p = maxDiff2))
      (fun p maxDiff2 low inside ⟨bound, met⟩ => ⟨_, rfl, ?_, ?_⟩)
      ⟨fun p low below => absurd low (not_le.mpr below), Or.inl rfl⟩
    · intro q hq upto
      by_cases same : q = p
      · rw [same]
        exact le_larger_right _ _
      · exact (bound q hq (by omega)).trans (le_larger_left _ _)
    · unfold larger
      split
      · exact Or.inr ⟨p, ⟨low, inside⟩, rfl⟩
      · exact met
  have first : InGrid g 0 := inGrid_zero
  have taken : ∃ p, InGrid g p ∧ difference2 g F double grid other p = maxDiff2 := by
    cases met with
    | inl start =>
      -- a format that ends at zero may start there
      have below : F.round (-1e30) ≤ 0 :=
        (F.round_mono _ _ (show (-1e30 : K) ≤ 0 by norm_num)).trans_eq F.round_zero
      have zero : maxDiff2 ≤ difference2 g F double grid other 0 :=
        start ▸ below.trans (difference2_nonneg grid other 0)
      exact ⟨0, first, le_antisymm (high 0 first.1 first.2) zero⟩
    | inr cell => exact cell
  refine ⟨_, maxDiff2, storeVelocityField_eq stored, run, fun p inside => high p inside.1 inside.2,
    taken, fun same => ?_⟩
  obtain ⟨p, inside, met⟩ := taken
  rw [← met, difference2_self zero (same p inside)]

end Velocity

/-! ## Numbers of two bytes -/

/-- The number of units in the last place, 256 of which make one. -/
def unitsOf (v : ℚ) : ℤ := max (-32768) (min 32767 (nearestEven (256 * v)))

def fixedBytes (v : ℚ) : List UInt8 :=
  [UInt8.ofNat (unitsOf v % 256).toNat, UInt8.ofNat (unitsOf v / 256 % 256).toNat]

/-- Two's complement. -/
def ofFixed (vPtr : List UInt8) : ℚ :=
  let units : ℤ := (vPtr.getD 0 0).toNat + 256 * (vPtr.getD 1 0).toNat
  (if units < 32768 then units else units - 65536 : ℤ) / 256

theorem ofFixed_fixedBytes (v : ℚ) : ofFixed (fixedBytes v) = (unitsOf v : ℤ) / 256 := by
  have range : -32768 ≤ unitsOf v ∧ unitsOf v ≤ 32767 := by
    unfold unitsOf
    omega
  have low : (UInt8.ofNat (unitsOf v % 256).toNat).toNat = (unitsOf v % 256).toNat := by
    rw [UInt8.toNat_ofNat', Nat.mod_eq_of_lt (by omega)]
  have high : (UInt8.ofNat (unitsOf v / 256 % 256).toNat).toNat = (unitsOf v / 256 % 256).toNat := by
    rw [UInt8.toNat_ofNat', Nat.mod_eq_of_lt (by omega)]
  have units : (if ((unitsOf v % 256).toNat : ℤ) + 256 * (unitsOf v / 256 % 256).toNat < 32768
      then ((unitsOf v % 256).toNat : ℤ) + 256 * (unitsOf v / 256 % 256).toNat
      else ((unitsOf v % 256).toNat : ℤ) + 256 * (unitsOf v / 256 % 256).toNat - 65536) = unitsOf v := by
    split <;> omega
  simp only [ofFixed, fixedBytes, List.getD_cons_zero, List.getD_cons_succ, low, high, units]

theorem unitsOf_int {k : ℤ} (low : -32768 ≤ k) (high : k ≤ 32767) : unitsOf (k / 256) = k := by
  have scaled : (256 : ℚ) * (k / 256) = k := by ring
  rw [unitsOf, scaled, nearestEven_intCast]
  omega

theorem fixedBytes_length (v : ℚ) : (fixedBytes v).length = 2 := rfl

theorem ofFixed_twice (v : ℚ) : ofFixed (fixedBytes (ofFixed (fixedBytes v))) = ofFixed (fixedBytes v) := by
  have low : -32768 ≤ unitsOf v := le_max_left _ _
  have high : unitsOf v ≤ 32767 := max_le (by norm_num) (min_le_left _ _)
  rw [ofFixed_fixedBytes, ofFixed_fixedBytes, unitsOf_int low high]

theorem ofFixed_zero : ofFixed (fixedBytes 0) = 0 := by
  rw [ofFixed_fixedBytes]
  simp [unitsOf, nearestEven]

theorem ofFixed_mono (v w : ℚ) (le : v ≤ w) : ofFixed (fixedBytes v) ≤ ofFixed (fixedBytes w) := by
  have scaled : nearestEven (256 * v) ≤ nearestEven (256 * w) := nearestEven_mono (by linarith)
  have units : unitsOf v ≤ unitsOf w := max_le_max_left _ (min_le_min_left _ scaled)
  rw [ofFixed_fixedBytes, ofFixed_fixedBytes]
  exact div_le_div_of_nonneg_right (by exact_mod_cast units) (by norm_num)

/-- 256 units to one, and as many as fit two bytes. -/
def fixedFormat : Format ℚ where
  size := 2
  bytes := fixedBytes
  value := ofFixed
  bytes_length := fixedBytes_length
  round_round := ofFixed_twice
  round_zero := ofFixed_zero
  round_mono := ofFixed_mono

theorem fixedFormat_round {v : ℚ} {k : ℤ} (low : -32768 ≤ k) (high : k ≤ 32767)
    (near : |256 * v - k| < 1 / 2) : fixedFormat.round v = k / 256 := by
  have units : unitsOf v = k := by
    rw [unitsOf, nearestEven_eq near]
    omega
  exact (ofFixed_fixedBytes v).trans (by rw [units])

/-- A flow in every direction: in each cell 32 units of mass, and 2, 1 and -4 of momentum. -/
def streamGrid : Grid ℚ := fun i =>
  ⟨if i % 20 = 0 then 7 else if i % 20 = 1 then 2 else if i % 20 = 3 then 3
    else if i % 20 = 6 then 5 else 1, 0⟩

def flow : Dir → ℚ
  | C => 7
  | N => 2
  | E => 3
  | B => 5
  | _ => 1

theorem streamGrid_populations (p : ℤ) : populations Config.small streamGrid p = flow := by
  have entry (e : ℤ) : Config.small.word p e % 20 = e % 20 := by
    simp [Config.word, Config.small, Config.single]
  funext d
  simp only [populations, streamGrid, entry]
  cases d <;> rfl

theorem flow_velocity (p : ℤ) :
    rhoOf id fixedFormat.round (populations Config.small streamGrid p) = 32 ∧
    velocityAt Config.small id fixedFormat.round streamGrid p = ![1 / 16, 1 / 32, -1 / 8] := by
  have mass : fixedFormat.round 32 = 32 := by
    rw [fixedFormat_round (k := 8192)] <;> norm_num
  have rho : rhoOf id fixedFormat.round flow = 32 := by
    have sum : rhoOf id fixedFormat.round flow = fixedFormat.round 32 := by
      norm_num [rhoOf, sumOf, flow]
    rw [sum, mass]
  have sums : sumsOf id flow = ![2, 1, -4] := by norm_num [sumsOf, sumOf, flow]
  have x : fixedFormat.round (fixedFormat.round 2 / 32) = 1 / 16 := by
    rw [fixedFormat_round (v := 2) (k := 512), fixedFormat_round (k := 16)] <;> norm_num
  have y : fixedFormat.round (fixedFormat.round 1 / 32) = 1 / 32 := by
    rw [fixedFormat_round (v := 1) (k := 256), fixedFormat_round (k := 8)] <;> norm_num
  have z : fixedFormat.round (fixedFormat.round (-4) / 32) = -1 / 8 := by
    rw [fixedFormat_round (v := -4) (k := -1024), fixedFormat_round (k := -32)] <;> norm_num
  rw [velocityAt, streamGrid_populations]
  refine ⟨rho, ?_⟩
  funext a
  rw [quotientsOf, rho, sums]
  fin_cases a
  · exact x
  · exact y
  · exact z

theorem level_velocity (p : ℤ) : rhoOf id id (populations Config.small levelGrid p) = 19 ∧
    velocityAt Config.small id id levelGrid p = 0 := by
  constructor
  · norm_num [rhoOf, sumOf, populations, levelGrid]
  · funext a
    fin_cases a <;> norm_num [velocityAt, quotientsOf, sumsOf, sumOf, populations, levelGrid]

/-- A grid at rest and the velocity field of a flow, each on a machine of the byte order that
the other one has not. The square of the second velocity is too small for the format. -/
theorem compareVelocityField_stored_small :
    (∃ file, storeVelocityField Config.small fixedFormat id false streamGrid = some file ∧
      compareVelocityField Config.small fixedFormat id true levelGrid file = some (5 / 256)) ∧
    ∃ file, storeVelocityField Config.small fixedFormat id true streamGrid = some file ∧
      compareVelocityField Config.small fixedFormat id false levelGrid file = some (5 / 256) := by
  have massive : Massive Config.small id id levelGrid := fun p _ => by
    rw [(level_velocity p).1]
    norm_num
  have stored : Massive Config.small id fixedFormat.round streamGrid := fun p _ => by
    rw [(flow_velocity p).1]
    norm_num
  have apart (p : ℤ) : difference2 Config.small fixedFormat id levelGrid streamGrid p = 5 / 256 := by
    have x : fixedFormat.round (-(1 / 16)) = -(1 / 16) := by
      rw [fixedFormat_round (k := -16)] <;> norm_num
    have y : fixedFormat.round (-(1 / 32)) = -(1 / 32) := by
      rw [fixedFormat_round (k := -8)] <;> norm_num
    have z : fixedFormat.round (1 / 8) = 1 / 8 := by
      rw [fixedFormat_round (k := 32)] <;> norm_num
    have xx : fixedFormat.round (1 / 256) = 1 / 256 := by
      rw [fixedFormat_round (k := 1)] <;> norm_num
    have yy : fixedFormat.round (1 / 1024) = 0 := by
      rw [fixedFormat_round (k := 0)] <;> norm_num
    have zz : fixedFormat.round (1 / 64) = 1 / 64 := by
      rw [fixedFormat_round (k := 4)] <;> norm_num
    have sum : fixedFormat.round (5 / 256) = 5 / 256 := by
      rw [fixedFormat_round (k := 5)] <;> norm_num
    simp only [difference2, level_velocity p, flow_velocity p, diff2Of]
    norm_num [sumOf, x, y, z, xx, yy, zz, sum]
  constructor
  · obtain ⟨file, maxDiff2, store, compare, -, ⟨p, -, met⟩, -⟩ :=
      compareVelocityField_stored fixedFormat (show id (0 : ℚ) = 0 from rfl) massive stored false true
    exact ⟨file, store, by rw [compare, ← met, apart p]⟩
  · obtain ⟨file, maxDiff2, store, compare, -, ⟨p, -, met⟩, -⟩ :=
      compareVelocityField_stored fixedFormat (show id (0 : ℚ) = 0 from rfl) massive stored true false
    exact ⟨file, store, by rw [compare, ← met, apart p]⟩

end MorelloWorkloads.Lbm
