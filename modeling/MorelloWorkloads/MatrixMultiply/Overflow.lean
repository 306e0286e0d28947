import MorelloWorkloads.Lib.CheckedInt
import MorelloWorkloads.MatrixMultiply.Product

/-! The kernels in the arithmetic of `int`, with every loop a `for` loop that has
to end. An overflow, an access outside a matrix and a loop without fuel left are
`none`. -/
namespace MorelloWorkloads.MatrixMultiply
open CountedLoop CheckedInt FlatMemory

variable {R : Type}

/-- The elements of a matrix. -/
def InMatrix (msize i : ℤ) : Prop := 0 ≤ i ∧ i < msize * msize

instance (msize : ℤ) : DecidablePred (InMatrix msize) := fun _ => inferInstanceAs (Decidable (_ ∧ _))

/-- `i * msize + j` -/
def element (msize i j : ℤ) : Option ℤ := do
  let row ← int (i * msize)
  int (row + j)

/-- `m[i * msize + j]` -/
def readAt (msize : ℤ) (m : ℤ → R) (i j : ℤ) : Option R := do
  let p ← element msize i j
  load (InMatrix msize) m p

def changeAt (msize : ℤ) (m : ℤ → R) (i j : ℤ) (change : R → R) : Option (ℤ → R) := do
  let p ← element msize i j
  (⟨p, change⟩ : Edit ℤ R).runIn (InMatrix msize) m

/-- `v < hi` -/
def upTo (hi v : ℤ) : Option Bool := some (decide (v < hi))

/-- `v < v0 + tile && v < hi` -/
def inTile (v0 tile hi v : ℤ) : Option Bool := do
  let stop ← int (v0 + tile)
  return decide (v < stop) && decide (v < hi)

variable [CommRing R]

/-- `std::fill(c, c + msize * msize, 0)` -/
def fillChecked (msize : ℤ) (c : ℤ → R) : Option (ℤ → R) := do
  let len ← int (msize * msize)
  return fill c len 0

variable (fuel : ℕ) (msize : ℤ) (a b c : ℤ → R)

def dotChecked (i j lo : ℤ) (test : ℤ → Option Bool) : Option R :=
  forLoop 1 test (fun acc k => do
    let x ← readAt msize a i k
    let y ← readAt msize b k j
    return acc + x * y) fuel lo 0

def multiplyV1Checked : Option (ℤ → R) :=
  forLoop 1 (upTo msize) (fun c i =>
    forLoop 1 (upTo msize) (fun c j => do
      let acc ← dotChecked fuel msize a b i j 0 (upTo msize)
      changeAt msize c i j fun _ => acc) fuel 0 c) fuel 0 c

/-- The same loops over `std::vector`. -/
def multiplyV2Checked : Option (ℤ → R) := multiplyV1Checked fuel msize a b c

def multiplyV3Checked (tile : ℤ) : Option (ℤ → R) := do
  let c ← fillChecked msize c
  forLoop tile (upTo msize) (fun c i0 =>
    forLoop tile (upTo msize) (fun c j0 =>
      forLoop tile (upTo msize) (fun c k0 =>
        forLoop 1 (inTile i0 tile msize) (fun c i =>
          forLoop 1 (inTile j0 tile msize) (fun c j => do
            let acc ← dotChecked fuel msize a b i j k0 (inTile k0 tile msize)
            changeAt msize c i j (· + acc)) fuel j0 c) fuel i0 c) fuel 0 c) fuel 0 c) fuel 0 c

def multiplyV4Checked : Option (ℤ → R) := do
  let c ← fillChecked msize c
  forLoop 1 (upTo msize) (fun c i =>
    forLoop 1 (upTo msize) (fun c k => do
      let aik ← readAt msize a i k
      forLoop 1 (upTo msize) (fun c j => do
        let bkj ← readAt msize b k j
        changeAt msize c i j (· + aik * bkj)) fuel 0 c) fuel 0 c) fuel 0 c

def multiplyV5Checked : Option (ℤ → R) := do
  let c ← fillChecked msize c
  forLoop 1 (upTo msize) (fun c j =>
    forLoop 1 (upTo msize) (fun c k => do
      let bjk ← readAt msize b k j
      forLoop 1 (upTo msize) (fun c i => do
        let aik ← readAt msize a i k
        changeAt msize c i j (· + aik * bjk)) fuel 0 c) fuel 0 c) fuel 0 c

/-! ## No step of the kernels is undefined -/

section Kernels
variable {fuel : ℕ} {msize : ℤ} (square : msize * msize ≤ intMax) (enough : msize.toNat < fuel)

include square in
theorem half_range : 2 * msize ≤ intMax := by
  simp only [intMax] at square ⊢
  nlinarith

section Element
variable {i j : ℤ} (hi : 0 ≤ i) (him : i < msize) (hj : 0 ≤ j) (hjm : j < msize)
include square hi him hj hjm

theorem element_eq : element msize i j = some (i * msize + j) := by
  obtain ⟨low, high⟩ := index_bounds hi him hj hjm
  have row : 0 ≤ i * msize := mul_nonneg hi (by omega)
  have rowFits : int (i * msize) = some (i * msize) := int_eq ⟨by omega, by omega⟩
  have fits : int (i * msize + j) = some (i * msize + j) := int_eq ⟨by omega, by omega⟩
  simp only [element, rowFits, fits, Option.bind_eq_bind, Option.bind_some]

theorem readAt_eq {α : Type} (m : ℤ → α) : readAt msize m i j = some (m (i * msize + j)) := by
  have inside : InMatrix msize (i * msize + j) := index_bounds hi him hj hjm
  simp only [readAt, element_eq square hi him hj hjm, Option.bind_eq_bind, Option.bind_some, load,
    if_pos inside]

theorem changeAt_eq {α : Type} (m : ℤ → α) (change : α → α) :
    changeAt msize m i j change =
      some (Function.update m (i * msize + j) (change (m (i * msize + j)))) := by
  have inside : InMatrix msize (i * msize + j) := index_bounds hi him hj hjm
  simp only [changeAt, element_eq square hi him hj hjm, Option.bind_eq_bind, Option.bind_some,
    Edit.runIn, if_pos inside]
  rfl

end Element

theorem fillChecked_eq (nonneg : 0 ≤ msize) (square : msize * msize ≤ intMax) (c : ℤ → R) :
    fillChecked msize c = some (fill c (msize * msize) 0) := by
  have low : 0 ≤ msize * msize := mul_nonneg nonneg nonneg
  have fits : int (msize * msize) = some (msize * msize) := int_eq ⟨by omega, square⟩
  simp only [fillChecked, fits, Option.bind_eq_bind, Option.bind_some, Option.pure_def]

section Loops
variable {σ : Type} {f : σ → ℤ → Option σ} {body : σ → ℤ → σ}
include square enough

/-- `for (v = 0; v < msize; ++v)` -/
theorem row_loop (total : ∀ s v, 0 ≤ v → v < msize → f s v = some (body s v)) (s : σ) :
    forLoop 1 (upTo msize) f fuel 0 s = some (loop 0 msize 1 s body) := by
  have half := half_range square
  have fits : msize ≤ intMax := by
    simp only [intMax] at half ⊢
    omega
  apply forLoop_total one_pos (fun _ => rfl) (increments_one (by norm_num) fits) (by simpa using enough)
  intro s v hv
  obtain ⟨low, high⟩ := mem_trips_one.mp hv
  exact total s v low high

variable {tile : ℤ} (positive : 1 ≤ tile) (largest : tile ≤ intMax)
include positive largest

/-- `for (v0 = 0; v0 < msize; v0 += tile)` -/
theorem tiles_loop (total : ∀ s, ∀ v ∈ trips 0 msize tile, f s v = some (body s v)) (s : σ) :
    forLoop tile (upTo msize) f fuel 0 s = some (loop 0 msize tile s body) := by
  have step : 0 < tile := by omega
  exact forLoop_total step (fun _ => rfl) (increments_fit step largest (half_range square))
    (by simpa using enough) total s

/-- `for (v = v0; v < v0 + tile && v < msize; ++v)` -/
theorem tile_loop {v0 : ℤ} (member : v0 ∈ trips 0 msize tile)
    (total : ∀ s v, 0 ≤ v → v < msize → f s v = some (body s v)) (s : σ) :
    forLoop 1 (inTile v0 tile msize) f fuel v0 s =
      some (loop v0 (min (v0 + tile) msize) 1 s body) := by
  have step : 0 < tile := by omega
  have stop := increments_fit step largest (half_range square) v0 member
  obtain ⟨k, rfl, below⟩ := (mem_trips step).mp member
  have low : 0 ≤ 0 + tile * (k : ℤ) := by positivity
  have ends (v : ℤ) : inTile (0 + tile * k) tile msize v =
      some (decide (v < min (0 + tile * k + tile) msize)) := by
    simp only [inTile, int_eq stop, Option.bind_eq_bind, Option.bind_some, Option.pure_def, lt_min_iff,
      Bool.decide_and]
  have high : min (0 + tile * (k : ℤ) + tile) msize ≤ intMax := (min_le_left _ _).trans stop.2
  have short : min (0 + tile * (k : ℤ) + tile) msize ≤ msize := min_le_right _ _
  apply forLoop_total one_pos ends (increments_one (by omega) high) (by omega)
  intro s v hv
  obtain ⟨first, last⟩ := mem_trips_one.mp hv
  exact total s v (low.trans first) (last.trans_le short)

end Loops

variable (nonneg : 0 ≤ msize) (a b c : ℤ → R)
include square enough

theorem dotChecked_eq {i j : ℤ} (hi : 0 ≤ i) (him : i < msize) (hj : 0 ≤ j) (hjm : j < msize) :
    dotChecked fuel msize a b i j 0 (upTo msize) = some (dot msize a b i j 0 msize) := by
  apply row_loop square enough
  intro acc k hk hkm
  simp only [readAt_eq square hi him hk hkm, readAt_eq square hk hkm hj hjm, Option.bind_eq_bind,
    Option.bind_some, Option.pure_def]

theorem dotChecked_tile_eq {tile k0 : ℤ} (positive : 1 ≤ tile) (largest : tile ≤ intMax)
    (member : k0 ∈ trips 0 msize tile) {i j : ℤ} (hi : 0 ≤ i) (him : i < msize) (hj : 0 ≤ j)
    (hjm : j < msize) :
    dotChecked fuel msize a b i j k0 (inTile k0 tile msize) =
      some (dot msize a b i j k0 (min (k0 + tile) msize)) := by
  apply tile_loop square enough positive largest member
  intro acc k hk hkm
  simp only [readAt_eq square hi him hk hkm, readAt_eq square hk hkm hj hjm, Option.bind_eq_bind,
    Option.bind_some, Option.pure_def]

theorem multiplyV1Checked_eq : multiplyV1Checked fuel msize a b c = some (multiplyV1 msize a b c) := by
  apply row_loop square enough
  intro c i hi him
  apply row_loop square enough
  intro c j hj hjm
  simp only [dotChecked_eq square enough a b hi him hj hjm, changeAt_eq square hi him hj hjm,
    Option.bind_eq_bind, Option.bind_some]

include nonneg

theorem multiplyV3Checked_eq {tile : ℤ} (positive : 1 ≤ tile) (largest : tile ≤ intMax) :
    multiplyV3Checked fuel msize a b c tile = some (multiplyV3 msize a b c tile) := by
  simp only [multiplyV3Checked, fillChecked_eq nonneg square, Option.bind_eq_bind, Option.bind_some]
  apply tiles_loop square enough positive largest
  intro c i0 hi0
  apply tiles_loop square enough positive largest
  intro c j0 hj0
  apply tiles_loop square enough positive largest
  intro c k0 hk0
  apply tile_loop square enough positive largest hi0
  intro c i hi him
  apply tile_loop square enough positive largest hj0
  intro c j hj hjm
  simp only [dotChecked_tile_eq square enough a b positive largest hk0 hi him hj hjm,
    changeAt_eq square hi him hj hjm, Option.bind_some]

theorem multiplyV4Checked_eq : multiplyV4Checked fuel msize a b c = some (multiplyV4 msize a b c) := by
  simp only [multiplyV4Checked, fillChecked_eq nonneg square, Option.bind_eq_bind, Option.bind_some]
  apply row_loop square enough
  intro c i hi him
  apply row_loop square enough
  intro c k hk hkm
  simp only [readAt_eq square hi him hk hkm, Option.bind_some]
  apply row_loop square enough
  intro c j hj hjm
  simp only [readAt_eq square hk hkm hj hjm, changeAt_eq square hi him hj hjm, Option.bind_some]

theorem multiplyV5Checked_eq : multiplyV5Checked fuel msize a b c = some (multiplyV5 msize a b c) := by
  simp only [multiplyV5Checked, fillChecked_eq nonneg square, Option.bind_eq_bind, Option.bind_some]
  apply row_loop square enough
  intro c j hj hjm
  apply row_loop square enough
  intro c k hk hkm
  simp only [readAt_eq square hk hkm hj hjm, Option.bind_some]
  apply row_loop square enough
  intro c i hi him
  simp only [readAt_eq square hi him hk hkm, changeAt_eq square hi him hj hjm, Option.bind_some]

end Kernels

/-- For every size whose square is an `int` and every tile, the kernels end, no
`int` overflows and no access leaves the matrices: they compute what they compute
over the integers. -/
theorem kernels_defined {msize tile : ℤ} (nonneg : 0 ≤ msize) (square : msize * msize ≤ 2 ^ 31 - 1)
    (positive : 1 ≤ tile) (largest : tile ≤ 2 ^ 31 - 1) {fuel : ℕ} (enough : msize < fuel)
    (a b c : ℤ → R) :
    multiplyV1Checked fuel msize a b c = some (multiplyV1 msize a b c) ∧
    multiplyV2Checked fuel msize a b c = some (multiplyV2 msize a b c) ∧
    multiplyV3Checked fuel msize a b c tile = some (multiplyV3 msize a b c tile) ∧
    multiplyV4Checked fuel msize a b c = some (multiplyV4 msize a b c) ∧
    multiplyV5Checked fuel msize a b c = some (multiplyV5 msize a b c) := by
  have fuels : msize.toNat < fuel := by omega
  exact ⟨multiplyV1Checked_eq square fuels a b c, multiplyV1Checked_eq square fuels a b c,
    multiplyV3Checked_eq square fuels nonneg a b c positive largest,
    multiplyV4Checked_eq square fuels nonneg a b c, multiplyV5Checked_eq square fuels nonneg a b c⟩

def ones : ℤ → ℤ := fun _ => 1

/-- The largest size and the largest tile. -/
theorem kernels_defined_largest :
    multiplyV1Checked 46341 46340 ones ones ones = some (multiplyV1 46340 ones ones ones) ∧
    multiplyV2Checked 46341 46340 ones ones ones = some (multiplyV2 46340 ones ones ones) ∧
    multiplyV3Checked 46341 46340 ones ones ones 2147483647 =
      some (multiplyV3 46340 ones ones ones 2147483647) ∧
    multiplyV4Checked 46341 46340 ones ones ones = some (multiplyV4 46340 ones ones ones) ∧
    multiplyV5Checked 46341 46340 ones ones ones = some (multiplyV5 46340 ones ones ones) :=
  kernels_defined (by norm_num) (by norm_num) (by norm_num) (by norm_num) (by norm_num) ones ones ones

end MorelloWorkloads.MatrixMultiply
