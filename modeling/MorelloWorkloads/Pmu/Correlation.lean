import MorelloWorkloads.Pmu.DataSet
import MorelloWorkloads.Lib.CountedLoop
import MorelloWorkloads.Lib.FlatMemory
import Mathlib.Data.String.Basic
import Mathlib.Algebra.Order.Monoid.Unbundled.WithTop

/-! The combined correlation matrix of figure 7, and whether its consumers agree
with the extraction on the slot of each ABI. -/
namespace MorelloWorkloads.Pmu
open CountedLoop FlatMemory

/-- A pivoted table: its columns by name, in order. -/
structure Table where
  names : List String
  column : String → List (Option ℕ)

def Table.size (t : Table) : ℤ := t.names.length

/-- Labels as `pivot` sorts them. -/
def sortedLabels (labels : List String) : List String :=
  labels.dedup.mergeSort fun a b => decide (a ≤ b)

def column (rows : List Row) (metric : String) : List (Option ℕ) :=
  (sortedLabels (rows.map Row.benchmark)).map fun benchmark =>
    (rows.find? fun r => r.benchmark = benchmark ∧ r.metric = metric).map Row.value

/-- `pivot(index='benchmark', columns='metric', values='value')`; two rows for one
cell are an error. -/
def pivot (rows : List Row) : Option Table :=
  if (rows.map fun r => (r.benchmark, r.metric)).Nodup then
    some ⟨sortedLabels (rows.map Row.metric), column rows⟩
  else none

def Table.select (t : Table) (names : List String) : Table := { t with names }

section Correlation
variable {γ : Type} (corr : List (Option ℕ) → List (Option ℕ) → γ)

/-- `t.corr().iloc[i, j]`. -/
def Table.iloc (t : Table) (p : ℤ × ℤ) : Option γ := do
  let a ← t.names[p.1.toNat]?
  let b ← t.names[p.2.toNat]?
  some (corr (t.column a) (t.column b))

/-- The loops that fill the lower triangle, with its diagonal. -/
def fillLower (t : Table) (n : ℤ) (matrix : ℤ × ℤ → γ) : Option (ℤ × ℤ → γ) :=
  loopM 0 n 1 matrix fun matrix i => loopM 0 (i + 1) 1 matrix fun matrix j =>
    (t.iloc corr (i, j)).map (Function.update matrix (i, j))

/-- The loops that fill the upper triangle, with its diagonal. -/
def fillUpper (t : Table) (n : ℤ) (matrix : ℤ × ℤ → γ) : Option (ℤ × ℤ → γ) :=
  loopM 0 n 1 matrix fun matrix i => loopM i n 1 matrix fun matrix j =>
    (t.iloc corr (i, j)).map (Function.update matrix (i, j))

/-- The labels and the cells of the matrix; no metrics given means all of them. -/
def combinedCorrelationMatrix [Zero γ] (data : DataSet) (metrics : List String) :
    Option (List String × (ℤ × ℤ → γ)) := do
  let df := createDataframe data
  let hybrid ← pivot (df.filter fun r => r.config = .hybrid)
  let purecap ← pivot (df.filter fun r => r.config = .purecap)
  let available := metrics.filter fun m => m ∈ hybrid.names ∧ m ∈ purecap.names
  if metrics ≠ [] ∧ available = [] then some ([], fun _ => 0)
  else
    let hybrid := if metrics = [] then hybrid else hybrid.select available
    let purecap := if metrics = [] then purecap else purecap.select available
    let n := hybrid.size
    let matrix ← fillLower corr hybrid n fun _ => 0
    let matrix ← fillUpper corr purecap n matrix
    some (hybrid.names, matrix)

/-! ## The cells -/

/-- The correlation of columns `p` of a table. -/
def Table.cell (t : Table) (p : ℤ × ℤ) : γ :=
  corr (t.column (t.names.getD p.1.toNat "")) (t.column (t.names.getD p.2.toNat ""))

theorem iloc_eq (t : Table) {p : ℤ × ℤ} (h₁ : 0 ≤ p.1 ∧ p.1 < t.size)
    (h₂ : 0 ≤ p.2 ∧ p.2 < t.size) : t.iloc corr p = some (t.cell corr p) := by
  unfold Table.size at h₁ h₂
  have b₁ : p.1.toNat < t.names.length := by omega
  have b₂ : p.2.toNat < t.names.length := by omega
  simp [Table.iloc, Table.cell, b₁, b₂]

/-- A loop nest over rows of the matrix stores the cells that it visits. -/
theorem fill_eq (t : Table) (rows : ℤ → List ℤ)
    (inside : ∀ i ∈ trips 0 t.size 1, ∀ j ∈ rows i, 0 ≤ j ∧ j < t.size) (matrix : ℤ × ℤ → γ) :
    (trips 0 t.size 1).foldlM (fun matrix i => (rows i).foldlM (fun matrix j =>
      (t.iloc corr (i, j)).map (Function.update matrix (i, j))) matrix) matrix =
      some fun p : ℤ × ℤ =>
        if (0 ≤ p.1 ∧ p.1 < t.size) ∧ p.2 ∈ rows p.1 then t.cell corr p else matrix p := by
  let cells := (trips 0 t.size 1).flatMap fun i => (rows i).map fun j => (i, j)
  have mem_cells (p : ℤ × ℤ) : p ∈ cells ↔ (0 ≤ p.1 ∧ p.1 < t.size) ∧ p.2 ∈ rows p.1 := by
    obtain ⟨i, j⟩ := p
    simp [cells, mem_trips_one]
  have defined (p : ℤ × ℤ) (hp : p ∈ cells) : t.iloc corr p = some (t.cell corr p) := by
    obtain ⟨hi, hj⟩ := (mem_cells p).mp hp
    exact iloc_eq corr t hi (inside p.1 (mem_trips_one.mpr hi) p.2 hj)
  have stored := foldlM_store defined matrix
  rw [foldlM_flatMap] at stored
  simp only [List.foldlM_map, mem_cells] at stored
  exact stored

theorem fillLower_eq (t : Table) (matrix : ℤ × ℤ → γ) :
    fillLower corr t t.size matrix = some fun p : ℤ × ℤ =>
      if (0 ≤ p.1 ∧ p.1 < t.size) ∧ 0 ≤ p.2 ∧ p.2 ≤ p.1 then t.cell corr p else matrix p := by
  have filled := fill_eq corr t (fun i => trips 0 (i + 1) 1) (fun i hi j hj => by
    have := mem_trips_one.mp hi
    have := mem_trips_one.mp hj
    omega) matrix
  simp only [mem_trips_one, Int.lt_add_one_iff] at filled
  exact filled

theorem fillUpper_eq (t : Table) (matrix : ℤ × ℤ → γ) :
    fillUpper corr t t.size matrix = some fun p : ℤ × ℤ =>
      if (0 ≤ p.1 ∧ p.1 < t.size) ∧ p.1 ≤ p.2 ∧ p.2 < t.size then t.cell corr p else matrix p := by
  have filled := fill_eq corr t (fun i => trips i t.size 1) (fun i hi j hj => by
    have := mem_trips_one.mp hi
    have := mem_trips_one.mp hj
    omega) matrix
  simp only [mem_trips_one] at filled
  exact filled

theorem pivot_slotRows (data : DataSet) (abi slot : Abi) : pivot (slotRows data abi slot) =
    some ⟨sortedLabels (data.benchmarks.flatMap fun b => b.2.map Prod.fst),
      column (slotRows data abi slot)⟩ := by
  have labels : (slotRows data abi slot).map Row.metric =
      data.benchmarks.flatMap fun b => b.2.map Prod.fst := by
    simp [slotRows, List.map_flatMap, Function.comp_def]
  rw [pivot, if_pos (slotRows_nodup data abi slot), labels]

/-- Which columns the cell at `p` is computed from. The diagonal is filled twice. -/
def combinedCell [Zero γ] (data : DataSet) (names : List String) (p : ℤ × ℤ) : γ :=
  let hybrid : Table := ⟨names, column (slotRows data .hybrid .hybrid)⟩
  let purecap : Table := ⟨names, column (slotRows data .purecap .purecapBenchmark)⟩
  if (0 ≤ p.1 ∧ p.1 < names.length) ∧ p.1 ≤ p.2 ∧ p.2 < names.length then purecap.cell corr p
  else if (0 ≤ p.1 ∧ p.1 < names.length) ∧ 0 ≤ p.2 ∧ p.2 ≤ p.1 then hybrid.cell corr p
  else 0

theorem combinedCell_below [Zero γ] (data : DataSet) {names : List String} {p : ℤ × ℤ}
    (h₁ : p.1 < names.length) (h₂ : 0 ≤ p.2) (h : p.2 < p.1) : combinedCell corr data names p =
      (Table.mk names (column (slotRows data .hybrid .hybrid))).cell corr p := by
  rw [combinedCell, if_neg (by omega), if_pos (by omega)]

theorem combinedCell_above [Zero γ] (data : DataSet) {names : List String} {p : ℤ × ℤ}
    (h₁ : 0 ≤ p.1) (h₂ : p.2 < names.length) (h : p.1 ≤ p.2) : combinedCell corr data names p =
      (Table.mk names (column (slotRows data .purecap .purecapBenchmark))).cell corr p := by
  rw [combinedCell, if_pos (by omega)]

theorem combinedCorrelationMatrix_eq [Zero γ] (data : DataSet) (metrics : List String) :
    ∃ names, combinedCorrelationMatrix corr data metrics =
      some (names, combinedCell corr data names) := by
  have filled (names : List String) :
      let hybrid : Table := ⟨names, column (slotRows data .hybrid .hybrid)⟩
      let purecap : Table := ⟨names, column (slotRows data .purecap .purecapBenchmark)⟩
      (fillLower corr hybrid hybrid.size fun _ => 0).bind (fun matrix =>
        (fillUpper corr purecap hybrid.size matrix).bind fun matrix => some (names, matrix)) =
          some (names, combinedCell corr data names) := by
    intro hybrid purecap
    have upper := fillUpper_eq corr purecap fun p : ℤ × ℤ =>
      if (0 ≤ p.1 ∧ p.1 < hybrid.size) ∧ 0 ≤ p.2 ∧ p.2 ≤ p.1 then hybrid.cell corr p else 0
    rw [fillLower_eq, Option.bind_some]
    exact congrArg (fun r => r.bind fun matrix => some (names, matrix)) upper
  unfold combinedCorrelationMatrix
  simp only [createDataframe_filter, slotRead, pivot_slotRows, Option.bind_eq_bind,
    Option.bind_some]
  split
  · refine ⟨[], congrArg (fun cells => some ([], cells)) (funext fun p => ?_)⟩
    unfold combinedCell
    rw [if_neg (by simp), if_neg (by simp)]
  · by_cases all : metrics = []
    · simp only [all, if_true]
      exact ⟨_, filled _⟩
    · simp only [all, if_false, Table.select]
      exact ⟨_, filled _⟩

/-! ## Agreement -/

/-- All consumers take the counts of an ABI from the slot that the extraction
fills with them. -/
structure Consistent [Zero γ] (data : DataSet) : Prop where
  stored : ∀ benchmark metric values, data.Has benchmark metric values → ∀ abi n,
    ⟨benchmark, metric, abi, n⟩ ∈ createDataframe data ↔ n = values.slot abi
  plotted : ∀ run ∈ figure5 data, ∀ event ∈ run.specEvents,
    ⟨run.benchmark, event.1, run.abi, event.2⟩ ∈ createDataframe data
  cells : ∀ metrics, ∃ names matrix,
    combinedCorrelationMatrix corr data metrics = some (names, matrix) ∧
      ∀ p : ℤ × ℤ, (0 ≤ p.1 ∧ p.1 < names.length) → (0 ≤ p.2 ∧ p.2 < names.length) → p.1 ≠ p.2 →
        let abi := if p.2 < p.1 then .hybrid else .purecap
        matrix p = (Table.mk names (column (runs data abi))).cell corr p

theorem stored_iff {data : DataSet} {benchmark metric : String} {values : Tuple ℕ}
    (has : data.Has benchmark metric values) (abi : Abi) (n : ℕ) :
    ⟨benchmark, metric, abi, n⟩ ∈ createDataframe data ↔ n = values.slot (slotRead abi) := by
  rw [mem_createDataframe]
  constructor
  · rintro ⟨v, hv, eq⟩
    rw [has.unique hv]
    exact eq
  · intro eq
    exact ⟨values, has, eq⟩

/-- Figure 7 has the two purecap ABIs swapped, which shows in its values unless
they have the same counts throughout. -/
theorem consistent_iff [Zero γ] (data : DataSet) : Consistent corr data ↔
    ∀ benchmark metric values, data.Has benchmark metric values →
      values.slot .purecapBenchmark = values.slot .purecap := by
  constructor
  · intro h benchmark metric values has
    have named := (h.stored benchmark metric values has .purecap _).mpr rfl
    exact ((stored_iff has .purecap _).mp named).symm
  · intro same
    have read (benchmark metric : String) (values : Tuple ℕ) (has : data.Has benchmark metric values)
        (abi : Abi) : values.slot (slotRead abi) = values.slot abi := by
      have eq := same benchmark metric values has
      cases abi
      · rfl
      · exact eq.symm
      · exact eq
    have rows (abi : Abi) : slotRows data abi (slotRead abi) = runs data abi := by
      apply List.flatMap_congr
      rintro ⟨b, ms⟩ hb
      apply List.map_congr_left
      rintro ⟨m, v⟩ hm
      rw [read b m v ⟨ms, hb, hm⟩ abi]
    refine ⟨fun benchmark metric values has abi n => ?_, fun run hr event he => ?_, fun metrics => ?_⟩
    · rw [stored_iff has, read benchmark metric values has]
    · obtain ⟨values, has, eq⟩ := figure5_slot hr he
      rw [stored_iff has, read _ _ _ has]
      exact eq
    · obtain ⟨names, eq⟩ := combinedCorrelationMatrix_eq corr data metrics
      refine ⟨names, _, eq, fun p h₁ h₂ _ => ?_⟩
      by_cases below : p.2 < p.1
      · simp only [if_pos below]
        rw [combinedCell_below corr data h₁.2 h₂.1 below, ← rows .hybrid, slotRead]
      · simp only [if_neg below]
        rw [combinedCell_above corr data h₁.1 h₂.2 (not_lt.mp below), ← rows .purecap, slotRead]

end Correlation

def quickJSRetired : Tuple ℕ := ⟨[1967936, 14482, 2847685], rfl⟩

/-- One row of the published data set. -/
def quickJS : DataSet where
  benchmarks := [("QuickJS", [("inst_retired", quickJSRetired)])]
  nodup := by decide
  metrics_nodup := by decide

/-- A correlation over one benchmark is not a number. -/
def notANumber (_ _ : List (Option ℕ)) : WithBot ℚ := ⊥

theorem figure7_swaps : ¬ Consistent notANumber quickJS := by
  intro h
  have has : quickJS.Has "QuickJS" "inst_retired" quickJSRetired :=
    ⟨_, List.mem_singleton_self _, List.mem_singleton_self _⟩
  have named := (h.stored _ _ _ has .purecap 14482).mp ((stored_iff has .purecap 14482).mpr rfl)
  exact absurd named (by decide)

example : createDataframe quickJS =
    [⟨"QuickJS", "inst_retired", .hybrid, 1967936⟩, ⟨"QuickJS", "inst_retired", .purecap, 14482⟩,
      ⟨"QuickJS", "inst_retired", .purecapBenchmark, 2847685⟩] := by decide

end MorelloWorkloads.Pmu
