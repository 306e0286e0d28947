import MorelloWorkloads.Pmu.VerboseList
import Mathlib.Algebra.GroupWithZero.Nat
import Mathlib.Data.List.FinRange
import Mathlib.Data.Rat.Defs

/-! The data set of counts and what two of its readers make of it: the runs of
figure 5 and the data frame of figure 7. -/
namespace MorelloWorkloads.Pmu

/-- What the script has emitted, read as a dictionary of dictionaries. -/
structure DataSet where
  benchmarks : List (String × List (String × Tuple ℕ))
  nodup : (benchmarks.map Prod.fst).Nodup
  metrics_nodup : ∀ b ∈ benchmarks, (b.2.map Prod.fst).Nodup

def DataSet.Has (data : DataSet) (benchmark metric : String) (values : Tuple ℕ) : Prop :=
  ∃ metrics, (benchmark, metrics) ∈ data.benchmarks ∧ (metric, values) ∈ metrics

/-! ## Figure 5 -/

/-- `values[run_idx]`. -/
def Tuple.get {α : Type*} (t : Tuple α) (run : Fin 3) : α :=
  t.values.get (run.cast t.three.symm)

def abiLabels : List Abi := [.hybrid, .purecapBenchmark, .purecap]

def specTypes : List String :=
  ["inst_spec", "ase_spec", "br_indirect_spec", "br_return_spec", "br_immed_spec", "vfp_spec",
    "ld_spec", "st_spec", "dp_spec"]

structure RunResults where
  benchmark : String
  abi : Abi
  specEvents : List (String × ℕ)
  totalSpec : ℕ
  ratios : List (String × ℚ)

/-- One pass of the loop over the runs of a benchmark. -/
def runResults (benchmark : String) (metrics : List (String × Tuple ℕ)) (run : Fin 3) :
    RunResults :=
  let events := (metrics.filter fun m => m.1 ∈ specTypes).map fun m => (m.1, m.2.get run)
  let total := (events.map Prod.snd).sum
  { benchmark
    abi := abiLabels.get run
    specEvents := events
    totalSpec := total
    ratios := specTypes.map fun spec =>
      (spec, match events.lookup spec with
        | some n => if total > 0 then n / total * 100 else 0
        | none => 0) }

def figure5 (data : DataSet) : List RunResults :=
  data.benchmarks.flatMap fun b => (List.finRange 3).map (runResults b.1 b.2)

/-! ## Figure 7 -/

structure Row where
  benchmark : String
  metric : String
  config : Abi
  value : ℕ
  deriving DecidableEq

/-- The order of `self.configs`. -/
def configs : List Abi := [.hybrid, .purecap, .purecapBenchmark]

/-- `_create_dataframe`: configuration `i` takes `values[i] if i < len(values) else 0`. -/
def createDataframe (data : DataSet) : List Row :=
  data.benchmarks.flatMap fun b => b.2.flatMap fun m =>
    configs.zipIdx.map fun (config, i) => ⟨b.1, m.1, config, m.2.values.getD i 0⟩

/-- The slot that ends up under the name of a configuration. -/
def slotRead : Abi → Abi
  | .hybrid => .hybrid
  | .purecap => .purecapBenchmark
  | .purecapBenchmark => .purecap

/-- Rows named after `abi` with the counts of `slot`. -/
def slotRows (data : DataSet) (abi slot : Abi) : List Row :=
  data.benchmarks.flatMap fun b => b.2.map fun m => ⟨b.1, m.1, abi, m.2.slot slot⟩

/-- The runs of an ABI, as they were extracted. -/
def runs (data : DataSet) (abi : Abi) : List Row := slotRows data abi abi

theorem Tuple.exists_values {α : Type*} (t : Tuple α) : ∃ a b c, t.values = [a, b, c] := by
  obtain ⟨values, three⟩ := t
  match values, three with
  | [a, b, c], _ => exact ⟨a, b, c, rfl⟩

theorem DataSet.Has.unique {data : DataSet} {benchmark metric : String} {v w : Tuple ℕ}
    (hv : data.Has benchmark metric v) (hw : data.Has benchmark metric w) : v = w := by
  obtain ⟨ms, hms, hv⟩ := hv
  obtain ⟨ms', hms', hw⟩ := hw
  obtain ⟨_, rfl⟩ := Prod.mk.inj (List.inj_on_of_nodup_map data.nodup hms hms' rfl)
  exact (Prod.mk.inj (List.inj_on_of_nodup_map (data.metrics_nodup _ hms) hv hw rfl)).2

theorem mem_slotRows {data : DataSet} {abi slot : Abi} {row : Row} :
    row ∈ slotRows data abi slot ↔ row.config = abi ∧
      ∃ values, data.Has row.benchmark row.metric values ∧ row.value = values.slot slot := by
  simp only [slotRows, List.mem_flatMap, List.mem_map, DataSet.Has]
  constructor
  · rintro ⟨⟨b, ms⟩, hb, ⟨m, v⟩, hm, rfl⟩
    exact ⟨rfl, v, ⟨ms, hb, hm⟩, rfl⟩
  · rintro ⟨rfl, v, ⟨ms, hb, hm⟩, hv⟩
    exact ⟨(row.benchmark, ms), hb, (row.metric, v), hm, by rw [← hv]⟩

/-- The frame gives `purecap` the counts of `purecap-benchmark`, and the other way
round. -/
theorem createDataframe_filter (data : DataSet) (abi : Abi) :
    (createDataframe data).filter (fun r => r.config = abi) = slotRows data abi (slotRead abi) := by
  unfold createDataframe slotRows
  simp only [List.filter_flatMap]
  apply List.flatMap_congr
  intro b _
  rw [← List.flatMap_singleton' (b.2.map _), List.flatMap_map]
  apply List.flatMap_congr
  intro m _
  obtain ⟨x, y, z, hv⟩ := m.2.exists_values
  cases abi <;> simp [configs, slotRead, Tuple.slot, Abi.index, hv]

theorem mem_createDataframe {data : DataSet} {row : Row} : row ∈ createDataframe data ↔
    ∃ values, data.Has row.benchmark row.metric values ∧
      row.value = values.slot (slotRead row.config) := by
  have kept : row ∈ createDataframe data ↔
      row ∈ (createDataframe data).filter fun r => r.config = row.config := by simp
  rw [kept, createDataframe_filter, mem_slotRows]
  exact and_iff_right rfl

/-- Figure 5 labels the slots as the script has filled them. -/
theorem figure5_slot {data : DataSet} {run : RunResults} (hr : run ∈ figure5 data)
    {event : String × ℕ} (he : event ∈ run.specEvents) :
    ∃ values, data.Has run.benchmark event.1 values ∧ event.2 = values.slot run.abi := by
  obtain ⟨b, hb, hr⟩ := List.mem_flatMap.mp hr
  obtain ⟨i, _, rfl⟩ := List.mem_map.mp hr
  obtain ⟨m, hm, rfl⟩ := List.mem_map.mp he
  refine ⟨m.2, ⟨b.2, hb, (List.mem_filter.mp hm).1⟩, ?_⟩
  match i with
  | 0 => rfl
  | 1 => rfl
  | 2 => rfl

/-- No two rows of one ABI are about the same benchmark and metric. -/
theorem slotRows_nodup (data : DataSet) (abi slot : Abi) :
    ((slotRows data abi slot).map fun r => (r.benchmark, r.metric)).Nodup := by
  rw [slotRows, List.map_flatMap]
  apply List.nodup_flatMap.mpr
  constructor
  · intro b hb
    have inner : (b.2.map fun m => (b.1, m.1)) = (b.2.map Prod.fst).map fun m => (b.1, m) := by simp
    rw [List.map_map]
    exact inner ▸ (data.metrics_nodup b hb).map (Prod.mk_right_injective b.1)
  · apply List.Pairwise.imp _ (List.pairwise_map.mp data.nodup)
    intro a b hab
    simp only [Function.onFun, List.disjoint_left, List.map_map, List.mem_map]
    rintro _ ⟨m, _, rfl⟩ ⟨m', _, eq⟩
    exact hab (congrArg Prod.fst eq).symm

end MorelloWorkloads.Pmu
