import MorelloWorkloads.TopDown.Pipeline
import Mathlib.Data.Rat.Floor

/-! What `main` leaves in its output file, and what `literal_eval` makes of it. -/
namespace MorelloWorkloads.TopDown
open PyLiteral

variable (round : ℚ → ℚ)

/-! ## The record of a benchmark -/

/-- Fifteen lists with a place for each slot, whatever stands there. -/
def Shaped (columns : List (List ℚ)) : Prop := columns.length = 15 ∧ ∀ column ∈ columns, column.length = 3

theorem rounded_shaped (own : Fin 3 → Metrics) : Shaped (rounded round own) := by
  refine ⟨rfl, fun column hc => ?_⟩
  obtain ⟨field, -, rfl⟩ := List.mem_map.mp hc
  rfl

theorem cut_store (columns : List (List ℚ)) (i : ℕ) (m : Metrics) : cut round (store columns i m) =
    List.zipWith (fun column x => (column.set i x).map round) columns m.toList := by
  rw [cut, store, List.map_zipWith]

variable {round} (idem : ∀ x, round (round x) = round x)
include idem

/-- The three passes overwrite all that a column held, and what they round again
is rounded already. -/
theorem three_passes (own : Fin 3 → Metrics) (fields : List (Metrics → ℚ)) (columns : List (List ℚ))
    (length : columns.length = fields.length) (width : ∀ column ∈ columns, column.length = 3) :
    List.zipWith (fun column x => (column.set 2 x).map round)
      (List.zipWith (fun column x => (column.set 1 x).map round)
        (List.zipWith (fun column x => (column.set 0 x).map round) columns
          (fields.map fun field => field (own 0)))
        (fields.map fun field => field (own 1)))
      (fields.map fun field => field (own 2)) =
    fields.map fun field => [round (field (own 0)), round (field (own 1)), round (field (own 2))] := by
  induction fields generalizing columns with
  | nil => simp
  | cons field fields ih =>
    cases columns with
    | nil => cases length
    | cons column columns =>
      obtain ⟨a, b, c, rfl⟩ := List.length_eq_three.mp (width column List.mem_cons_self)
      have rest := ih columns (by simpa using length)
        fun column hc => width column (List.mem_cons_of_mem _ hc)
      simp only [List.map_cons, List.zipWith_cons_cons, rest, List.set_cons_zero, List.set_cons_succ,
        List.map_nil, idem]

variable {s s' : State} {b : Benchmark} {own : Fin 3 → Metrics}

omit idem in
theorem analyseSlot_run {i : Fin 3} {m : Metrics} (analysed : topDownAnalysis (b.slots i) = .ok m)
    (run : analyseSlot round b s i = .ok s') :
    s'.columns = cut round (store s.columns i m) ∧ s'.file = s.file := by
  unfold analyseSlot at run
  rw [analysed] at run
  obtain ⟨m', eq, run⟩ := bind_ok_iff.mp run
  cases eq
  obtain ⟨reports, -, run⟩ := bind_ok_iff.mp run
  cases run
  exact ⟨rfl, rfl⟩

/-- A benchmark's record is made of its own slots: nothing of what the columns
held before is left. -/
theorem analyseBenchmark_run (shaped : Shaped s.columns)
    (analysed : ∀ i, topDownAnalysis (b.slots i) = .ok (own i))
    (run : analyseBenchmark round s b = .ok s') :
    s'.columns = rounded round own ∧ s'.file = s.file ++ record b.name (rounded round own) := by
  obtain ⟨s₃, slots, run⟩ := bind_ok_iff.mp run
  cases run
  simp only [List.foldlM_cons, List.foldlM_nil] at slots
  obtain ⟨s₁, first, slots⟩ := bind_ok_iff.mp slots
  obtain ⟨s₂, second, slots⟩ := bind_ok_iff.mp slots
  obtain ⟨s₃, third, slots⟩ := bind_ok_iff.mp slots
  cases slots
  obtain ⟨columns₁, file₁⟩ := analyseSlot_run (analysed 0) first
  obtain ⟨columns₂, file₂⟩ := analyseSlot_run (analysed 1) second
  obtain ⟨columns₃, file₃⟩ := analyseSlot_run (analysed 2) third
  have columns : s₃.columns = rounded round own := by
    rw [columns₃, columns₂, columns₁, cut_store, cut_store, cut_store]
    exact three_passes idem own Metrics.fields s.columns shaped.1 shaped.2
  refine ⟨columns, ?_⟩
  dsimp only
  rw [columns, file₃, file₂, file₁]

theorem loop_run {results : List Benchmark} {own : Benchmark → Fin 3 → Metrics}
    (analysed : ∀ b ∈ results, ∀ i, topDownAnalysis (b.slots i) = .ok (own b i))
    (shaped : Shaped s.columns) (run : results.foldlM (analyseBenchmark round) s = .ok s') :
    s'.file = s.file ++ results.flatMap fun b => record b.name (rounded round (own b)) := by
  induction results generalizing s with
  | nil =>
    cases run
    simp
  | cons b results ih =>
    obtain ⟨mid, first, rest⟩ := bind_ok_iff.mp ((List.foldlM_cons ..).symm.trans run)
    obtain ⟨columns, file⟩ := analyseBenchmark_run idem shaped (analysed b List.mem_cons_self) first
    rw [ih (fun b' hb => analysed b' (List.mem_cons_of_mem b hb))
      (columns ▸ rounded_shaped round (own b)) rest, file, List.flatMap_cons, List.append_assoc]

/-- The file: a record for each benchmark, in order, each from its own slots. -/
theorem main_run {results : List Benchmark} {own : Benchmark → Fin 3 → Metrics}
    (analysed : ∀ b ∈ results, ∀ i, topDownAnalysis (b.slots i) = .ok (own b i))
    (run : main round results = .ok s) :
    s.file = line ['{'] ++ (results.flatMap fun b => record b.name (rounded round (own b))) ++
      line ['}'] := by
  obtain ⟨mid, loop, run⟩ := bind_ok_iff.mp run
  cases run
  have shaped : Shaped (List.replicate 15 [0, 0, 0]) := by
    refine ⟨rfl, fun column hc => ?_⟩
    rw [List.eq_of_mem_replicate hc]
    rfl
  dsimp only
  rw [loop_run idem analysed shaped loop]

end MorelloWorkloads.TopDown
