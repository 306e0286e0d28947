import MorelloWorkloads.TopDown.Checks
import MorelloWorkloads.TopDown.Main
import MorelloWorkloads.TopDown.Totality

/-! On which dictionaries the loop of `main` comes to its end. -/
namespace MorelloWorkloads.TopDown
open PyLiteral

variable {ε σ α β : Type}

theorem bind_ok_iff {x : Except ε α} {f : α → Except ε β} {b : β} :
    x >>= f = .ok b ↔ ∃ a, x = .ok a ∧ f a = .ok b := by
  cases x with
  | error e => simp [bind, Except.bind]
  | ok a => simp [bind, Except.bind]

/-- Where a pass succeeds or fails whatever state it starts in, so does the loop. -/
theorem foldlM_ok_iff {f : σ → β → Except ε σ} {P : β → Prop}
    (h : ∀ s x, (∃ s', f s x = .ok s') ↔ P x) (l : List β) (s : σ) :
    (∃ s', l.foldlM f s = .ok s') ↔ ∀ x ∈ l, P x := by
  induction l generalizing s with
  | nil => exact ⟨fun _ x hx => absurd hx List.not_mem_nil, fun _ => ⟨s, rfl⟩⟩
  | cons x xs ih =>
    rw [List.forall_mem_cons]
    constructor
    · rintro ⟨out, run⟩
      obtain ⟨s', first, rest⟩ := bind_ok_iff.mp ((List.foldlM_cons ..).symm.trans run)
      exact ⟨(h s x).mp ⟨s', first⟩, (ih s').mp ⟨out, rest⟩⟩
    · rintro ⟨hx, hxs⟩
      obtain ⟨s', first⟩ := (h s x).mpr hx
      obtain ⟨out, rest⟩ := (ih s').mpr hxs
      exact ⟨out, (List.foldlM_cons ..).trans (bind_ok_iff.mpr ⟨s', first, rest⟩)⟩

/-! ## The diagnostics -/

theorem diagnoseMix_ok (c : Counters) : ∃ d, diagnoseMix c = .ok d := by
  unfold diagnoseMix
  split
  · rename_i hi
    rw [div_ok hi.ne', div_ok hi.ne']
    exact ⟨_, rfl⟩
  · exact ⟨_, rfl⟩

theorem crossValidate_ok (c : Counters) (stalls : ℚ) : ∃ d, crossValidate c stalls = .ok d := by
  unfold crossValidate
  split
  · rename_i pos
    rw [div_ok pos.2.ne', div_ok pos.1.ne']
    exact ⟨_, rfl⟩
  · exact ⟨_, rfl⟩

theorem l1MissRate_ok (c : Counters) : ∃ r, l1MissRate c = .ok r := by
  unfold l1MissRate
  split
  · rename_i pos
    exact ⟨_, div_ok (by linarith)⟩
  · exact ⟨_, rfl⟩

/-- Only the division by `cpu_cycles` is not guarded. -/
theorem diagnoseWarnings_ok_iff (c : Counters) :
    (∃ d, diagnoseWarnings c = .ok d) ↔ c.cpuCycles ≠ 0 := by
  constructor
  · rintro ⟨d, run⟩ zero
    unfold diagnoseWarnings at run
    simp only [div, zero, if_true] at run
    cases run
  · intro nonzero
    obtain ⟨mix, hmix⟩ := diagnoseMix_ok c
    obtain ⟨cross, hcross⟩ := crossValidate_ok c
      (c.l1dCacheRefill * l1Lat + c.l2dCacheRefill * l2Lat + c.llCacheMissRd * llLat)
    obtain ⟨rate, hrate⟩ := l1MissRate_ok c
    have slots : c.cpuCycles * 4 ≠ 0 := mul_ne_zero nonzero (by norm_num)
    unfold diagnoseWarnings
    simp only [div_ok nonzero, div_ok slots, hmix, hcross, hrate]
    exact ⟨_, rfl⟩

theorem checkSlot_ok_iff (c : Counters) (m : Metrics) :
    (∃ r, checkSlot c m = .ok r) ↔ c.cpuCycles ≠ 0 := by
  rw [← diagnoseWarnings_ok_iff]
  unfold checkSlot
  cases diagnoseWarnings c with
  | error e => simp [bind, Except.bind]
  | ok d => simp [bind, Except.bind, pure, Except.pure]

/-! ## The loop -/

variable (round : ℚ → ℚ)

theorem slotReports_ok_iff (c : Counters) (i : Fin 3) (m : Metrics) :
    (∃ r, slotReports c i m = .ok r) ↔ (i = 0 → c.cpuCycles ≠ 0) := by
  unfold slotReports
  split
  · rename_i first
    rw [← checkSlot_ok_iff c m]
    cases checkSlot c m with
    | error e => simp [Except.map, first]
    | ok r => simp [Except.map]
  · rename_i later
    exact ⟨fun _ first => absurd first later, fun _ => ⟨[], rfl⟩⟩

theorem analyseSlot_ok_iff (b : Benchmark) (s : State) (i : Fin 3) :
    (∃ s', analyseSlot round b s i = .ok s') ↔
      (∃ m, topDownAnalysis (b.slots i) = .ok m) ∧ (i = 0 → (b.slots i).cpuCycles ≠ 0) := by
  constructor
  · rintro ⟨s', run⟩
    obtain ⟨m, analysed, run⟩ := bind_ok_iff.mp run
    obtain ⟨reports, checked, -⟩ := bind_ok_iff.mp run
    exact ⟨⟨m, analysed⟩, (slotReports_ok_iff _ i m).mp ⟨reports, checked⟩⟩
  · rintro ⟨⟨m, analysed⟩, nonzero⟩
    obtain ⟨reports, checked⟩ := (slotReports_ok_iff _ i m).mpr nonzero
    exact ⟨_, bind_ok_iff.mpr ⟨m, analysed, bind_ok_iff.mpr ⟨reports, checked, rfl⟩⟩⟩

theorem analyseBenchmark_ok_iff (s : State) (b : Benchmark) :
    (∃ s', analyseBenchmark round s b = .ok s') ↔
      (b.slots 0).cpuCycles ≠ 0 ∧ ∀ i, ∃ m, topDownAnalysis (b.slots i) = .ok m := by
  have slots := foldlM_ok_iff (analyseSlot_ok_iff round b) [0, 1, 2] s
  have all : (∀ i ∈ [(0 : Fin 3), 1, 2], (∃ m, topDownAnalysis (b.slots i) = .ok m) ∧
      (i = 0 → (b.slots i).cpuCycles ≠ 0)) ↔
      (b.slots 0).cpuCycles ≠ 0 ∧ ∀ i, ∃ m, topDownAnalysis (b.slots i) = .ok m := by
    constructor
    · intro h
      have every : ∀ i : Fin 3, i ∈ [(0 : Fin 3), 1, 2] := by decide
      exact ⟨(h 0 (every 0)).2 rfl, fun i => (h i (every i)).1⟩
    · rintro ⟨nonzero, h⟩ i _
      exact ⟨h i, fun first => first ▸ nonzero⟩
  rw [← all, ← slots]
  constructor
  · rintro ⟨s', run⟩
    obtain ⟨mid, run, -⟩ := bind_ok_iff.mp run
    exact ⟨mid, run⟩
  · rintro ⟨mid, run⟩
    exact ⟨_, bind_ok_iff.mpr ⟨mid, run, rfl⟩⟩

theorem main_ok_iff (results : List Benchmark) : (∃ s, main round results = .ok s) ↔
    ∀ b ∈ results, (b.slots 0).cpuCycles ≠ 0 ∧ ∀ i, ∃ m, topDownAnalysis (b.slots i) = .ok m := by
  rw [← foldlM_ok_iff (analyseBenchmark_ok_iff round) results
    ⟨List.replicate 15 [0, 0, 0], [], line ['{']⟩]
  constructor
  · rintro ⟨s, run⟩
    obtain ⟨mid, run, -⟩ := bind_ok_iff.mp run
    exact ⟨mid, run⟩
  · rintro ⟨mid, run⟩
    exact ⟨_, bind_ok_iff.mpr ⟨mid, run, rfl⟩⟩

theorem specTotal_ne_zero_iff {c : Counters} (nonneg : ∀ x ∈ c.toList, 0 ≤ x) :
    c.specTotal ≠ 0 ↔ ∃ x ∈ c.specs, 0 < x := by
  have spec : ∀ x ∈ c.specs, 0 ≤ x := fun x hx =>
    nonneg x (List.mem_append_left _ (List.mem_append_right _ hx))
  rw [specTotal_eq_sum]
  constructor
  · intro nonzero
    by_contra idle
    push Not at idle
    exact nonzero (List.sum_eq_zero fun x hx => le_antisymm (idle x hx) (spec x hx))
  · rintro ⟨x, hx, pos⟩
    exact (pos.trans_le (List.single_le_sum spec x hx)).ne'

/-- The pipeline returns on a dictionary of counts exactly when the first slot
of every benchmark has cycles, and every slot that is analysed has speculated. -/
theorem pipeline_total_iff {results : List Benchmark}
    (nonneg : ∀ b ∈ results, ∀ i, ∀ x ∈ (b.slots i).toList, 0 ≤ x) :
    ((∃ s, main round results = .ok s) ∧ ∀ b ∈ results, ∀ i, ∃ m, topDownAnalysis (b.slots i) = .ok m ∧
      ((b.slots i).cpuCycles ≤ 0 ∨ (b.slots i).instRetired ≤ 0 → m = .zero)) ↔
    ∀ b ∈ results, 0 < (b.slots 0).cpuCycles ∧
      ∀ i, 0 < (b.slots i).cpuCycles → 0 < (b.slots i).instRetired → ∃ x ∈ (b.slots i).specs, 0 < x := by
  have cycles {b : Benchmark} (hb : b ∈ results) : (b.slots 0).cpuCycles ≠ 0 ↔ 0 < (b.slots 0).cpuCycles :=
    (nonneg b hb 0 _ (by simp [Counters.toList])).lt_iff_ne'.symm
  have analysed {b : Benchmark} (hb : b ∈ results) (i : Fin 3) :
      (∃ m, topDownAnalysis (b.slots i) = .ok m) ↔
        (0 < (b.slots i).cpuCycles → 0 < (b.slots i).instRetired → ∃ x ∈ (b.slots i).specs, 0 < x) := by
    rw [topDownAnalysis_ok_iff, specTotal_ne_zero_iff (nonneg b hb i)]
  rw [main_ok_iff]
  constructor
  · rintro ⟨run, -⟩ b hb
    exact ⟨(cycles hb).mp (run b hb).1, fun i => (analysed hb i).mp ((run b hb).2 i)⟩
  · intro h
    have returns (b : Benchmark) (hb : b ∈ results) (i : Fin 3) :=
      (analysed hb i).mpr ((h b hb).2 i)
    refine ⟨fun b hb => ⟨(cycles hb).mpr (h b hb).1, returns b hb⟩, fun b hb i => ?_⟩
    obtain ⟨m, run⟩ := returns b hb i
    refine ⟨m, run, fun idle => ?_⟩
    exact Except.ok.inj (run.symm.trans (topDownAnalysis_zero idle))

/-- A run that takes four times the cycles and misses more. -/
def slower : Counters := { halfRetired 25 with cpuCycles := 400, instRetired := 150, l1dCacheRefill := 9 }

/-- A profiling run that failed: every event is missing. -/
def silent : Counters := ⟨0, 0, 0, 0, 0, 0, 0, 0, 0, 0, 0, 0, 0, 0, 0, 0, 0, 0, 0, 0, 0, 0⟩

def slotsOf (first second third : Counters) : Fin 3 → Counters
  | 0 => first
  | 1 => second
  | 2 => third

/-- Two benchmarks, each with other counters in each slot; the last slot has none. -/
def measured : List Benchmark :=
  [⟨['q', 'j', 's'], slotsOf (halfRetired 10) slower (halfRetired 20)⟩,
    ⟨['x', 'z'], slotsOf slower (halfRetired 5) silent⟩]

theorem slower_valid : Plausible slower where
  cpuCycles := by norm_num [slower]
  instRetired := by norm_num [slower]
  nonneg := by simp [Counters.toList, Counters.specs, slower, halfRetired]
  someSpec := ⟨50, by simp [Counters.specs, slower, halfRetired], by norm_num⟩

theorem slotsOf_all {P : Counters → Prop} {first second third : Counters} (one : P first) (two : P second)
    (three : P third) (i : Fin 3) : P (slotsOf first second third i) := by
  match i with
  | 0 => exact one
  | 1 => exact two
  | 2 => exact three

theorem measured_all {P : Counters → Prop} (half : ∀ x, 0 ≤ x → P (halfRetired x)) (slow : P slower)
    (none_left : P silent) : ∀ b ∈ measured, ∀ i, P (b.slots i) := by
  intro b hb
  obtain rfl | rfl := List.mem_pair.mp hb
  · exact slotsOf_all (half 10 (by norm_num)) slow (half 20 (by norm_num))
  · exact slotsOf_all slow (half 5 (by norm_num)) none_left

theorem measured_nonneg : ∀ b ∈ measured, ∀ i, ∀ x ∈ (b.slots i).toList, 0 ≤ x :=
  @measured_all (fun c => ∀ x ∈ c.toList, 0 ≤ x) (fun _ nonneg => (halfRetired_valid nonneg).nonneg)
    slower_valid.nonneg (by simp [silent, Counters.toList, Counters.specs])

theorem measured_speculates : ∀ b ∈ measured, 0 < (b.slots 0).cpuCycles ∧
    ∀ i, 0 < (b.slots i).cpuCycles → 0 < (b.slots i).instRetired → ∃ x ∈ (b.slots i).specs, 0 < x := by
  intro b hb
  have specs := @measured_all (fun c => 0 < c.cpuCycles → 0 < c.instRetired → ∃ x ∈ c.specs, 0 < x)
    (fun _ nonneg _ _ => (halfRetired_valid nonneg).someSpec) (fun _ _ => slower_valid.someSpec)
    (fun cycles => absurd cycles (lt_irrefl 0)) b hb
  refine ⟨?_, specs⟩
  obtain rfl | rfl := List.mem_pair.mp hb
  · exact (halfRetired_valid (show (0 : ℚ) ≤ 10 by norm_num)).cpuCycles
  · exact slower_valid.cpuCycles

theorem pipeline_total_iff_measured :
    (∃ s, main id measured = .ok s) ∧ ∀ b ∈ measured, ∀ i, ∃ m, topDownAnalysis (b.slots i) = .ok m ∧
      ((b.slots i).cpuCycles ≤ 0 ∨ (b.slots i).instRetired ≤ 0 → m = .zero) :=
  (pipeline_total_iff id measured_nonneg).mpr measured_speculates

/-- The same counters in every slot. -/
def uniform (c : Counters) : Benchmark := ⟨['q'], fun _ => c⟩

/-- The analysis returns zeros, and the diagnostics divide by zero. -/
theorem pipeline_fails_on_silent :
    (∀ x ∈ silent.toList, 0 ≤ x) ∧ topDownAnalysis silent = .ok .zero ∧
      ¬ ∃ s, main id [uniform silent] = .ok s := by
  refine ⟨by simp [silent, Counters.toList, Counters.specs], topDownAnalysis_zero (.inl le_rfl), ?_⟩
  rw [main_ok_iff]
  intro h
  exact (h _ List.mem_cons_self).1 rfl

end MorelloWorkloads.TopDown
