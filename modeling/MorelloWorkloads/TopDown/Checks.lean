import MorelloWorkloads.TopDown.Levels

/-! When the first-level metrics sum to 1, and when the script's two checkers
accept what the analysis returned. -/
namespace MorelloWorkloads.TopDown

/-- The part of the slots the counters account for, before the remainder. -/
def Bounds.accounted (b : Bounds) : ℚ := b.retiring + b.frontendBound + b.backendBound

/-! ## First level -/

/-- The clamped remainder fills the slots up to 1, and does nothing above 1. -/
theorem topSum_eq {c : Counters} {m : Metrics} (h : Analysed c m) :
    m.retiring + m.frontendBound + m.backendBound + m.badSpeculation = max 1 m.accounted := by
  rw [h.badSpeculation]
  unfold Bounds.accounted
  cases le_total (m.retiring + m.frontendBound + m.backendBound) 1 with
  | inl le =>
    rw [max_eq_right (by linarith), max_eq_left le]
    ring
  | inr le =>
    rw [max_eq_left (by linarith), max_eq_right le]
    ring

theorem accounted_eq {c : Counters} {m : Metrics} (h : Analysed c m) :
    m.accounted = c.instSpec / c.specTotal + (c.stallFrontend + c.stallBackend) / c.cpuCycles := by
  rw [Bounds.accounted, h.retiring, h.frontendBound, h.backendBound, add_div, add_assoc]

theorem accounted_le_one_iff {c : Counters} (h : Plausible c) {m : Metrics} (hm : Analysed c m) :
    m.accounted ≤ 1 ↔ c.instSpec * c.cpuCycles + (c.stallFrontend + c.stallBackend) * c.specTotal ≤
      c.cpuCycles * c.specTotal := by
  rw [accounted_eq hm, div_add_div _ _ h.specTotal_pos.ne' h.cpuCycles.ne',
    div_le_one (mul_pos h.specTotal_pos h.cpuCycles)]
  constructor <;> intro le <;> linarith

/-- A run in which half of the speculated instructions retire and 40 of 100
cycles stall on the back end. -/
def halfRetired (stallFrontend : ℚ) : Counters where
  cpuCycles := 100
  instRetired := 100
  stallFrontend := stallFrontend
  stallBackend := 40
  l1dCacheRefill := 3
  l2dCacheRefill := 2
  llCacheMissRd := 1
  memAccessRd := 20
  memAccessWr := 10
  instSpec := 50
  ldSpec := 20
  stSpec := 10
  dpSpec := 20
  aseSpec := 0
  brIndirectSpec := 0
  brReturnSpec := 0
  brImmedSpec := 0
  vfpSpec := 0
  memAccessRdCtag := 0
  memAccessWrCtag := 0
  capMemAccessRd := 0
  capMemAccessWr := 0

theorem halfRetired_valid {s : ℚ} (hs : 0 ≤ s) : Plausible (halfRetired s) where
  cpuCycles := by norm_num [halfRetired]
  instRetired := by norm_num [halfRetired]
  nonneg := by simp [Counters.toList, Counters.specs, halfRetired, hs]
  someSpec := ⟨50, by simp [Counters.specs, halfRetired], by norm_num⟩

/-- The four first-level metrics partition the slots exactly when retiring and
stalls together leave a remainder that is not negative. -/
theorem first_level_partitions_iff {c : Counters} (h : Plausible c)
    (_stalls : c.stallFrontend + c.stallBackend ≤ c.cpuCycles) :
    (∃ m, topDownAnalysis c = .ok m ∧
      m.retiring + m.frontendBound + m.backendBound + m.badSpeculation = 1) ↔
    c.instSpec * c.cpuCycles + (c.stallFrontend + c.stallBackend) * c.specTotal ≤
      c.cpuCycles * c.specTotal := by
  obtain ⟨m, run, hm⟩ := topDownAnalysis_analysed h
  rw [← accounted_le_one_iff h hm]
  constructor
  · rintro ⟨m', run', sum⟩
    obtain rfl : m = m' := Except.ok.inj (run.symm.trans run')
    rw [topSum_eq hm] at sum
    exact max_eq_left_iff.mp sum
  · intro le
    exact ⟨m, run, by rw [topSum_eq hm, max_eq_left le]⟩

theorem first_level_partitions_iff_slack :
    (∃ m, topDownAnalysis (halfRetired 10) = .ok m ∧
      m.retiring + m.frontendBound + m.backendBound + m.badSpeculation = 1) ↔
    50 * 100 + (10 + 40) * (halfRetired 10).specTotal ≤ 100 * (halfRetired 10).specTotal :=
  first_level_partitions_iff (halfRetired_valid (by norm_num)) (by decide +kernel)

/-- With 60 front-end stalls every cycle stalls, and half the slots retire too. -/
theorem first_level_overfull :
    (halfRetired 60).stallFrontend + (halfRetired 60).stallBackend ≤ (halfRetired 60).cpuCycles ∧
    ¬ ∃ m, topDownAnalysis (halfRetired 60) = .ok m ∧
      m.retiring + m.frontendBound + m.backendBound + m.badSpeculation = 1 := by
  have h : Plausible (halfRetired 60) := halfRetired_valid (by norm_num)
  refine ⟨by decide +kernel, ?_⟩
  rintro ⟨m, run, sum⟩
  obtain ⟨m', run', hm⟩ := topDownAnalysis_analysed h
  obtain rfl : m = m' := Except.ok.inj (run.symm.trans run')
  rw [topSum_eq hm, max_eq_left_iff, accounted_le_one_iff h hm] at sum
  exact absurd sum (by decide +kernel)

/-! ## The checkers -/

theorem fail_eq_true {flag : Bool} {failed : Prop} [Decidable failed] :
    fail flag failed = true ↔ flag = true ∧ ¬ failed := by
  unfold fail
  split <;> simp [*]

theorem foldl_fail_eq_true {failed : ℚ → Prop} [DecidablePred failed] (l : List ℚ) (flag : Bool) :
    l.foldl (fun flag x => fail flag (failed x)) flag = true ↔
      flag = true ∧ ∀ x ∈ l, ¬ failed x := by
  induction l generalizing flag with
  | nil => simp
  | cons x xs ih => simp [ih, fail_eq_true, and_assoc]

theorem Analysed.metrics_nonneg {c : Counters} (h : Plausible c) {m : Metrics}
    (hm : Analysed c m) : ∀ x ∈ m.metrics, 0 ≤ x := by
  have hr : 0 ≤ m.retiring := by
    rw [hm.retiring]; exact div_nonneg h.instSpec_nonneg h.specTotal_pos.le
  have hf : 0 ≤ m.frontendBound := by
    rw [hm.frontendBound]; exact div_nonneg h.stallFrontend_nonneg h.cpuCycles.le
  have hb : 0 ≤ m.backendBound := by
    rw [hm.backendBound]; exact div_nonneg h.stallBackend_nonneg h.cpuCycles.le
  have hs : 0 ≤ m.badSpeculation := by
    rw [hm.badSpeculation]; exact le_max_left _ _
  simp only [Bounds.metrics, List.forall_mem_cons, List.not_mem_nil, false_implies, implies_true,
    and_true]
  exact ⟨hr, hf, hb, hs, hm.split.memoryNonneg, hm.split.coreNonneg, hm.l1Bound, hm.l2Bound,
    hm.extMemBound⟩

theorem Analysed.retiring_le {c : Counters} (h : Plausible c) {m : Metrics} (hm : Analysed c m) :
    m.retiring ≤ 1 := by
  rw [hm.retiring]
  exact (div_le_one h.specTotal_pos).mpr h.instSpec_le_specTotal

/-- Only the top-level sum can exceed a tolerance. -/
theorem Analysed.topSum_within {c : Counters} {m : Metrics} (hm : Analysed c m) (tol : ℚ)
    (ht : 0 ≤ tol) :
    |m.retiring + m.frontendBound + m.backendBound + m.badSpeculation - 1| ≤ tol ↔
      m.accounted ≤ 1 + tol := by
  rw [topSum_eq hm, abs_of_nonneg (by linarith [le_max_left 1 m.accounted]), sub_le_iff_le_add,
    max_le_iff]
  constructor
  · rintro ⟨-, le⟩; linarith
  · intro le; exact ⟨by linarith, by linarith⟩

theorem verify_iff {c : Counters} (h : Plausible c) {m : Metrics} (hm : Analysed c m) :
    verifyMathematicalConsistency m.toBounds = true ↔ m.accounted ≤ 1.001 := by
  have nonneg : ∀ x ∈ m.metrics, x ≥ -0.001 := fun x hx =>
    le_trans (by norm_num) (hm.metrics_nonneg h x hx)
  have top := hm.topSum_within 0.001 (by norm_num)
  rw [show (1 : ℚ) + 0.001 = 1.001 by norm_num] at top
  have memory : |m.l1Bound + m.l2Bound + m.extMemBound - m.memoryBound| ≤ 0.001 := by
    rw [hm.memory, sub_self, abs_zero]; norm_num
  simp only [verifyMathematicalConsistency, fail_eq_true, foldl_fail_eq_true, not_not, top, memory,
    hm.split.close, not_lt.mpr (hm.retiring_le h), not_lt.mpr hm.split.memory_le]
  simpa using fun _ => nonneg

theorem validate_iff {c : Counters} (h : Plausible c) {m : Metrics} (hm : Analysed c m) :
    validateTopDownAnalysis m.toBounds = true ↔ m.accounted ≤ 1.01 := by
  have nonneg : ∀ x ∈ m.metrics, -0.001 ≤ x := fun x hx =>
    le_trans (by norm_num) (hm.metrics_nonneg h x hx)
  have top := hm.topSum_within 0.01 (by norm_num)
  rw [show (1 : ℚ) + 0.01 = 1.01 by norm_num] at top
  have backend : |m.memoryBound + m.coreBound - m.backendBound| ≤ 0.01 :=
    le_trans hm.split.close (by norm_num)
  have memory : |m.l1Bound + m.l2Bound + m.extMemBound - m.memoryBound| ≤ 0.01 := by
    rw [hm.memory, sub_self, abs_zero]; norm_num
  simp only [validateTopDownAnalysis, fail_eq_true, foldl_fail_eq_true, gt_iff_lt, not_lt, top,
    memory, backend]
  simpa using fun _ => nonneg

/-- Every relation the checkers test holds of every result, save one: both
reject exactly when the accounted slots exceed 1 by more than their tolerance. -/
theorem checkers_accept_iff {c : Counters} (h : Plausible c) :
    ∃ m, topDownAnalysis c = .ok m ∧
      (∀ x ∈ m.metrics, 0 ≤ x) ∧ m.retiring ≤ 1 ∧
      |m.memoryBound + m.coreBound - m.backendBound| ≤ 0.001 ∧
      m.memoryBound ≤ m.backendBound + 0.001 ∧
      m.l1Bound + m.l2Bound + m.extMemBound = m.memoryBound ∧
      (verifyMathematicalConsistency m.toBounds = true ↔
        m.retiring + m.frontendBound + m.backendBound ≤ 1.001) ∧
      (validateTopDownAnalysis m.toBounds = true ↔
        m.retiring + m.frontendBound + m.backendBound ≤ 1.01) := by
  obtain ⟨m, run, hm⟩ := topDownAnalysis_analysed h
  exact ⟨m, run, hm.metrics_nonneg h, hm.retiring_le h, hm.split.close, hm.split.memory_le,
    hm.memory, verify_iff h hm, validate_iff h hm⟩

theorem checkers_accept_iff_slack :
    ∃ m, topDownAnalysis (halfRetired 10) = .ok m ∧
      (∀ x ∈ m.metrics, 0 ≤ x) ∧ m.retiring ≤ 1 ∧
      |m.memoryBound + m.coreBound - m.backendBound| ≤ 0.001 ∧
      m.memoryBound ≤ m.backendBound + 0.001 ∧
      m.l1Bound + m.l2Bound + m.extMemBound = m.memoryBound ∧
      (verifyMathematicalConsistency m.toBounds = true ↔
        m.retiring + m.frontendBound + m.backendBound ≤ 1.001) ∧
      (validateTopDownAnalysis m.toBounds = true ↔
        m.retiring + m.frontendBound + m.backendBound ≤ 1.01) :=
  checkers_accept_iff (halfRetired_valid (by norm_num))

end MorelloWorkloads.TopDown
