import MorelloWorkloads.TopDown.Totality
import MorelloWorkloads.TopDown.Checks

/-! The counters are sample counts, so only their ratios mean anything: a
common factor changes no branch and no metric. -/
namespace MorelloWorkloads.TopDown

/-- All 22 counters, sampled `k` times as often. -/
def Counters.scale (k : ℚ) (c : Counters) : Counters where
  cpuCycles := k * c.cpuCycles
  instRetired := k * c.instRetired
  stallFrontend := k * c.stallFrontend
  stallBackend := k * c.stallBackend
  l1dCacheRefill := k * c.l1dCacheRefill
  l2dCacheRefill := k * c.l2dCacheRefill
  llCacheMissRd := k * c.llCacheMissRd
  memAccessRd := k * c.memAccessRd
  memAccessWr := k * c.memAccessWr
  instSpec := k * c.instSpec
  ldSpec := k * c.ldSpec
  stSpec := k * c.stSpec
  dpSpec := k * c.dpSpec
  aseSpec := k * c.aseSpec
  brIndirectSpec := k * c.brIndirectSpec
  brReturnSpec := k * c.brReturnSpec
  brImmedSpec := k * c.brImmedSpec
  vfpSpec := k * c.vfpSpec
  memAccessRdCtag := k * c.memAccessRdCtag
  memAccessWrCtag := k * c.memAccessWrCtag
  capMemAccessRd := k * c.capMemAccessRd
  capMemAccessWr := k * c.capMemAccessWr

section Factor
variable {k : ℚ} (hk : 0 < k)
include hk

theorem div_scale (a b : ℚ) : div (k * a) (k * b) = div a b := by
  simp only [div, mul_eq_zero, hk.ne', false_or, mul_div_mul_left _ _ hk.ne']

theorem ratioOrZero_scale (a b : ℚ) : ratioOrZero (k * a) (k * b) = ratioOrZero a b := by
  simp only [ratioOrZero, gt_iff_lt, mul_pos_iff_of_pos_left hk, div_scale hk]

theorem scale_neg_iff (x : ℚ) : k * x < 0 ↔ x < 0 := by
  rw [← not_le, ← not_le, mul_nonneg_iff_of_pos_left hk]

theorem scale_max_zero (x : ℚ) : max 0 (k * x) = k * max 0 x := by
  rw [mul_max_of_nonneg _ _ hk.le, mul_zero]

variable (c : Counters)

omit hk in
theorem specTotal_scale : (c.scale k).specTotal = k * c.specTotal := by
  simp only [Counters.specTotal, Counters.scale]
  ring

/-- Clamping and scaling commute. -/
theorem clampStalls_scale : (c.scale k).clampStalls = c.clampStalls.scale k := by
  unfold Counters.clampStalls
  by_cases h : c.stallFrontend < 0 ∨ c.stallBackend < 0
  · have h' : (c.scale k).stallFrontend < 0 ∨ (c.scale k).stallBackend < 0 := by
      simpa only [Counters.scale, scale_neg_iff hk] using h
    rw [if_pos h, if_pos h']
    simp only [Counters.scale, scale_max_zero hk]
  · have h' : ¬ ((c.scale k).stallFrontend < 0 ∨ (c.scale k).stallBackend < 0) := by
      simpa only [Counters.scale, scale_neg_iff hk] using h
    rw [if_neg h, if_neg h']

theorem firstLevel_scale : firstLevel (c.scale k) = firstLevel c := by
  unfold firstLevel
  rw [specTotal_scale]
  simp only [Counters.scale, div_scale hk]

theorem memStallCycles_scale : memStallCycles (c.scale k) = k * memStallCycles c := by
  have sum : (c.scale k).l1dCacheRefill * l1Lat + (c.scale k).l2dCacheRefill * l2Lat +
      (c.scale k).llCacheMissRd * llLat =
        k * (c.l1dCacheRefill * l1Lat + c.l2dCacheRefill * l2Lat + c.llCacheMissRd * llLat) := by
    simp only [Counters.scale]
    ring
  simp only [memStallCycles, sum, scale_neg_iff hk, mul_ite, mul_zero]

theorem mixRatios_scale : mixRatios (c.scale k) = mixRatios c := by
  simp only [mixRatios, Counters.scale, ← mul_add, div_scale hk]

theorem backendSplit_scale (whole : ℚ) :
    backendSplit (c.scale k) whole = backendSplit c whole := by
  have spec : (c.scale k).instSpec > 0 ↔ c.instSpec > 0 := mul_pos_iff_of_pos_left hk
  have stall : (c.scale k).stallBackend > 0 ↔ c.stallBackend > 0 := mul_pos_iff_of_pos_left hk
  have ratio : div (memStallCycles (c.scale k)) (c.scale k).stallBackend =
      div (memStallCycles c) c.stallBackend := by
    rw [memStallCycles_scale hk]
    exact div_scale hk _ _
  simp only [backendSplit, instructionMixSplit, latencySplit, mixRatios_scale hk, spec, stall, ratio]

theorem cacheStalls_scale : cacheStalls (c.scale k) =
    ⟨k * (cacheStalls c).l1, k * (cacheStalls c).l2, k * (cacheStalls c).ll⟩ := by
  simp only [cacheStalls, Counters.scale, mul_assoc, scale_neg_iff hk, scale_max_zero hk]
  split <;> rfl

theorem cacheBounds_scale (memory : ℚ) : cacheBounds (c.scale k) memory = cacheBounds c memory := by
  simp only [cacheBounds, memStallCycles_scale hk, cacheStalls_scale hk, div_scale hk, gt_iff_lt,
    mul_pos_iff_of_pos_left hk]

theorem clampAccesses_scale : (c.scale k).clampAccesses = c.clampAccesses.scale k := by
  have specs : ((c.scale k).ldSpec < 0 ∨ (c.scale k).stSpec < 0 ∨ (c.scale k).instSpec < 0) ↔
      c.ldSpec < 0 ∨ c.stSpec < 0 ∨ c.instSpec < 0 := by
    simp only [Counters.scale, scale_neg_iff hk]
  have accesses : ((c.scale k).memAccessRd < 0 ∨ (c.scale k).memAccessWr < 0) ↔
      c.memAccessRd < 0 ∨ c.memAccessWr < 0 := by
    simp only [Counters.scale, scale_neg_iff hk]
  unfold Counters.clampAccesses
  by_cases hs : c.ldSpec < 0 ∨ c.stSpec < 0 ∨ c.instSpec < 0
  · simp only [if_pos hs, if_pos (specs.mpr hs), accesses]
    split <;> simp only [Counters.scale, scale_max_zero hk]
  · simp only [if_neg hs, if_neg (mt specs.mp hs), accesses]
    split <;> simp only [Counters.scale, scale_max_zero hk]

theorem cheriMetrics_scale : cheriMetrics (c.scale k) = cheriMetrics c := by
  simp only [cheriMetrics, Counters.scale, ← mul_add, ratioOrZero_scale hk]

/-- Also where the analysis fails, it fails for every factor. -/
theorem topDownAnalysis_scale : topDownAnalysis (c.scale k) = topDownAnalysis c := by
  have cycles : (c.scale k).cpuCycles ≤ 0 ↔ c.cpuCycles ≤ 0 := by
    rw [← not_lt, ← not_lt]
    exact not_congr (mul_pos_iff_of_pos_left hk)
  have retired : (c.scale k).instRetired ≤ 0 ↔ c.instRetired ≤ 0 := by
    rw [← not_lt, ← not_lt]
    exact not_congr (mul_pos_iff_of_pos_left hk)
  have ipc : div (c.clampStalls.scale k).instRetired (c.clampStalls.scale k).cpuCycles =
      div c.clampStalls.instRetired c.clampStalls.cpuCycles := div_scale hk _ _
  simp only [topDownAnalysis, cycles, retired, clampStalls_scale hk, ipc, firstLevel_scale hk,
    backendSplit_scale hk, cacheBounds_scale hk, clampAccesses_scale hk, cheriMetrics_scale hk]

/-- The two runs of the analysis return, and return the same 15 metrics. -/
theorem sampling_period_invariant (hc : 0 < c.cpuCycles) (hr : 0 < c.instRetired)
    (hs : c.specTotal ≠ 0) :
    ∃ m, topDownAnalysis c = .ok m ∧ topDownAnalysis (c.scale k) = .ok m := by
  obtain ⟨m, run⟩ := (topDownAnalysis_run hc hr).2 hs
  exact ⟨m, run, (topDownAnalysis_scale hk c).trans run⟩

end Factor

theorem sampling_period_invariant_third :
    ∃ m, topDownAnalysis (halfRetired 60) = .ok m ∧
      topDownAnalysis ((halfRetired 60).scale (1 / 3)) = .ok m :=
  sampling_period_invariant (by norm_num) (halfRetired 60) (by decide +kernel) (by decide +kernel)
    (by decide +kernel)

end MorelloWorkloads.TopDown
