import MorelloWorkloads.TopDown.Analysis
import Mathlib.Algebra.Order.Field.Basic
import Mathlib.Tactic.Linarith
import Mathlib.Tactic.NormNum
import Mathlib.Tactic.Ring
import Mathlib.Tactic.FieldSimp
import Mathlib.Tactic.Positivity

/-! What each level of the analysis returns on plausible counters. -/
namespace MorelloWorkloads.TopDown

/-- All 22 counters. -/
def Counters.toList (c : Counters) : List ℚ :=
  [c.cpuCycles, c.instRetired, c.stallFrontend, c.stallBackend, c.l1dCacheRefill, c.l2dCacheRefill,
    c.llCacheMissRd, c.memAccessRd, c.memAccessWr] ++ c.specs ++
  [c.memAccessRdCtag, c.memAccessWrCtag, c.capMemAccessRd, c.capMemAccessWr]

/-- Counters as a run that did something leaves them. -/
structure Plausible (c : Counters) : Prop where
  cpuCycles : 0 < c.cpuCycles
  instRetired : 0 < c.instRetired
  nonneg : ∀ x ∈ c.toList, 0 ≤ x
  someSpec : ∃ x ∈ c.specs, 0 < x

theorem specTotal_eq_sum (c : Counters) : c.specTotal = c.specs.sum := by
  simp [Counters.specTotal, Counters.specs]
  ring

namespace Plausible
variable {c : Counters} (h : Plausible c)
include h

theorem spec_nonneg : ∀ x ∈ c.specs, 0 ≤ x := fun x hx =>
  h.nonneg x (List.mem_append_left _ (List.mem_append_right _ hx))

theorem instSpec_nonneg : 0 ≤ c.instSpec := h.spec_nonneg _ (by simp [Counters.specs])

theorem ldSpec_nonneg : 0 ≤ c.ldSpec := h.spec_nonneg _ (by simp [Counters.specs])

theorem stSpec_nonneg : 0 ≤ c.stSpec := h.spec_nonneg _ (by simp [Counters.specs])

theorem dpSpec_nonneg : 0 ≤ c.dpSpec := h.spec_nonneg _ (by simp [Counters.specs])

theorem stallFrontend_nonneg : 0 ≤ c.stallFrontend := h.nonneg _ (by simp [Counters.toList])

theorem stallBackend_nonneg : 0 ≤ c.stallBackend := h.nonneg _ (by simp [Counters.toList])

theorem l1Stall_nonneg : 0 ≤ c.l1dCacheRefill * l1Lat :=
  mul_nonneg (h.nonneg _ (by simp [Counters.toList])) (by norm_num [l1Lat])

theorem l2Stall_nonneg : 0 ≤ c.l2dCacheRefill * l2Lat :=
  mul_nonneg (h.nonneg _ (by simp [Counters.toList])) (by norm_num [l2Lat])

theorem llStall_nonneg : 0 ≤ c.llCacheMissRd * llLat :=
  mul_nonneg (h.nonneg _ (by simp [Counters.toList])) (by norm_num [llLat])

theorem specTotal_pos : 0 < c.specTotal := by
  obtain ⟨x, hx, hpos⟩ := h.someSpec
  rw [specTotal_eq_sum]
  exact lt_of_lt_of_le hpos (List.single_le_sum h.spec_nonneg x hx)

theorem instSpec_le_specTotal : c.instSpec ≤ c.specTotal := by
  rw [specTotal_eq_sum]
  exact List.single_le_sum h.spec_nonneg _ (by simp [Counters.specs])

/-- Nothing is clamped. -/
theorem clampStalls_eq : c.clampStalls = c := by
  have hf := h.stallFrontend_nonneg
  have hb := h.stallBackend_nonneg
  exact if_neg (by rintro (lt | lt) <;> linarith)

theorem memStallCycles_eq : memStallCycles c =
    c.l1dCacheRefill * l1Lat + c.l2dCacheRefill * l2Lat + c.llCacheMissRd * llLat := by
  have h₁ := h.l1Stall_nonneg
  have h₂ := h.l2Stall_nonneg
  have h₃ := h.llStall_nonneg
  exact if_neg (by linarith)

theorem cacheStalls_eq : cacheStalls c =
    ⟨c.l1dCacheRefill * l1Lat, c.l2dCacheRefill * l2Lat, c.llCacheMissRd * llLat⟩ := by
  have h₁ := h.l1Stall_nonneg
  have h₂ := h.l2Stall_nonneg
  have h₃ := h.llStall_nonneg
  exact if_neg (by rintro (lt | lt | lt) <;> linarith)

end Plausible

theorem div_ok {a b : ℚ} (hb : b ≠ 0) : div a b = .ok (a / b) := if_neg hb

theorem ratioOrZero_ok (a b : ℚ) : ratioOrZero a b = .ok (if b > 0 then a / b else 0) := by
  unfold ratioOrZero
  split
  · exact div_ok (by linarith)
  · rfl

/-- The CHERI ratios guard their own divisions. -/
theorem cheriMetrics_ok (c : Counters) : ∃ m, cheriMetrics c = .ok m := by
  simp only [cheriMetrics, ratioOrZero_ok]
  exact ⟨_, rfl⟩

theorem firstLevel_ok {c : Counters} (h : Plausible c) :
    firstLevel c = .ok ⟨c.instSpec / c.specTotal, c.stallFrontend / c.cpuCycles,
      c.stallBackend / c.cpuCycles, max 0 (1 - (c.instSpec / c.specTotal +
        c.stallFrontend / c.cpuCycles + c.stallBackend / c.cpuCycles))⟩ := by
  simp only [firstLevel, div_ok h.specTotal_pos.ne', div_ok h.cpuCycles.ne']
  rfl

/-- A split of `whole` into two non-negative parts, up to the tolerance. -/
structure Split (whole memory core : ℚ) : Prop where
  memoryNonneg : 0 ≤ memory
  coreNonneg : 0 ≤ core
  close : |memory + core - whole| ≤ 0.001

theorem Split.exact {whole memory core : ℚ} (hm : 0 ≤ memory) (hc : 0 ≤ core)
    (eq : memory + core = whole) : Split whole memory core :=
  ⟨hm, hc, by rw [eq, sub_self, abs_zero]; norm_num⟩

theorem Split.memory_le {whole memory core : ℚ} (h : Split whole memory core) :
    memory ≤ whole + 0.001 := by
  have := (abs_le.mp h.close).2
  linarith [h.coreNonneg]

theorem renormalize_split {whole memory core : ℚ} (hw : 0 ≤ whole) (hm : 0 ≤ memory)
    (hc : 0 ≤ core) : ∃ m k, renormalize whole memory core = .ok (m, k) ∧ Split whole m k := by
  unfold renormalize
  split
  · rename_i far
    dsimp only
    split
    · rename_i pos
      have hp : 0 < memory + core := pos
      rw [div_ok hp.ne', div_ok hp.ne']
      refine ⟨_, _, rfl, .exact (by positivity) (by positivity) ?_⟩
      field_simp
    · exact ⟨_, _, rfl, .exact le_rfl hw (zero_add whole)⟩
  · rename_i near
    exact ⟨_, _, rfl, hm, hc, not_lt.mp near⟩

theorem mixRatios_nonneg {c : Counters} (h : Plausible c) (hi : 0 < c.instSpec) :
    ∃ mem core, mixRatios c = .ok (mem, core) ∧ 0 ≤ mem ∧ 0 ≤ core := by
  have hm : 0 ≤ (c.ldSpec + c.stSpec) / c.instSpec :=
    div_nonneg (add_nonneg h.ldSpec_nonneg h.stSpec_nonneg) hi.le
  have hc : 0 ≤ c.dpSpec / c.instSpec := div_nonneg h.dpSpec_nonneg hi.le
  simp only [mixRatios, div_ok hi.ne']
  dsimp only [bind, Except.bind]
  split
  · rename_i exceeds
    have hs : 0 < (c.ldSpec + c.stSpec) / c.instSpec + c.dpSpec / c.instSpec := by linarith
    rw [div_ok hs.ne', div_ok hs.ne']
    exact ⟨_, _, rfl, div_nonneg hm hs.le, div_nonneg hc hs.le⟩
  · exact ⟨_, _, rfl, hm, hc⟩

theorem instructionMixSplit_split {c : Counters} (h : Plausible c) (hi : 0 < c.instSpec)
    {whole : ℚ} (hw : 0 ≤ whole) :
    ∃ m k, instructionMixSplit c whole = .ok (m, k) ∧ Split whole m k := by
  obtain ⟨mem, core, eq, hm, hc⟩ := mixRatios_nonneg h hi
  simp only [instructionMixSplit, eq]
  dsimp only [bind, Except.bind]
  split
  · exact renormalize_split hw (mul_nonneg hw hm) (mul_nonneg hw hc)
  · exact renormalize_split hw le_rfl hw

theorem latencySplit_split {c : Counters} (h : Plausible c) {whole : ℚ} (hw : 0 ≤ whole) :
    ∃ m k, latencySplit c whole = .ok (m, k) ∧ Split whole m k := by
  have hs : 0 ≤ memStallCycles c := by
    rw [h.memStallCycles_eq]
    have h₁ := h.l1Stall_nonneg
    have h₂ := h.l2Stall_nonneg
    have h₃ := h.llStall_nonneg
    positivity
  -- `part r` is the split that gives memory the share `r` of the whole
  have part {r : ℚ} (h₀ : 0 ≤ r) (h₁ : r ≤ 1) : Split whole (whole * r) (whole - whole * r) :=
    .exact (mul_nonneg hw h₀) (by nlinarith) (by ring)
  unfold latencySplit
  split
  · rename_i pos
    have hb : 0 < c.stallBackend := pos
    rw [div_ok hb.ne']
    dsimp only [bind, Except.bind]
    have hr : 0 ≤ memStallCycles c / c.stallBackend := div_nonneg hs hb.le
    split
    · exact ⟨_, _, rfl, .exact hw le_rfl (add_zero whole)⟩
    · rename_i small
      split
      · exact ⟨_, _, rfl, part hr (by linarith)⟩
      · refine ⟨_, _, rfl, part (le_min hr (by norm_num)) ?_⟩
        exact le_trans (min_le_right _ _) (by norm_num)
  · exact ⟨_, _, rfl, .exact le_rfl hw (zero_add whole)⟩

theorem backendSplit_split {c : Counters} (h : Plausible c) {whole : ℚ} (hw : 0 ≤ whole) :
    ∃ m k, backendSplit c whole = .ok (m, k) ∧ Split whole m k := by
  unfold backendSplit
  split
  · exact instructionMixSplit_split h (by assumption) hw
  · exact latencySplit_split h hw

/-- The cache shares are non-negative and leave the rest of `memory` non-negative. -/
theorem cacheBounds_le {c : Counters} (h : Plausible c) {memory : ℚ} (hm : 0 ≤ memory) :
    ∃ l1 l2, cacheBounds c memory = .ok (l1, l2) ∧ 0 ≤ l1 ∧ 0 ≤ l2 ∧ l1 + l2 ≤ memory := by
  have h₁ := h.l1Stall_nonneg
  have h₂ := h.l2Stall_nonneg
  have h₃ := h.llStall_nonneg
  unfold cacheBounds
  split
  · rename_i pos
    have hs : 0 < memStallCycles c := pos.1
    rw [div_ok hs.ne', div_ok hs.ne', h.cacheStalls_eq]
    refine ⟨_, _, rfl, mul_nonneg hm (div_nonneg h₁ hs.le), mul_nonneg hm (div_nonneg h₂ hs.le), ?_⟩
    rw [← mul_add, ← add_div]
    apply mul_le_of_le_one_right hm
    apply (div_le_one hs).mpr
    rw [h.memStallCycles_eq]
    linarith
  · exact ⟨_, _, rfl, le_rfl, le_rfl, by linarith⟩

/-- What `top_down_analysis` returns on plausible counters, level by level. -/
structure Analysed (c : Counters) (m : Metrics) : Prop where
  retiring : m.retiring = c.instSpec / c.specTotal
  frontendBound : m.frontendBound = c.stallFrontend / c.cpuCycles
  backendBound : m.backendBound = c.stallBackend / c.cpuCycles
  badSpeculation : m.badSpeculation = max 0 (1 - (m.retiring + m.frontendBound + m.backendBound))
  split : Split m.backendBound m.memoryBound m.coreBound
  l1Bound : 0 ≤ m.l1Bound
  l2Bound : 0 ≤ m.l2Bound
  extMemBound : 0 ≤ m.extMemBound
  memory : m.l1Bound + m.l2Bound + m.extMemBound = m.memoryBound

theorem topDownAnalysis_analysed {c : Counters} (h : Plausible c) :
    ∃ m, topDownAnalysis c = .ok m ∧ Analysed c m := by
  have hb : 0 ≤ c.stallBackend / c.cpuCycles := div_nonneg h.stallBackend_nonneg h.cpuCycles.le
  obtain ⟨memory, core, hsplit, split⟩ := backendSplit_split h hb
  obtain ⟨l1, l2, hcache, h₁, h₂, hle⟩ := cacheBounds_le h split.memoryNonneg
  obtain ⟨cheri, hcheri⟩ := cheriMetrics_ok c.clampAccesses
  have run : ¬ (c.cpuCycles ≤ 0 ∨ c.instRetired ≤ 0) := by
    rintro (le | le)
    · exact absurd h.cpuCycles (not_lt.mpr le)
    · exact absurd h.instRetired (not_lt.mpr le)
  simp only [topDownAnalysis, if_neg run, h.clampStalls_eq, div_ok h.cpuCycles.ne',
    firstLevel_ok h]
  dsimp only [bind, Except.bind]
  simp only [hsplit, hcache, hcheri]
  refine ⟨_, rfl, rfl, rfl, rfl, rfl, split, h₁, h₂, le_max_left _ _, ?_⟩
  dsimp only
  rw [max_eq_right (by linarith)]
  ring

end MorelloWorkloads.TopDown
