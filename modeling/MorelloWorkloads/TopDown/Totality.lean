import MorelloWorkloads.TopDown.Levels

/-! Which of the analysis's divisions can fail. All but one are guarded by the
branch that they stand in. -/
namespace MorelloWorkloads.TopDown

theorem mixRatios_ok {c : Counters} (hi : c.instSpec > 0) : ∃ r, mixRatios c = .ok r := by
  simp only [mixRatios, div_ok hi.ne']
  dsimp only [bind, Except.bind]
  split
  · rename_i exceeds
    have hs : (c.ldSpec + c.stSpec) / c.instSpec + c.dpSpec / c.instSpec > 0 := by linarith
    rw [div_ok hs.ne', div_ok hs.ne']
    exact ⟨_, rfl⟩
  · exact ⟨_, rfl⟩

theorem renormalize_ok (whole memory core : ℚ) : ∃ r, renormalize whole memory core = .ok r := by
  unfold renormalize
  split
  · dsimp only
    split
    · rename_i pos
      rw [div_ok pos.ne', div_ok pos.ne']
      exact ⟨_, rfl⟩
    · exact ⟨_, rfl⟩
  · exact ⟨_, rfl⟩

theorem latencySplit_ok (c : Counters) (whole : ℚ) : ∃ r, latencySplit c whole = .ok r := by
  unfold latencySplit
  split
  · rename_i pos
    rw [div_ok pos.ne']
    dsimp only [bind, Except.bind]
    split
    · exact ⟨_, rfl⟩
    · split <;> exact ⟨_, rfl⟩
  · exact ⟨_, rfl⟩

theorem backendSplit_ok (c : Counters) (whole : ℚ) : ∃ r, backendSplit c whole = .ok r := by
  unfold backendSplit
  split
  · rename_i hi
    obtain ⟨r, mix⟩ := mixRatios_ok hi
    simp only [instructionMixSplit, mix]
    dsimp only [bind, Except.bind]
    split <;> exact renormalize_ok _ _ _
  · exact latencySplit_ok c whole

theorem cacheBounds_ok (c : Counters) (memory : ℚ) : ∃ r, cacheBounds c memory = .ok r := by
  unfold cacheBounds
  split
  · rename_i pos
    rw [div_ok pos.1.ne', div_ok pos.1.ne']
    exact ⟨_, rfl⟩
  · exact ⟨_, rfl⟩

theorem clampStalls_specTotal (c : Counters) : c.clampStalls.specTotal = c.specTotal := by
  unfold Counters.clampStalls
  split <;> rfl

theorem clampStalls_cpuCycles (c : Counters) : c.clampStalls.cpuCycles = c.cpuCycles := by
  unfold Counters.clampStalls
  split <;> rfl

theorem topDownAnalysis_zero {c : Counters} (h : c.cpuCycles ≤ 0 ∨ c.instRetired ≤ 0) :
    topDownAnalysis c = .ok .zero := by
  unfold topDownAnalysis
  rw [if_pos h]
  rfl

/-- The analysis fails in `Retiring` or not at all. -/
theorem topDownAnalysis_run {c : Counters} (hc : 0 < c.cpuCycles) (hr : 0 < c.instRetired) :
    (c.specTotal = 0 → topDownAnalysis c = .error .zeroDivision) ∧
      (c.specTotal ≠ 0 → ∃ m, topDownAnalysis c = .ok m) := by
  have run : ¬ (c.cpuCycles ≤ 0 ∨ c.instRetired ≤ 0) := by
    rintro (le | le) <;> linarith
  have cycles : c.clampStalls.cpuCycles ≠ 0 := by
    rw [clampStalls_cpuCycles]
    exact hc.ne'
  unfold topDownAnalysis
  rw [if_neg run]
  dsimp only
  rw [div_ok cycles]
  constructor
  · intro zero
    rw [← clampStalls_specTotal] at zero
    simp only [firstLevel, div, zero, if_true]
    rfl
  · intro nonzero
    rw [← clampStalls_specTotal] at nonzero
    obtain ⟨⟨memory, core⟩, split⟩ :=
      backendSplit_ok c.clampStalls (c.clampStalls.stallBackend / c.clampStalls.cpuCycles)
    obtain ⟨⟨l1, l2⟩, cache⟩ := cacheBounds_ok c.clampStalls memory
    obtain ⟨cheri, access⟩ := cheriMetrics_ok c.clampStalls.clampAccesses
    simp only [firstLevel, div_ok nonzero, div_ok cycles]
    dsimp only [bind, Except.bind, pure, Except.pure]
    simp only [split, cache, access]
    exact ⟨_, rfl⟩

theorem topDownAnalysis_ok_iff (c : Counters) :
    (∃ m, topDownAnalysis c = .ok m) ↔ (0 < c.cpuCycles → 0 < c.instRetired → c.specTotal ≠ 0) := by
  constructor
  · rintro ⟨m, run⟩ hc hr zero
    rw [(topDownAnalysis_run hc hr).1 zero] at run
    cases run
  · intro h
    by_cases idle : c.cpuCycles ≤ 0 ∨ c.instRetired ≤ 0
    · exact ⟨.zero, topDownAnalysis_zero idle⟩
    · rw [not_or, not_le, not_le] at idle
      exact (topDownAnalysis_run idle.1 idle.2).2 (h idle.1 idle.2)

end MorelloWorkloads.TopDown
