import MorelloWorkloads.TopDown.Checks
import MorelloWorkloads.TopDown.Totality

/-! The split of the backend by the instruction mix, as one formula: memory and
core get their shares of `max instSpec (ld + st + dp)`, and the tolerance of the
renormalization decides whether the rest is given out too. -/
namespace MorelloWorkloads.TopDown

/-- The split before its parts are compared with the whole. -/
def unnormalizedSplit (c : Counters) (backendBound : ℚ) : Except PyError (ℚ × ℚ) := do
  let (memInstRatio, coreInstRatio) ← mixRatios c
  if c.stallBackend > 0 then
    return (backendBound * memInstRatio, backendBound * coreInstRatio)
  else return (0, backendBound)

theorem instructionMixSplit_eq (c : Counters) (whole : ℚ) : instructionMixSplit c whole = (do
    let (memoryBound, coreBound) ← unnormalizedSplit c whole
    renormalize whole memoryBound coreBound) := by
  unfold instructionMixSplit unnormalizedSplit
  cases mixRatios c with
  | error e => rfl
  | ok ratios =>
    dsimp only [bind, Except.bind]
    split <;> rfl

/-- The parts miss the whole by more than the tolerance. -/
def RenormalizationTaken (c : Counters) (backendBound : ℚ) : Prop :=
  ∃ memory core, unnormalizedSplit c backendBound = .ok (memory, core) ∧
    |(memory + core) - backendBound| > 0.001

/-- The mix ratios sum to more than 1. -/
def RatiosExceed (c : Counters) : Prop :=
  (c.ldSpec + c.stSpec) / c.instSpec + c.dpSpec / c.instSpec > 1

/-- Both branches of the normalization divide by the larger total. -/
theorem mixRatios_eq {c : Counters} (hi : 0 < c.instSpec) :
    mixRatios c = .ok ((c.ldSpec + c.stSpec) / max c.instSpec (c.ldSpec + c.stSpec + c.dpSpec),
      c.dpSpec / max c.instSpec (c.ldSpec + c.stSpec + c.dpSpec)) := by
  simp only [mixRatios, div_ok hi.ne']
  dsimp only [bind, Except.bind]
  rw [← add_div]
  split
  · rename_i exceeds
    have more : c.instSpec < c.ldSpec + c.stSpec + c.dpSpec := (one_lt_div hi).mp exceeds
    have total : 0 < c.ldSpec + c.stSpec + c.dpSpec := hi.trans more
    rw [div_ok (by positivity), div_ok (by positivity), max_eq_right more.le,
      div_div_div_cancel_right₀ hi.ne', div_div_div_cancel_right₀ hi.ne']
    rfl
  · rename_i fits
    have less : c.ldSpec + c.stSpec + c.dpSpec ≤ c.instSpec := (div_le_one hi).mp (not_lt.mp fits)
    rw [max_eq_left less]
    rfl

theorem unnormalizedSplit_eq {c : Counters} (h : Plausible c) (hi : 0 < c.instSpec) :
    unnormalizedSplit c (c.stallBackend / c.cpuCycles) =
      .ok (c.stallBackend / c.cpuCycles *
          ((c.ldSpec + c.stSpec) / max c.instSpec (c.ldSpec + c.stSpec + c.dpSpec)),
        c.stallBackend / c.cpuCycles *
          (c.dpSpec / max c.instSpec (c.ldSpec + c.stSpec + c.dpSpec))) := by
  simp only [unnormalizedSplit, mixRatios_eq hi]
  dsimp only [bind, Except.bind]
  split
  · rfl
  · rename_i idle
    have zero : c.stallBackend = 0 := le_antisymm (not_lt.mp idle) h.stallBackend_nonneg
    rw [zero, zero_div, zero_mul, zero_mul]
    rfl

/-- What the tolerance leaves out of one share is no more than what it leaves
out of the whole. -/
theorem share_error {whole a b total : ℚ} (ha : 0 ≤ a) (hb : 0 ≤ b) (sum : 0 < a + b) :
    |whole * (a / total) - whole * a / (a + b)| ≤ |whole * ((a + b) / total) - whole| := by
  have gap : whole * (a / total) - whole * a / (a + b) =
      a / (a + b) * (whole * ((a + b) / total) - whole) := by
    field_simp
  have share : |a / (a + b)| ≤ 1 := by
    rw [abs_of_nonneg (div_nonneg ha sum.le)]
    exact (div_le_one sum).mpr (by linarith)
  rw [gap, abs_mul]
  exact mul_le_of_le_one_left (abs_nonneg _) share

theorem scaled_pos_iff {whole sum total : ℚ} (hw : 0 ≤ whole) (hs : 0 ≤ sum) (ht : 0 < total) :
    0 < whole * (sum / total) ↔ 0 < whole ∧ 0 < sum := by
  constructor
  · intro pos
    refine ⟨hw.lt_of_ne fun zero => ?_, hs.lt_of_ne fun zero => ?_⟩
    · rw [← zero, zero_mul] at pos
      exact lt_irrefl 0 pos
    · rw [← zero, zero_div, mul_zero] at pos
      exact lt_irrefl 0 pos
  · intro ⟨hw, hs⟩
    positivity

/-- Renormalizing two parts in proportion `a : b` leaves them in proportion. -/
theorem renormalize_share {whole a b total : ℚ} (hw : 0 ≤ whole) (ha : 0 ≤ a) (hb : 0 ≤ b)
    (ht : 0 < total) (hab : a + b ≤ total) :
    ∃ memory core, renormalize whole (whole * (a / total)) (whole * (b / total)) = .ok (memory, core) ∧
      memory * b = core * a ∧
      (0 < a + b → |memory - whole * a / (a + b)| ≤ 0.001 ∧
        (|(whole * (a / total) + whole * (b / total)) - whole| > 0.001 ∨ total = a + b →
          memory = whole * a / (a + b))) := by
  have parts : whole * (a / total) + whole * (b / total) = whole * ((a + b) / total) := by ring
  have ratio : (a + b) / total ≤ 1 := (div_le_one ht).mpr hab
  unfold renormalize
  rw [parts]
  split
  · rename_i far
    dsimp only
    split
    · rename_i pos
      obtain ⟨hwp, sum⟩ := (scaled_pos_iff hw (add_nonneg ha hb) ht).mp pos
      have memory : whole * (a / total) * whole / (whole * ((a + b) / total)) =
          whole * a / (a + b) := by field_simp
      have core : whole * (b / total) * whole / (whole * ((a + b) / total)) =
          whole * b / (a + b) := by field_simp
      rw [div_ok pos.ne', div_ok pos.ne', memory, core]
      refine ⟨_, _, rfl, by ring, fun _ => ⟨?_, fun _ => rfl⟩⟩
      rw [sub_self, abs_zero]
      norm_num
    · rename_i empty
      have sum : ¬ 0 < a + b := by
        intro lt
        have idle : ¬ 0 < whole := fun hwp =>
          empty ((scaled_pos_iff hw (add_nonneg ha hb) ht).mpr ⟨hwp, lt⟩)
        have zero : whole = 0 := le_antisymm (not_lt.mp idle) hw
        rw [zero, zero_mul, sub_self, abs_zero] at far
        norm_num at far
      have az : a = 0 := by linarith
      exact ⟨_, _, rfl, by rw [az]; ring, fun lt => absurd lt sum⟩
  · rename_i near
    refine ⟨_, _, rfl, by ring, fun sum => ⟨?_, ?_⟩⟩
    · exact (share_error ha hb sum).trans (not_lt.mp near)
    · rintro (far | rfl)
      · exact absurd far near
      · ring

theorem backendSplit_of_run {c : Counters} (h : Plausible c) {m : Metrics}
    (run : topDownAnalysis c = .ok m) :
    m.backendBound = c.stallBackend / c.cpuCycles ∧
      backendSplit c m.backendBound = .ok (m.memoryBound, m.coreBound) := by
  obtain ⟨m', run', analysed⟩ := topDownAnalysis_analysed h
  obtain rfl : m = m' := Except.ok.inj (run.symm.trans run')
  refine ⟨analysed.backendBound, ?_⟩
  rw [analysed.backendBound]
  obtain ⟨⟨memory, core⟩, split⟩ := backendSplit_ok c (c.stallBackend / c.cpuCycles)
  obtain ⟨⟨l1, l2⟩, cache⟩ := cacheBounds_ok c memory
  obtain ⟨cheri, access⟩ := cheriMetrics_ok c.clampAccesses
  have busy : ¬ (c.cpuCycles ≤ 0 ∨ c.instRetired ≤ 0) := by
    rintro (le | le)
    · exact absurd h.cpuCycles (not_lt.mpr le)
    · exact absurd h.instRetired (not_lt.mpr le)
  simp only [topDownAnalysis, if_neg busy, h.clampStalls_eq, div_ok h.cpuCycles.ne',
    firstLevel_ok h] at run
  dsimp only [bind, Except.bind] at run
  simp only [split, cache, access] at run
  cases run
  exact split

/-- The split in one formula. -/
theorem backend_split_proportional {c : Counters} (hc : 0 < c.cpuCycles) (hr : 0 < c.instRetired)
    (nonneg : ∀ x ∈ c.toList, 0 ≤ x) (hi : 0 < c.instSpec) :
    ∃ m, topDownAnalysis c = .ok m ∧
      m.memoryBound * c.dpSpec = m.coreBound * (c.ldSpec + c.stSpec) ∧
      (0 < c.ldSpec + c.stSpec + c.dpSpec →
        |m.memoryBound - m.backendBound * (c.ldSpec + c.stSpec) /
          (c.ldSpec + c.stSpec + c.dpSpec)| ≤ 0.001 ∧
        (RenormalizationTaken c m.backendBound ∨ RatiosExceed c →
          m.memoryBound = m.backendBound * (c.ldSpec + c.stSpec) /
            (c.ldSpec + c.stSpec + c.dpSpec))) := by
  have h : Plausible c := ⟨hc, hr, nonneg, c.instSpec, by simp [Counters.specs], hi⟩
  have hd := h.dpSpec_nonneg
  have hm := add_nonneg h.ldSpec_nonneg h.stSpec_nonneg
  obtain ⟨m, run, -⟩ := topDownAnalysis_analysed h
  obtain ⟨whole, split⟩ := backendSplit_of_run h run
  have hw : 0 ≤ m.backendBound := by
    rw [whole]
    exact div_nonneg h.stallBackend_nonneg hc.le
  have parts := unnormalizedSplit_eq h hi
  rw [← whole] at parts
  obtain ⟨memory, core, renormalized, proportion, share⟩ :=
    renormalize_share hw hm hd (hi.trans_le (le_max_left _ (c.ldSpec + c.stSpec + c.dpSpec)))
      (le_max_right c.instSpec _)
  rw [backendSplit, if_pos hi, instructionMixSplit_eq, parts] at split
  obtain ⟨rfl, rfl⟩ := Prod.mk.inj (Except.ok.inj (renormalized.symm.trans split))
  refine ⟨m, run, proportion, fun sum => ⟨(share sum).1, fun taken => (share sum).2 ?_⟩⟩
  rcases taken with ⟨memory, core, eq, far⟩ | exceed
  · obtain ⟨rfl, rfl⟩ := Prod.mk.inj (Except.ok.inj (parts.symm.trans eq))
    exact .inl far
  · rw [RatiosExceed, ← add_div] at exceed
    exact .inr (max_eq_right ((one_lt_div hi).mp exceed).le)

/-- 40 of 100 cycles are split 24 to 16, by 30 memory and 20 core instructions. -/
theorem backend_split_proportional_halfRetired :
    ∃ m, topDownAnalysis (halfRetired 10) = .ok m ∧
      m.memoryBound * 20 = m.coreBound * (20 + 10) ∧
      |m.memoryBound - m.backendBound * (20 + 10) / (20 + 10 + 20)| ≤ 0.001 := by
  have valid : Plausible (halfRetired 10) := halfRetired_valid (by norm_num)
  obtain ⟨m, run, proportion, share⟩ := backend_split_proportional valid.cpuCycles
    valid.instRetired valid.nonneg (show 0 < (halfRetired 10).instSpec by norm_num [halfRetired])
  have sum : 0 < (halfRetired 10).ldSpec + (halfRetired 10).stSpec + (halfRetired 10).dpSpec := by
    norm_num [halfRetired]
  exact ⟨m, run, proportion, (share sum).1⟩

end MorelloWorkloads.TopDown
