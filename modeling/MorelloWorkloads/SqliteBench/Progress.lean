import MorelloWorkloads.SqliteBench.Benchmarks
import MorelloWorkloads.Lib.CheckedInt

/-! The progress lines of `finished_single_op`: at round numbers of operations, which
get rarer as the run gets longer. -/
namespace MorelloWorkloads.SqliteBench
open CheckedInt CountedLoop

/-- The numbers of operations at which a line is due. -/
def Milestone (d : ℤ) : Prop :=
  100 ≤ d ∧ (d ≤ 1000 → d % 100 = 0) ∧ (1000 < d → d ≤ 5000 → d % 500 = 0) ∧
    (5000 < d → d ≤ 10000 → d % 1000 = 0) ∧ (10000 < d → d ≤ 50000 → d % 5000 = 0) ∧
    (50000 < d → d ≤ 100000 → d % 10000 = 0) ∧ (100000 < d → d ≤ 500000 → d % 50000 = 0) ∧
    (500000 < d → d % 100000 = 0)

instance : DecidablePred Milestone := fun _ => inferInstanceAs (Decidable (_ ∧ _))

/-- The operations at which the next `n` calls print a line. `none` is an overflow. -/
def progressLines : ℕ → State → Option (List ℤ)
  | 0, _ => some []
  | n + 1, s => do
    let done ← int (s.done + 1)
    if done ≥ s.nextReport then
      let _ ← int (laterReport s.nextReport)
      let lines ← progressLines n (tick s)
      return done :: lines
    else progressLines n (tick s)

/-- The last milestone that an `int` holds, after which there is no next one. -/
def lastReport : ℤ := 2147400000

/-- The next report is the first milestone that has not been reached. -/
structure Counting (s : State) : Prop where
  ahead : s.done < s.nextReport
  milestone : Milestone s.nextReport
  first : ∀ d, s.done < d → d < s.nextReport → ¬ Milestone d

theorem laterReport_next {m : ℤ} (milestone : Milestone m) :
    m < laterReport m ∧ Milestone (laterReport m) ∧ ∀ d, m < d → d < laterReport m → ¬ Milestone d := by
  unfold Milestone at milestone ⊢
  unfold laterReport
  split_ifs
  all_goals
    refine ⟨by omega, by omega, fun d above below => ?_⟩
    omega

theorem start_counting (s : State) : Counting (start s) where
  ahead := by simp [start]
  milestone := show Milestone 100 by decide
  first d _ below := by
    simp only [start] at below
    simp only [Milestone]
    omega

/-- A line is due exactly when the operation is a milestone. -/
theorem due_iff {s : State} (counting : Counting s) : s.done + 1 ≥ s.nextReport ↔ Milestone (s.done + 1) := by
  constructor
  · intro due
    have here : s.done + 1 = s.nextReport := by
      have := counting.ahead
      omega
    rw [here]
    exact counting.milestone
  · intro milestone
    by_contra early
    exact counting.first (s.done + 1) (by omega) (by omega) milestone

theorem tick_counting {s : State} (counting : Counting s) : Counting (tick s) := by
  have ahead := counting.ahead
  by_cases due : s.done + 1 ≥ s.nextReport
  · have here : s.done + 1 = s.nextReport := by omega
    obtain ⟨later, milestone, first⟩ := laterReport_next counting.milestone
    have next : (tick s).nextReport = laterReport s.nextReport := if_pos due
    have done : (tick s).done = s.nextReport := here
    exact ⟨by rw [next, done]; exact later, by rw [next]; exact milestone, by rwa [next, done]⟩
  · have next : (tick s).nextReport = s.nextReport := if_neg due
    have done : (tick s).done = s.done + 1 := rfl
    refine ⟨by rw [next, done]; omega, by rw [next]; exact counting.milestone, ?_⟩
    intro d above below
    rw [next] at below
    rw [done] at above
    exact counting.first d (by omega) below

theorem lastReport_milestone : Milestone lastReport := by decide

/-- Only the step from the last milestone overflows. -/
theorem laterReport_int {m : ℤ} (milestone : Milestone m) (below : m < lastReport) :
    int (laterReport m) = some (laterReport m) := by
  obtain ⟨later, -, first⟩ := laterReport_next milestone
  have low := milestone.1
  have next : laterReport m ≤ lastReport := by
    by_contra beyond
    exact first lastReport below (not_le.mp beyond) lastReport_milestone
  simp only [lastReport] at next
  apply int_eq
  simp only [InInt, intMax]
  omega

theorem laterReport_overflow : int (laterReport lastReport) = none := by decide

theorem progressLines_eq {s : State} (counting : Counting s) (nonneg : 0 ≤ s.done) (n : ℕ)
    (below : s.done < lastReport) : progressLines n s =
      if s.done + n < lastReport then some ((trips (s.done + 1) (s.done + 1 + n) 1).filter Milestone)
      else none := by
  induction n generalizing s with
  | zero => simp [progressLines, trips_nil, below]
  | succ n ih =>
    have done : int (s.done + 1) = some (s.done + 1) := by
      simp only [lastReport] at below
      apply int_eq
      simp only [InInt, intMax]
      omega
    by_cases last : s.done + 1 = lastReport
    · have due : s.done + 1 ≥ s.nextReport := (due_iff counting).mpr (last ▸ lastReport_milestone)
      have here : s.nextReport = lastReport := by
        have ahead := counting.ahead
        omega
      rw [progressLines, done, if_neg (by push_cast; omega)]
      rw [here] at due ⊢
      simp only [Option.bind_eq_bind, Option.bind_some, if_pos due, laterReport_overflow, Option.bind_none]
    · have rest := ih (s := tick s) (tick_counting counting)
        (show 0 ≤ s.done + 1 by omega) (show s.done + 1 < lastReport by omega)
      have next : (tick s).done = s.done + 1 := rfl
      have ends : s.done + 1 + 1 + (n : ℤ) = s.done + 1 + ((n + 1 : ℕ) : ℤ) := by
        push_cast
        ring
      have sum : s.done + 1 + (n : ℤ) = s.done + ((n + 1 : ℕ) : ℤ) := by
        push_cast
        ring
      rw [next, ends, sum] at rest
      rw [trips_cons one_pos (by push_cast; omega), List.filter_cons, progressLines, done]
      simp only [Option.bind_eq_bind, Option.bind_some, rest]
      by_cases due : s.done + 1 ≥ s.nextReport
      · have milestone := (due_iff counting).mp due
        have here : s.nextReport = s.done + 1 := by
          have ahead := counting.ahead
          omega
        have later := laterReport_int (here ▸ counting.milestone) (show s.done + 1 < lastReport by omega)
        rw [here] at due ⊢
        simp only [if_pos due, later, milestone, decide_true, if_true, Option.bind_some]
        split
        · rfl
        · rfl
      · have early := mt (due_iff counting).mpr due
        simp only [if_neg due, early, decide_false, Bool.false_eq_true, if_false]

/-- From a start on, the progress lines name the milestones that are reached, each
once and in order, until the next one is no `int`. -/
theorem progressLines_start (s : State) (n : ℕ) : progressLines n (start s) =
    if n < lastReport then some ((trips 1 (n + 1) 1).filter Milestone) else none := by
  rw [progressLines_eq (start_counting s) le_rfl n (show (0 : ℤ) < lastReport by decide)]
  have zero : (start s).done = 0 := rfl
  rw [zero, zero_add, zero_add, add_comm 1 (n : ℤ)]

end MorelloWorkloads.SqliteBench
