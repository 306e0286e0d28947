import MorelloWorkloads.Lib.CountedLoop

/-! Arithmetic of the type `int`, whose overflow is undefined, and the `for`
loops that it drives. A loop that has not ended within its fuel has no result. -/
namespace CheckedInt
open CountedLoop

variable {σ : Type}

def intMax : ℤ := 2 ^ 31 - 1

/-- The values of an `int`. -/
def InInt (x : ℤ) : Prop := -2 ^ 31 ≤ x ∧ x ≤ intMax

instance : DecidablePred InInt := fun _ => inferInstanceAs (Decidable (_ ∧ _))

/-- The result of an `int` operation. -/
def int (x : ℤ) : Option ℤ := if InInt x then some x else none

/-- An `int` stored in a `size_t`. -/
def toSize (x : ℤ) : ℤ := x % 2 ^ 64

/-- A `size_t` stored in an `int`. -/
def ofSize (x : ℤ) : ℤ := x.bmod (2 ^ 32)

/-- `for (v = start; test; v += step) body`, where the test may itself compute. -/
def forLoop (step : ℤ) (test : ℤ → Option Bool) (body : σ → ℤ → Option σ) :
    ℕ → ℤ → σ → Option σ
  | 0, _, _ => none
  | fuel + 1, v, s => do
    if ← test v then
      let s ← body s v
      let v ← int (v + step)
      forLoop step test body fuel v s
    else return s

theorem int_eq {x : ℤ} (inside : InInt x) : int x = some x := if_pos inside

theorem int_eq_none {x : ℤ} (outside : ¬ InInt x) : int x = none := if_neg outside

theorem toSize_eq {x : ℤ} (low : 0 ≤ x) (high : x < 2 ^ 64) : toSize x = x := Int.emod_eq_of_lt low high

theorem ofSize_eq {x : ℤ} (low : 0 ≤ x) (high : x ≤ intMax) : ofSize x = x := by
  simp only [intMax] at high
  rw [ofSize, Int.bmod_eq_of_le (by omega) (by omega)]

/-- With enough fuel, and no increment that overflows, the loop is the one over
the integers. -/
theorem forLoop_eq {hi step : ℤ} (hs : 0 < step) {test : ℤ → Option Bool}
    (ends : ∀ v, test v = some (decide (v < hi))) (body : σ → ℤ → Option σ) {lo : ℤ}
    (inside : ∀ v ∈ trips lo hi step, InInt (v + step)) {fuel : ℕ}
    (enough : tripCount lo hi step < fuel) (s : σ) :
    forLoop step test body fuel lo s = loopM lo hi step s body := by
  induction fuel generalizing lo s with
  | zero => omega
  | succ fuel ih =>
    by_cases h : lo < hi
    · have count := tripCount_succ hs h
      rw [trips_cons hs h] at inside
      have next (s : σ) : forLoop step test body fuel (lo + step) s = loopM (lo + step) hi step s body :=
        ih (fun v hv => inside v (List.mem_cons_of_mem lo hv)) (by omega) s
      rw [forLoop, ends, loopM, trips_cons hs h, List.foldlM_cons]
      simp only [h, int_eq (inside lo List.mem_cons_self), next, loopM, decide_true,
        Option.bind_eq_bind, Option.bind_some, if_true]
    · rw [forLoop, ends, loopM, trips_nil hs (not_lt.mp h)]
      simp [h]

/-- Steps of one below a bound that is an `int`. -/
theorem increments_one {lo hi : ℤ} (low : -2 ^ 31 ≤ lo) (high : hi ≤ intMax) :
    ∀ v ∈ trips lo hi 1, InInt (v + 1) := by
  intro v hv
  have inside := mem_trips_one.mp hv
  exact ⟨by omega, by omega⟩

/-- A strided loop from zero: past its first value the stride is below the bound. -/
theorem increments_fit {hi step : ℤ} (hs : 0 < step) (small : step ≤ intMax) (half : 2 * hi ≤ intMax) :
    ∀ v ∈ trips 0 hi step, InInt (v + step) := by
  intro v hv
  obtain ⟨k, rfl, below⟩ := (mem_trips hs).mp hv
  rcases Nat.eq_zero_or_pos k with rfl | later
  · exact ⟨by simp; omega, by simpa using small⟩
  · have stride : step * 1 ≤ step * (k : ℤ) := mul_le_mul_of_nonneg_left (by omega) hs.le
    exact ⟨by omega, by omega⟩

theorem tripCount_le {lo hi step : ℤ} (hs : 0 < step) : tripCount lo hi step ≤ (hi - lo).toNat := by
  by_cases h : lo < hi
  · have rounded : (hi - lo + step - 1) / step ≤ hi - lo := by
      have stride : (hi - lo) * 1 ≤ (hi - lo) * step := mul_le_mul_of_nonneg_left hs (by omega)
      have whole : hi - lo + step - 1 < (hi - lo + 1) * step := by
        rw [add_mul, one_mul]
        omega
      exact Int.lt_add_one_iff.mp (Int.ediv_lt_of_lt_mul hs whole)
    simp only [tripCount]
    omega
  · rw [tripCount_eq_zero hs (not_lt.mp h)]
    exact Nat.zero_le _

/-- A loop over `int` whose passes are all defined. -/
theorem forLoop_total {lo hi step : ℤ} (hs : 0 < step) {test : ℤ → Option Bool}
    (ends : ∀ v, test v = some (decide (v < hi)))
    (inside : ∀ v ∈ trips lo hi step, InInt (v + step)) {fuel : ℕ} (enough : (hi - lo).toNat < fuel)
    {f : σ → ℤ → Option σ} {body : σ → ℤ → σ}
    (total : ∀ s, ∀ v ∈ trips lo hi step, f s v = some (body s v)) (s : σ) :
    forLoop step test f fuel lo s = some (loop lo hi step s body) := by
  rw [forLoop_eq hs ends f inside (lt_of_le_of_lt (tripCount_le hs) enough)]
  exact loopM_total total s

end CheckedInt
