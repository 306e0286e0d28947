import Mathlib.Algebra.BigOperators.Group.List.Basic
import Mathlib.Data.Int.ConditionallyCompleteOrder
import Mathlib.Data.Int.Interval
import Mathlib.Tactic.Linarith
import Mathlib.Tactic.Ring

/-! Counted loops over the integers: `for (v = lo; v < hi; v += step)`. The
values the variable takes form a list, so a loop is a fold over that list. -/
namespace CountedLoop

variable {σ : Type*}

/-- How often the body runs; the step is positive in every use. -/
def tripCount (lo hi step : ℤ) : ℕ := ((hi - lo + step - 1) / step).toNat

/-- The values of the loop variable, in order. -/
def trips (lo hi step : ℤ) : List ℤ :=
  (List.range (tripCount lo hi step)).map fun k : ℕ => lo + step * k

def loop (lo hi step : ℤ) (s : σ) (body : σ → ℤ → σ) : σ :=
  (trips lo hi step).foldl body s

/-- The same loop when its body can fail. -/
def loopM (lo hi step : ℤ) (s : σ) (body : σ → ℤ → Option σ) : Option σ :=
  (trips lo hi step).foldlM body s

theorem tripCount_eq_zero {lo hi step : ℤ} (hs : 0 < step) (h : hi ≤ lo) :
    tripCount lo hi step = 0 := by
  have hlt : (hi - lo + step - 1) / step < 1 := by
    rw [Int.ediv_lt_iff_lt_mul hs]
    omega
  simp only [tripCount]
  omega

theorem tripCount_succ {lo hi step : ℤ} (hs : 0 < step) (h : lo < hi) :
    tripCount lo hi step = tripCount (lo + step) hi step + 1 := by
  have hd : (hi - lo + step - 1) / step = (hi - (lo + step) + step - 1) / step + 1 := by
    rw [show hi - lo + step - 1 = (hi - (lo + step) + step - 1) + 1 * step by ring,
      Int.add_mul_ediv_right _ _ (by omega)]
  have hn : 0 ≤ (hi - (lo + step) + step - 1) / step := Int.ediv_nonneg (by omega) (by omega)
  simp only [tripCount, hd]
  omega

theorem trips_nil {lo hi step : ℤ} (hs : 0 < step) (h : hi ≤ lo) : trips lo hi step = [] := by
  simp [trips, tripCount_eq_zero hs h]

theorem trips_cons {lo hi step : ℤ} (hs : 0 < step) (h : lo < hi) :
    trips lo hi step = lo :: trips (lo + step) hi step := by
  simp only [trips, tripCount_succ hs h, List.range_succ_eq_map, List.map_cons, List.map_map]
  congr 1
  · simp
  · apply List.map_congr_left
    intro k _
    simp only [Function.comp_apply, Nat.cast_succ]
    ring

/-- Induction along the loop variable, upwards to the bound. -/
theorem trips_induction (hi : ℤ) {step : ℤ} (hs : 0 < step) {P : ℤ → Prop}
    (done : ∀ lo, hi ≤ lo → P lo) (next : ∀ lo, lo < hi → P (lo + step) → P lo) :
    ∀ lo, P lo := by
  intro lo
  generalize hd : (hi - lo).toNat = remaining
  induction remaining using Nat.strongRecOn generalizing lo with
  | ind remaining ih =>
    by_cases h : lo < hi
    · exact next lo h (ih _ (by omega) (lo + step) rfl)
    · exact done lo (by omega)

theorem mem_trips {lo hi step v : ℤ} (hs : 0 < step) :
    v ∈ trips lo hi step ↔ ∃ k : ℕ, v = lo + step * k ∧ v < hi := by
  simp only [trips, List.mem_map, List.mem_range, tripCount]
  have bound (k : ℕ) : k < ((hi - lo + step - 1) / step).toNat ↔ lo + step * k < hi := by
    have : (k : ℤ) + 1 ≤ (hi - lo + step - 1) / step ↔ ((k : ℤ) + 1) * step ≤ hi - lo + step - 1 :=
      Int.le_ediv_iff_mul_le hs
    rw [show ((k : ℤ) + 1) * step = step * k + step by ring] at this
    omega
  constructor
  · rintro ⟨k, hk, rfl⟩
    exact ⟨k, rfl, (bound k).mp hk⟩
  · rintro ⟨k, rfl, hv⟩
    exact ⟨k, (bound k).mpr hv, rfl⟩

theorem mem_trips_one {lo hi v : ℤ} : v ∈ trips lo hi 1 ↔ lo ≤ v ∧ v < hi := by
  rw [mem_trips one_pos]
  constructor
  · rintro ⟨k, rfl, hv⟩
    exact ⟨by omega, hv⟩
  · rintro ⟨hl, hh⟩
    exact ⟨(v - lo).toNat, by omega, hh⟩

theorem length_trips_one (lo hi : ℤ) : (trips lo hi 1).length = (hi - lo).toNat := by
  simp [trips, tripCount]

theorem trips_nodup {lo hi step : ℤ} (hs : 0 < step) : (trips lo hi step).Nodup := by
  apply List.Nodup.map _ List.nodup_range
  intro a b hab
  have : step * (a : ℤ) = step * b := by simpa using hab
  exact_mod_cast mul_left_cancel₀ (by omega) this

theorem trips_toFinset (lo hi : ℤ) : (trips lo hi 1).toFinset = Finset.Ico lo hi := by
  ext v
  simp [mem_trips_one]

theorem trips_map_add (lo hi shift : ℤ) :
    (trips lo hi 1).map (· + shift) = trips (lo + shift) (hi + shift) 1 := by
  induction lo using trips_induction hi one_pos with
  | done lo h => simp [trips_nil one_pos h, trips_nil one_pos (show hi + shift ≤ lo + shift by omega)]
  | next lo h ih =>
    rw [trips_cons one_pos h, trips_cons one_pos (show lo + shift < hi + shift by omega),
      List.map_cons, ih]
    congr 2
    ring

theorem trips_append {lo mid hi : ℤ} (h₁ : lo ≤ mid) (h₂ : mid ≤ hi) :
    trips lo mid 1 ++ trips mid hi 1 = trips lo hi 1 := by
  induction lo using trips_induction mid one_pos with
  | done lo h =>
    obtain rfl : lo = mid := le_antisymm h₁ h
    simp [trips_nil one_pos le_rfl]
  | next lo h ih =>
    rw [trips_cons one_pos h, trips_cons one_pos (show lo < hi by omega), List.cons_append,
      ih (by omega)]

theorem head_map_trips {β : Type*} {lo hi : ℤ} (h : lo < hi) (f : ℤ → β) :
    ((trips lo hi 1).map f).head? = some (f lo) := by
  rw [trips_cons one_pos h, List.map_cons, List.head?_cons]

/-- A loop nest over rows of one width visits the flat positions in order. -/
theorem trips_rowMajor {lo hi width : ℤ} (hw : 0 ≤ width) :
    (trips lo hi 1).flatMap (fun y => (trips 0 width 1).map fun x => x + y * width) =
      trips (lo * width) (hi * width) 1 := by
  induction lo using trips_induction hi one_pos with
  | done lo h => simp [trips_nil one_pos h, trips_nil one_pos (mul_le_mul_of_nonneg_right h hw)]
  | next lo h ih =>
    have hle : (lo + 1) * width ≤ hi * width := mul_le_mul_of_nonneg_right (by omega) hw
    have hone : lo * width ≤ (lo + 1) * width := mul_le_mul_of_nonneg_right (by omega) hw
    rw [trips_cons one_pos h, List.flatMap_cons, ih, trips_map_add, zero_add,
      show width + lo * width = (lo + 1) * width by ring, trips_append hone hle]

/-- A strided sweep visits the multiples of its stride. -/
theorem trips_stride {step : ℤ} (hs : 0 < step) (lo hi : ℤ) :
    trips (step * lo) (step * hi) step = (trips lo hi 1).map (step * ·) := by
  induction lo using trips_induction hi one_pos with
  | done lo h =>
    simp [trips_nil one_pos h, trips_nil hs (mul_le_mul_of_nonneg_left h hs.le)]
  | next lo h ih =>
    rw [trips_cons one_pos h, trips_cons hs (mul_lt_mul_of_pos_left h hs), List.map_cons, ← ih]
    congr 2
    ring

/-- What a strided loop from zero covers, in whole strides. -/
theorem trips_covered {hi step : ℤ} (hs : 0 < step) :
    trips 0 hi step = trips 0 (step * ((hi + step - 1) / step)) step := by
  have count : (step * ((hi + step - 1) / step) + step - 1) / step = (hi + step - 1) / step := by
    rw [show step * ((hi + step - 1) / step) + step - 1 =
      (step - 1) + step * ((hi + step - 1) / step) by ring, Int.add_mul_ediv_left _ _ hs.ne',
      Int.ediv_eq_zero_of_lt (by omega) (by omega), zero_add]
  simp only [trips, tripCount, sub_zero, count]

theorem covered_eq_iff {hi step : ℤ} (hs : 0 < step) :
    step * ((hi + step - 1) / step) = hi ↔ step ∣ hi := by
  constructor
  · intro whole
    exact ⟨_, whole.symm⟩
  · rintro ⟨m, rfl⟩
    rw [show step * m + step - 1 = (step - 1) + step * m by ring, Int.add_mul_ediv_left _ _ hs.ne',
      Int.ediv_eq_zero_of_lt (by omega) (by omega), zero_add]

/-- No stride of the loop passes the bound exactly when it is a multiple. -/
theorem strides_fit_iff {hi step : ℤ} (hs : 0 < step) (hi0 : 0 ≤ hi) :
    (∀ v ∈ trips 0 hi step, v + step ≤ hi) ↔ step ∣ hi := by
  constructor
  · intro fit
    have parts := Int.emod_add_mul_ediv hi step
    have small := Int.emod_lt_of_pos hi hs
    cases (Int.emod_nonneg hi hs.ne').eq_or_lt with
    | inl zero =>
      exact Int.dvd_of_emod_eq_zero zero.symm
    | inr rest =>
      have last : step * (hi / step) ∈ trips 0 hi step := by
        rw [mem_trips hs]
        refine ⟨(hi / step).toNat, ?_, by omega⟩
        rw [Int.toNat_of_nonneg (Int.ediv_nonneg hi0 hs.le), zero_add]
      have := fit _ last
      omega
  · rintro ⟨m, rfl⟩ v hv
    obtain ⟨k, rfl, lt⟩ := (mem_trips hs).mp hv
    rw [zero_add] at lt ⊢
    have hk : (k : ℤ) + 1 ≤ m := lt_of_mul_lt_mul_left lt hs.le
    calc step * k + step = step * (k + 1) := by ring
      _ ≤ step * m := mul_le_mul_of_nonneg_left hk hs.le

/-- What every pass keeps, of the values taken so far and the state, holds at
the end; and a pass that keeps it is defined. -/
theorem loopM_run {lo hi step : ℤ} {f : σ → ℤ → Option σ} (inv : List ℤ → σ → Prop)
    (pass : ∀ taken s, ∀ v ∈ trips lo hi step, inv taken s →
      ∃ s', f s v = some s' ∧ inv (taken ++ [v]) s') {s : σ} (start : inv [] s) :
    ∃ s', loopM lo hi step s f = some s' ∧ inv (trips lo hi step) s' := by
  have run (left taken : List ℤ) (values : trips lo hi step = taken ++ left) (s : σ)
      (holds : inv taken s) : ∃ s', left.foldlM f s = some s' ∧ inv (trips lo hi step) s' := by
    induction left generalizing taken s with
    | nil =>
      rw [List.append_nil] at values
      exact ⟨s, rfl, values ▸ holds⟩
    | cons v vs ih =>
      have member : v ∈ trips lo hi step := by
        rw [values]
        exact List.mem_append_right _ List.mem_cons_self
      obtain ⟨mid, here, kept⟩ := pass taken s v member holds
      obtain ⟨s', rest, final⟩ := ih (taken ++ [v]) (by simp [values]) mid kept
      refine ⟨s', ?_, final⟩
      rw [List.foldlM_cons, here]
      exact rest
  exact run (trips lo hi step) [] rfl s start

/-- A loop none of whose passes fails. -/
theorem loopM_total {lo hi step : ℤ} {f : σ → ℤ → Option σ} {body : σ → ℤ → σ}
    (total : ∀ s, ∀ v ∈ trips lo hi step, f s v = some (body s v)) (s : σ) :
    loopM lo hi step s f = some (loop lo hi step s body) := by
  unfold loopM loop
  generalize trips lo hi step = l at total
  induction l generalizing s with
  | nil => rfl
  | cons v vs ih =>
    rw [List.foldlM_cons, total s v List.mem_cons_self, List.foldl_cons]
    exact ih (body s v) fun s w hw => total s w (List.mem_cons_of_mem v hw)

theorem loop_run {lo hi step : ℤ} {body : σ → ℤ → σ} (inv : List ℤ → σ → Prop)
    (pass : ∀ taken s, ∀ v ∈ trips lo hi step, inv taken s → inv (taken ++ [v]) (body s v)) {s : σ}
    (start : inv [] s) : inv (trips lo hi step) (loop lo hi step s body) := by
  obtain ⟨s', run, holds⟩ :=
    loopM_run inv (fun taken s v hv h => ⟨body s v, rfl, pass taken s v hv h⟩) start
  rw [loopM_total (fun _ _ _ => rfl)] at run
  rwa [Option.some.inj run]

/-- The same rule for a loop of unit step, whose variable counts its passes. -/
theorem loopM_upto {lo hi : ℤ} (le : lo ≤ hi) {f : σ → ℤ → Option σ} (inv : ℤ → σ → Prop)
    (pass : ∀ v s, lo ≤ v → v < hi → inv v s → ∃ s', f s v = some s' ∧ inv (v + 1) s') {s : σ}
    (start : inv lo s) : ∃ s', loopM lo hi 1 s f = some s' ∧ inv hi s' := by
  unfold loopM
  induction lo using trips_induction hi one_pos generalizing s with
  | done lo h =>
    obtain rfl : lo = hi := le_antisymm le h
    rw [trips_nil one_pos le_rfl]
    exact ⟨s, rfl, start⟩
  | next lo h ih =>
    obtain ⟨mid, here, kept⟩ := pass lo s le_rfl h start
    obtain ⟨s', rest, final⟩ :=
      ih (by omega) (fun v s hv => pass v s (by omega)) kept
    refine ⟨s', ?_, final⟩
    rw [trips_cons one_pos h, List.foldlM_cons, here]
    exact rest

/-- What the passes that are defined keep holds at the end of a loop that is. -/
theorem loopM_keeps {lo hi step : ℤ} {f : σ → ℤ → Option σ} {inv : σ → Prop}
    (pass : ∀ s v s', f s v = some s' → inv s → inv s') {s s' : σ}
    (run : loopM lo hi step s f = some s') (start : inv s) : inv s' := by
  unfold loopM at run
  generalize trips lo hi step = values at run
  induction values generalizing s with
  | nil =>
    obtain rfl : s = s' := Option.some.inj run
    exact start
  | cons v vs ih =>
    rw [List.foldlM_cons] at run
    obtain ⟨mid, here, rest⟩ := Option.bind_eq_some_iff.mp run
    exact ih (pass s v mid here start) rest

/-- A loop whose body fails on certain values only, whatever the state, is
defined when it takes none of them. -/
theorem loopM_defined_iff {lo hi step : ℤ} {f : σ → ℤ → Option σ} {ok : ℤ → Prop}
    (body : ∀ s v, (∃ s', f s v = some s') ↔ ok v) (s : σ) :
    (∃ s', loopM lo hi step s f = some s') ↔ ∀ v ∈ trips lo hi step, ok v := by
  unfold loopM
  induction trips lo hi step generalizing s with
  | nil => simp
  | cons v vs ih =>
    rw [List.foldlM_cons, List.forall_mem_cons, ← body s v]
    constructor
    · intro ⟨s', run⟩
      obtain ⟨mid, first, rest⟩ := Option.bind_eq_some_iff.mp run
      exact ⟨⟨mid, first⟩, (ih mid).mp ⟨s', rest⟩⟩
    · intro ⟨⟨mid, first⟩, others⟩
      obtain ⟨s', rest⟩ := (ih mid).mpr others
      exact ⟨s', Option.bind_eq_some_iff.mpr ⟨mid, first, rest⟩⟩

/-- Bodies that agree on the values the variable takes make the same loop. -/
theorem loopM_congr {lo hi step : ℤ} {f f' : σ → ℤ → Option σ}
    (h : ∀ s, ∀ v ∈ trips lo hi step, f s v = f' s v) (s : σ) :
    loopM lo hi step s f = loopM lo hi step s f' := by
  unfold loopM
  generalize trips lo hi step = l at h
  induction l generalizing s with
  | nil => rfl
  | cons v vs ih =>
    rw [List.foldlM_cons, List.foldlM_cons, h s v List.mem_cons_self]
    cases f' s v with
    | none => rfl
    | some s' => exact ih s' fun s w hw => h s w (List.mem_cons_of_mem v hw)

/-- A part of the state whose value after each pass is known beforehand runs alongside. -/
theorem loopM_alongside {τ : Type*} {lo hi : ℤ} (le : lo ≤ hi) (known : ℤ → τ)
    {f : σ × τ → ℤ → Option (σ × τ)} {body : σ → ℤ → Option σ}
    (pass : ∀ s v, lo ≤ v → v < hi → f (s, known v) v = (body s v).map fun s => (s, known (v + 1)))
    (s : σ) : loopM lo hi 1 (s, known lo) f = (loopM lo hi 1 s body).map fun s => (s, known hi) := by
  unfold loopM
  induction lo using trips_induction hi one_pos generalizing s with
  | done lo h =>
    obtain rfl : lo = hi := le_antisymm le h
    rw [trips_nil one_pos le_rfl]
    rfl
  | next lo h ih =>
    have later := ih (by omega) fun s v hv => pass s v (by omega)
    rw [trips_cons one_pos h, List.foldlM_cons, List.foldlM_cons, pass s lo le_rfl h]
    cases body s lo with
    | none => rfl
    | some mid => exact later mid

/-- A nest of folds is one fold over what it visits. -/
theorem foldlM_flatMap {α β : Type*} (f : σ → β → Option σ) (rows : α → List β) (l : List α) (s : σ) :
    (l.flatMap rows).foldlM f s = l.foldlM (fun s a => (rows a).foldlM f s) s := by
  induction l generalizing s with
  | nil => rfl
  | cons a as ih =>
    rw [List.flatMap_cons, List.foldlM_append, List.foldlM_cons]
    congr 1
    funext s'
    exact ih s'

/-- A loop over flat positions is a nest of a loop over rows and one along them. -/
theorem loopM_rowMajor {lo hi width : ℤ} (hw : 0 ≤ width) (s : σ) (f : σ → ℤ → Option σ) :
    loopM (lo * width) (hi * width) 1 s f =
      loopM lo hi 1 s fun s y => loopM 0 width 1 s fun s x => f s (x + y * width) := by
  unfold loopM
  rw [← trips_rowMajor hw, foldlM_flatMap]
  simp only [List.foldlM_map]

end CountedLoop
