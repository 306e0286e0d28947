import MorelloWorkloads.Lib.Buckets
import Mathlib.Algebra.Order.Floor.Ring
import Mathlib.Data.Rat.Floor

/-! `histogram.c`: latencies are counted in buckets, and percentiles are read from
the counts. Arithmetic is exact, and a division by zero has no result. -/
namespace MorelloWorkloads.SqliteBench
open Buckets

def kNumBuckets : ℕ := 154

/-- All limits are whole numbers. -/
def bucketLimits : List ℕ :=
  [1, 2, 3, 4, 5, 6, 7, 8, 9, 10, 12, 14, 16, 18, 20, 25, 30, 35, 40, 45, 50, 60, 70, 80, 90, 100,
   120, 140, 160, 180, 200, 250, 300, 350, 400, 450, 500, 600, 700, 800, 900, 1000, 1200, 1400,
   1600, 1800, 2000, 2500, 3000, 3500, 4000, 4500, 5000, 6000, 7000, 8000, 9000, 10000, 12000,
   14000, 16000, 18000, 20000, 25000, 30000, 35000, 40000, 45000, 50000, 60000, 70000, 80000,
   90000, 100000, 120000, 140000, 160000, 180000, 200000, 250000, 300000, 350000, 400000, 450000,
   500000, 600000, 700000, 800000, 900000, 1000000, 1200000, 1400000, 1600000, 1800000, 2000000,
   2500000, 3000000, 3500000, 4000000, 4500000, 5000000, 6000000, 7000000, 8000000, 9000000,
   10000000, 12000000, 14000000, 16000000, 18000000, 20000000, 25000000, 30000000, 35000000,
   40000000, 45000000, 50000000, 60000000, 70000000, 80000000, 90000000, 100000000, 120000000,
   140000000, 160000000, 180000000, 200000000, 250000000, 300000000, 350000000, 400000000,
   450000000, 500000000, 600000000, 700000000, 800000000, 900000000, 1000000000, 1200000000,
   1400000000, 1600000000, 1800000000, 2000000000, 2500000000, 3000000000, 3500000000, 4000000000,
   4500000000, 5000000000, 6000000000, 7000000000, 8000000000, 9000000000, 10 ^ 200]

def bucketLimit (b : ℕ) : ℚ := (bucketLimits.getD b 0 : ℕ)

structure Histogram where
  min : ℚ
  max : ℚ
  num : ℚ
  sum : ℚ
  sumSquares : ℚ
  buckets : ℕ → ℚ

def histogramClear (_ : Histogram) : Histogram where
  min := bucketLimit (kNumBuckets - 1)
  max := 0
  num := 0
  sum := 0
  sumSquares := 0
  buckets := fun _ => 0

/-- `while (b < kNumBuckets - 1 && bucket_limit[b] <= value) b++`, by the passes that
the first test leaves. -/
def findBucket (value : ℚ) : ℕ → ℕ → ℕ
  | 0, b => b
  | left + 1, b => if bucketLimit b ≤ value then findBucket value left (b + 1) else b

def bucketOf (value : ℚ) : ℕ := findBucket value (kNumBuckets - 1) 0

def histogramAdd (hist : Histogram) (value : ℚ) : Histogram where
  buckets := Function.update hist.buckets (bucketOf value) (hist.buckets (bucketOf value) + 1)
  min := if hist.min > value then value else hist.min
  max := if hist.max < value then value else hist.max
  num := hist.num + 1
  sum := hist.sum + value
  sumSquares := hist.sumSquares + value * value

def histogramAddAll (hist : Histogram) (values : List ℚ) : Histogram := values.foldl histogramAdd hist

def divide (x y : ℚ) : Option ℚ := if y = 0 then none else some (x / y)

def leftPoint (b : ℕ) : ℚ := if b = 0 then 0 else bucketLimit (b - 1)

/-- The body of `if (sum >= threshold)`. -/
def scale (hist : Histogram) (threshold : ℚ) (b : ℕ) (sum : ℚ) : Option ℚ := do
  let rightPoint := bucketLimit b
  let leftSum := sum - hist.buckets b
  let rightSum := sum
  let pos ← divide (threshold - leftSum) (rightSum - leftSum)
  let r := leftPoint b + (rightPoint - leftPoint b) * pos
  let r := if r < hist.min then hist.min else r
  let r := if r > hist.max then hist.max else r
  return r

/-- The loop of `percentile` over the buckets that are left. -/
def percentileFrom (hist : Histogram) (threshold : ℚ) : ℕ → ℕ → ℚ → Option ℚ
  | 0, _, _ => some hist.max
  | left + 1, b, sum =>
    let sum := sum + hist.buckets b
    if sum ≥ threshold then scale hist threshold b sum
    else percentileFrom hist threshold left (b + 1) sum

def percentile (hist : Histogram) (p : ℚ) : Option ℚ :=
  percentileFrom hist (hist.num * (p / 100)) kNumBuckets 0 0

/-! ## The buckets of the values -/

theorem limits_increasing : bucketLimits.IsChain (· < ·) := by decide +kernel

theorem bucketLimit_lt {b c : ℕ} (lt : b < c) (inside : c < kNumBuckets) :
    bucketLimit b < bucketLimit c := by
  have length : bucketLimits.length = kNumBuckets := rfl
  have ordered := List.pairwise_iff_getElem.mp (List.isChain_iff_pairwise.mp limits_increasing)
  have entries := ordered b c (by omega) (by omega) lt
  simp only [bucketLimit]
  rw [List.getD_eq_getElem _ _ (by omega), List.getD_eq_getElem _ _ (by omega)]
  exact_mod_cast entries

theorem bucketLimit_le {b c : ℕ} (le : b ≤ c) (inside : c < kNumBuckets) :
    bucketLimit b ≤ bucketLimit c := by
  rcases le.eq_or_lt with rfl | lt
  · exact le_rfl
  · exact (bucketLimit_lt lt inside).le

theorem last_limit : bucketLimit (kNumBuckets - 1) = 10 ^ 200 := by
  have entry : bucketLimits.getD (kNumBuckets - 1) 0 = 10 ^ 200 := rfl
  rw [bucketLimit, entry]
  norm_cast

/-- The search passes the limits up to the value and no others. -/
theorem findBucket_spec (value : ℚ) (left b : ℕ) :
    b ≤ findBucket value left b ∧ findBucket value left b ≤ b + left ∧
      (∀ i, b ≤ i → i < findBucket value left b → bucketLimit i ≤ value) ∧
      (findBucket value left b < b + left → value < bucketLimit (findBucket value left b)) := by
  induction left generalizing b with
  | zero =>
    simp only [findBucket]
    exact ⟨le_rfl, le_rfl, fun i low high => absurd high (not_lt.mpr low), fun h => absurd h (lt_irrefl b)⟩
  | succ left ih =>
    rw [findBucket]
    split
    · rename_i passed
      obtain ⟨low, high, limits, stop⟩ := ih (b + 1)
      refine ⟨by omega, by omega, ?_, fun h => stop (by omega)⟩
      intro i hb hi
      rcases hb.eq_or_lt with rfl | later
      · exact passed
      · exact limits i later hi
    · rename_i stays
      refine ⟨le_rfl, by omega, ?_, fun _ => not_le.mp stays⟩
      intro i hb hi
      omega

theorem bucketOf_lt (value : ℚ) : bucketOf value < kNumBuckets := by
  have bound := (findBucket_spec value (kNumBuckets - 1) 0).2.1
  simp only [bucketOf, kNumBuckets] at bound ⊢
  omega

/-- A value is in one of the first buckets exactly when it is below the limit of
the last of them. -/
theorem bucketOf_le_iff {value : ℚ} (small : value < 10 ^ 200) {b : ℕ} (inside : b < kNumBuckets) :
    bucketOf value ≤ b ↔ value < bucketLimit b := by
  obtain ⟨-, bound, limits, stop⟩ := findBucket_spec value (kNumBuckets - 1) 0
  rw [← bucketOf] at bound limits stop
  have own : value < bucketLimit (bucketOf value) := by
    cases bound.lt_or_eq with
    | inl early =>
      exact stop early
    | inr last =>
      rw [last, zero_add, last_limit]
      exact small
  constructor
  · intro le
    exact own.trans_le (bucketLimit_le le inside)
  · intro lt
    by_contra after
    exact absurd (limits b (Nat.zero_le b) (not_le.mp after)) (not_le.mpr lt)

theorem bucketOf_lt_iff {value : ℚ} (nonneg : 0 ≤ value) (small : value < 10 ^ 200) {b : ℕ}
    (inside : b < kNumBuckets) : bucketOf value < b ↔ value < leftPoint b := by
  cases b with
  | zero => simp [leftPoint, nonneg]
  | succ b =>
    rw [Nat.lt_succ_iff, bucketOf_le_iff small (by omega)]
    simp [leftPoint]

theorem leftPoint_lt {b : ℕ} (inside : b < kNumBuckets) : leftPoint b < bucketLimit b := by
  cases b with
  | zero => simp [leftPoint, bucketLimit, bucketLimits]
  | succ b => simpa [leftPoint] using bucketLimit_lt (Nat.lt_succ_self b) inside

/-! ## What the histogram holds -/

/-- The histogram of these values. -/
structure Histogram.Summarises (hist : Histogram) (values : List ℚ) : Prop where
  num : hist.num = values.length
  sum : hist.sum = values.sum
  sumSquares : hist.sumSquares = (values.map fun v => v * v).sum
  buckets : ∀ b, hist.buckets b = (values.countP fun v => bucketOf v = b)
  least : ∀ v ∈ values, hist.min ≤ v
  largest : ∀ v ∈ values, v ≤ hist.max
  min : hist.min ∈ values ∨ values = [] ∧ hist.min = 10 ^ 200
  max : hist.max ∈ values ∨ values = [] ∧ hist.max = 0

theorem histogramClear_summarises (hist : Histogram) : (histogramClear hist).Summarises [] where
  num := rfl
  sum := rfl
  sumSquares := rfl
  buckets _ := rfl
  least := by simp
  largest := by simp
  min := Or.inr ⟨rfl, last_limit⟩
  max := Or.inr ⟨rfl, rfl⟩

theorem histogramAdd_min (hist : Histogram) (value : ℚ) :
    (histogramAdd hist value).min = min value hist.min := by
  simp only [histogramAdd]
  split
  · rename_i less
    exact (min_eq_left (le_of_lt less)).symm
  · rename_i kept
    exact (min_eq_right (not_lt.mp kept)).symm

theorem histogramAdd_max (hist : Histogram) (value : ℚ) :
    (histogramAdd hist value).max = max value hist.max := by
  simp only [histogramAdd]
  split
  · rename_i more
    exact (max_eq_left more.le).symm
  · rename_i kept
    exact (max_eq_right (not_lt.mp kept)).symm

theorem histogramAdd_summarises {hist : Histogram} {values : List ℚ} (holds : hist.Summarises values)
    {value : ℚ} (nonneg : 0 ≤ value) (small : value < 10 ^ 200) :
    (histogramAdd hist value).Summarises (values ++ [value]) where
  num := by simp [histogramAdd, holds.num]
  sum := by simp [histogramAdd, holds.sum]
  sumSquares := by simp [histogramAdd, holds.sumSquares]
  buckets b := by
    simp only [histogramAdd, Function.update_apply, List.countP_append, List.countP_singleton]
    by_cases own : b = bucketOf value
    · simp [own, holds.buckets]
    · simp [own, Ne.symm own, holds.buckets]
  least v member := by
    rw [histogramAdd_min]
    cases List.mem_append.mp member with
    | inl old =>
      exact (min_le_right value hist.min).trans (holds.least v old)
    | inr new =>
      rw [List.mem_singleton.mp new]
      exact min_le_left value hist.min
  largest v member := by
    rw [histogramAdd_max]
    cases List.mem_append.mp member with
    | inl old =>
      exact (holds.largest v old).trans (le_max_right value hist.max)
    | inr new =>
      rw [List.mem_singleton.mp new]
      exact le_max_left value hist.max
  min := by
    left
    rw [histogramAdd_min]
    rcases holds.min with old | ⟨-, initial⟩
    · cases min_choice value hist.min with
      | inl new =>
        simp [new]
      | inr kept =>
        simp [kept, old]
    · simp [initial, min_eq_left small.le]
  max := by
    left
    rw [histogramAdd_max]
    rcases holds.max with old | ⟨-, initial⟩
    · cases max_choice value hist.max with
      | inl new =>
        simp [new]
      | inr kept =>
        simp [kept, old]
    · simp [initial, max_eq_left nonneg]

/-- The values that the program can record. -/
def Recordable (values : List ℚ) : Prop := ∀ v ∈ values, 0 ≤ v ∧ v < 10 ^ 200

theorem histogramAddAll_summarises {hist : Histogram} {values : List ℚ} (holds : hist.Summarises values)
    {more : List ℚ} (recordable : Recordable more) :
    (histogramAddAll hist more).Summarises (values ++ more) := by
  induction more generalizing hist values with
  | nil => simpa [histogramAddAll] using holds
  | cons v vs ih =>
    obtain ⟨⟨nonneg, small⟩, rest⟩ := List.forall_mem_cons.mp recordable
    have next := ih (histogramAdd_summarises holds nonneg small) rest
    rwa [List.append_assoc, List.singleton_append] at next

/-! ## Percentiles -/

/-- How many values lie in the buckets before this one. -/
def countBefore (values : List ℚ) (b : ℕ) : ℕ := values.countP fun v => bucketOf v < b

theorem countBefore_succ (values : List ℚ) (b : ℕ) :
    countBefore values (b + 1) =
      countBefore values b + values.countP fun v => bucketOf v = b := by
  unfold countBefore
  induction values with
  | nil => rfl
  | cons v vs ih =>
    simp only [List.countP_cons, ih, decide_eq_true_eq]
    rcases lt_trichotomy (bucketOf v) b with before | here | after
    · simp [before, before.ne, Nat.lt_succ_of_lt before]
      omega
    · simp [here]
      omega
    · simp [after.ne', not_lt.mpr after.le, not_lt.mpr (Nat.succ_le_of_lt after)]

theorem countBefore_mono (values : List ℚ) {b c : ℕ} (le : b ≤ c) :
    countBefore values b ≤ countBefore values c := by
  apply List.countP_mono_left
  intro v _ early
  simp only [decide_eq_true_eq] at early ⊢
  omega

theorem countBefore_all (values : List ℚ) : countBefore values kNumBuckets = values.length := by
  apply List.countP_eq_length.mpr
  intro v _
  simpa using bucketOf_lt v

section Counts
variable {values : List ℚ} (recordable : Recordable values) {b : ℕ} (inside : b < kNumBuckets)
include recordable inside

theorem countBefore_left : countBefore values b = below values (leftPoint b) := by
  apply List.countP_congr
  intro v member
  obtain ⟨nonneg, small⟩ := recordable v member
  simp [bucketOf_lt_iff nonneg small inside]

theorem countBefore_right : countBefore values (b + 1) = below values (bucketLimit b) := by
  apply List.countP_congr
  intro v member
  have same := bucketOf_le_iff (recordable v member).2 inside
  simpa only [decide_eq_true_eq, Nat.lt_succ_iff] using same

end Counts

/-- The threshold falls into this bucket. -/
def Reaches (values : List ℚ) (threshold : ℚ) (b : ℕ) : Prop :=
  b < kNumBuckets ∧ countBefore values b < threshold ∧ threshold ≤ countBefore values (b + 1)

/-- The point that stands for the threshold in its bucket. -/
def pointIn (values : List ℚ) (threshold : ℚ) (b : ℕ) : ℚ :=
  interpolate (leftPoint b) (bucketLimit b) (countBefore values b) (countBefore values (b + 1)) threshold

section Percentile
variable {hist : Histogram} {values : List ℚ} (holds : hist.Summarises values)
include holds

/-- The bucket that is reached is not empty, so the division is defined. -/
theorem scale_run {threshold : ℚ} {b : ℕ} (reaches : Reaches values threshold b) :
    scale hist threshold b (countBefore values (b + 1)) =
      some (clamp hist.min hist.max (pointIn values threshold b)) := by
  obtain ⟨-, low, high⟩ := reaches
  have parts : (countBefore values (b + 1) : ℚ) = countBefore values b + hist.buckets b := by
    rw [holds.buckets, countBefore_succ]
    norm_cast
  have before : (countBefore values (b + 1) : ℚ) - hist.buckets b = countBefore values b := by
    rw [parts, add_sub_cancel_right]
  have count : (countBefore values (b + 1) : ℚ) - countBefore values b ≠ 0 :=
    (sub_pos.mpr (low.trans_le high)).ne'
  simp only [scale, before, divide, if_neg count, Option.bind_eq_bind, Option.bind_some,
    Option.pure_def]
  rfl

/-- The loop stops in the bucket that the threshold falls into. -/
theorem percentileFrom_run {threshold : ℚ} (high : threshold ≤ values.length) (left b : ℕ)
    (all : b + left = kNumBuckets) (low : countBefore values b < threshold) :
    ∃ c, Reaches values threshold c ∧
      percentileFrom hist threshold left b (countBefore values b) =
        some (clamp hist.min hist.max (pointIn values threshold c)) := by
  induction left generalizing b with
  | zero =>
    obtain rfl : b = kNumBuckets := all
    rw [countBefore_all] at low
    exact absurd high (not_le.mpr low)
  | succ left ih =>
    have sum : (countBefore values b : ℚ) + hist.buckets b = countBefore values (b + 1) := by
      rw [holds.buckets, countBefore_succ]
      norm_cast
    simp only [percentileFrom, sum]
    split
    · rename_i reached
      have here : Reaches values threshold b := ⟨by omega, low, reached⟩
      exact ⟨b, here, scale_run holds here⟩
    · rename_i missed
      exact ih (b + 1) (by omega) (not_le.mp missed)

theorem percentile_run {p : ℚ} (pos : 0 < p) (le : p ≤ 100) (nonempty : values ≠ []) :
    ∃ b, Reaches values (values.length * p / 100) b ∧
      percentile hist p =
        some (clamp hist.min hist.max (pointIn values (values.length * p / 100) b)) := by
  have count : (0 : ℚ) < values.length := by
    exact_mod_cast List.length_pos_iff.mpr nonempty
  have threshold : hist.num * (p / 100) = values.length * p / 100 := by
    rw [holds.num, mul_div_assoc]
  have low : ((countBefore values 0 : ℕ) : ℚ) < values.length * p / 100 := by
    have none_before : countBefore values 0 = 0 := by simp [countBefore]
    rw [none_before, Nat.cast_zero]
    positivity
  have high : values.length * p / 100 ≤ (values.length : ℚ) := by
    rw [div_le_iff₀ (by norm_num)]
    exact mul_le_mul_of_nonneg_left le count.le
  obtain ⟨b, reaches, run⟩ := percentileFrom_run holds high kNumBuckets 0 (zero_add _) low
  refine ⟨b, reaches, ?_⟩
  rw [percentile, threshold, ← run]
  simp [countBefore]

end Percentile

section Reached
variable {values : List ℚ} {s t : ℚ} {b c : ℕ}

theorem pointIn_between (reaches : Reaches values t b) :
    leftPoint b ≤ pointIn values t b ∧ pointIn values t b ≤ bucketLimit b := by
  obtain ⟨inside, low, high⟩ := reaches
  exact interpolate_between (leftPoint_lt inside).le (low.trans_le high) low.le high

/-- A larger threshold falls into the same bucket or into a later one. -/
theorem pointIn_mono (le : s ≤ t) (first : Reaches values s b) (second : Reaches values t c) :
    pointIn values s b ≤ pointIn values t c := by
  rcases lt_trichotomy b c with earlier | rfl | later
  · have border : bucketLimit b ≤ leftPoint c := by
      obtain ⟨d, rfl⟩ := Nat.exists_eq_add_of_lt earlier
      simpa [leftPoint] using bucketLimit_le (Nat.le_add_right b d) (by have := second.1; omega)
    exact (pointIn_between first).2.trans (border.trans (pointIn_between second).1)
  · obtain ⟨inside, low, high⟩ := first
    exact interpolate_mono (leftPoint_lt inside).le (low.trans_le high) le
  · have counts : (countBefore values (c + 1) : ℚ) ≤ countBefore values b := by
      exact_mod_cast countBefore_mono values later
    have reversed : t < s := (second.2.2.trans counts).trans_lt first.2.1
    exact absurd le (not_le.mpr reversed)

/-- The value of the threshold's rank lies in the bucket that is reached. -/
theorem orderStatistic_between (recordable : Recordable values) (pos : 0 < t)
    (le : t ≤ values.length) (reaches : Reaches values t b) :
    leftPoint b ≤ orderStatistic values ⌈t⌉₊ ∧ orderStatistic values ⌈t⌉₊ < bucketLimit b ∧
      orderStatistic values ⌈t⌉₊ ∈ values := by
  obtain ⟨inside, low, high⟩ := reaches
  have rank : 0 < ⌈t⌉₊ := Nat.ceil_pos.mpr pos
  have ranked : ⌈t⌉₊ ≤ values.length := Nat.ceil_le.mpr le
  refine ⟨?_, ?_, orderStatistic_mem rank ranked⟩
  · apply not_lt.mp
    rw [orderStatistic_lt_iff rank ranked, ← countBefore_left recordable inside]
    exact not_le.mpr (Nat.lt_ceil.mpr low)
  · rw [orderStatistic_lt_iff rank ranked, ← countBefore_right recordable inside]
    exact Nat.ceil_le.mpr high

end Reached

/-- Percentiles are defined, lie between the smallest and the largest value, share
a bucket with the value of their rank, and grow with `p`. -/
theorem percentile_sound (old : Histogram) {values : List ℚ} (nonempty : values ≠ [])
    (recordable : Recordable values) {p q : ℚ} (pos : 0 < p) (le : p ≤ q) (most : q ≤ 100) :
    let hist := histogramAddAll (histogramClear old) values
    ∃ r r', percentile hist p = some r ∧ percentile hist q = some r' ∧ r ≤ r' ∧
      (∃ smallest ∈ values, ∃ largest ∈ values, (∀ v ∈ values, smallest ≤ v ∧ v ≤ largest) ∧
        smallest ≤ r ∧ r ≤ largest) ∧
      ∃ b < kNumBuckets, (leftPoint b ≤ r ∧ r ≤ bucketLimit b) ∧
        leftPoint b ≤ orderStatistic values ⌈values.length * p / 100⌉₊ ∧
        orderStatistic values ⌈values.length * p / 100⌉₊ ≤ bucketLimit b := by
  intro hist
  have holds : hist.Summarises values := by
    have added := histogramAddAll_summarises (histogramClear_summarises old) recordable
    rwa [List.nil_append] at added
  have count : (0 : ℚ) < values.length := by
    exact_mod_cast List.length_pos_iff.mpr nonempty
  have thresholds : values.length * p / 100 ≤ values.length * q / 100 := by gcongr
  have positive : 0 < values.length * p / 100 := by positivity
  have bounded : values.length * p / 100 ≤ values.length := by
    rw [div_le_iff₀ (by norm_num)]
    exact mul_le_mul_of_nonneg_left (le.trans most) count.le
  have smallest : hist.min ∈ values := holds.min.resolve_right fun empty => nonempty empty.1
  have largest : hist.max ∈ values := holds.max.resolve_right fun empty => nonempty empty.1
  obtain ⟨b, reaches, run⟩ := percentile_run holds pos (le.trans most) nonempty
  obtain ⟨c, reaches', run'⟩ := percentile_run holds (pos.trans_le le) most nonempty
  obtain ⟨above, under, member⟩ := orderStatistic_between recordable positive bounded reaches
  have within := clamp_between (holds.least _ largest) (pointIn values (values.length * p / 100) b)
  have meets := clamp_stays (pointIn_between reaches).1 (pointIn_between reaches).2
    ((holds.least _ member).trans under.le) (above.trans (holds.largest _ member))
  refine ⟨_, _, run, run', clamp_mono _ _ (pointIn_mono thresholds reaches reaches'), ?_,
    b, reaches.1, meets, above, under.le⟩
  exact ⟨hist.min, smallest, hist.max, largest, fun v hv => ⟨holds.least v hv, holds.largest v hv⟩,
    within⟩

/-- The median and the 99th percentile of four latencies, one of them at a limit. -/
theorem percentile_sound_four :
    let values : List ℚ := [3, 1 / 2, 3, 100]
    let hist := histogramAddAll (histogramClear ⟨1, 2, 3, 4, 5, fun _ => 6⟩) values
    ∃ r r', percentile hist 50 = some r ∧ percentile hist 99 = some r' ∧ r ≤ r' ∧
      (∃ smallest ∈ values, ∃ largest ∈ values, (∀ v ∈ values, smallest ≤ v ∧ v ≤ largest) ∧
        smallest ≤ r ∧ r ≤ largest) ∧
      ∃ b < kNumBuckets, (leftPoint b ≤ r ∧ r ≤ bucketLimit b) ∧
        leftPoint b ≤ orderStatistic values ⌈(values.length : ℚ) * 50 / 100⌉₊ ∧
        orderStatistic values ⌈(values.length : ℚ) * 50 / 100⌉₊ ≤ bucketLimit b :=
  percentile_sound _ (by simp) (by simp [Recordable]; norm_num) (by norm_num) (by norm_num)
    (by norm_num)

end MorelloWorkloads.SqliteBench
