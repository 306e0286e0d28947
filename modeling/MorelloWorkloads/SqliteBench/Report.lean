import MorelloWorkloads.Lib.Doubling
import MorelloWorkloads.SqliteBench.Histogram

/-! `histogram_to_string`: the report grows in a buffer that doubles. What the calls
of `snprintf` print and the counts of hash marks are arbitrary. -/
namespace MorelloWorkloads.SqliteBench
open Doubling

/-- The string `r`, and the bytes that are allocated for it. -/
structure Buffer where
  size : ℕ
  text : List Char

/-- `if (r_size < needed) { r = realloc(r, r_size * 2); r_size *= 2; }` -/
def Buffer.reserve (r : Buffer) (needed : ℕ) : Buffer := { r with size := grow r.size needed }

/-- Without room for the string and its terminator, the result is `none`. -/
def Buffer.strcat (r : Buffer) (s : List Char) : Option Buffer :=
  if r.text.length + s.length + 1 ≤ r.size then some { r with text := r.text ++ s } else none

/-- What is printed: two lines, and a row and its marks for each bucket. -/
structure Printed where
  counts : List Char
  range : List Char
  row : ℕ → List Char
  marks : ℕ → ℕ

/-- `snprintf` into `char buf[200]` -/
def toBuf (text : List Char) : List Char := text.take 199

def dashes : List Char := List.replicate 54 '-' ++ ['\n']

/-- `buf` behind its own test. -/
def appendBuf (r : Buffer) (buf : List Char) : Option Buffer :=
  (r.reserve (r.text.length + buf.length)).strcat buf

/-- The hash marks, one at a time, and the end of the line. -/
def appendMarks (r : Buffer) (marks : ℕ) : Option Buffer := do
  let r := r.reserve (r.text.length + marks + 1)
  let r ← (List.range marks).foldlM (fun r _ => r.strcat ['#']) r
  r.strcat ['\n']

def appendRow (printed : Printed) (r : Buffer) (b : ℕ) : Option Buffer := do
  let r ← appendBuf r (toBuf (printed.row b))
  appendMarks r (printed.marks b)

def appendRows (hist : Histogram) (printed : Printed) (r : Buffer) (buckets : List ℕ) : Option Buffer :=
  buckets.foldlM (fun r b => if hist.buckets b ≤ 0 then some r else appendRow printed r b) r

/-- The lines above the rows; the third test measures the second line again. -/
def appendHeader (printed : Printed) (r : Buffer) : Option Buffer := do
  let r ← appendBuf r (toBuf printed.counts)
  let buf := toBuf printed.range
  let r ← appendBuf r buf
  (r.reserve (r.text.length + buf.length)).strcat dashes

def histogramToString (hist : Histogram) (printed : Printed) : Option Buffer := do
  let r ← appendHeader printed ⟨1024, []⟩
  appendRows hist printed r (List.range kNumBuckets)

/-- The lengths that the report has after each row and after each newline. -/
def lineEnds (hist : Histogram) (printed : Printed) : ℕ → List ℕ → List ℕ
  | _, [] => []
  | start, b :: buckets =>
    if hist.buckets b ≤ 0 then lineEnds hist printed start buckets
    else
      let row := start + (toBuf (printed.row b)).length
      let line := row + (printed.marks b + 1)
      row :: line :: lineEnds hist printed line buckets

/-- The length of the three lines above the rows. -/
def headerLength (printed : Printed) : ℕ :=
  (toBuf printed.counts).length + (toBuf printed.range).length + 55

/-- The buffer fits its text as doubling from 1024 does. -/
def Buffer.Tight (r : Buffer) : Prop := Doubling.Tight 1024 r.size r.text.length

theorem toBuf_length (text : List Char) : (toBuf text).length ≤ 199 := by
  rw [toBuf, List.length_take]
  exact min_le_left 199 text.length

theorem strcat_eq {r : Buffer} {s : List Char} (room : r.text.length + s.length < r.size) :
    r.strcat s = some ⟨r.size, r.text ++ s⟩ := if_pos room

theorem strcat_eq_none {r : Buffer} {s : List Char} (full : ¬ r.text.length + s.length < r.size) :
    r.strcat s = none := if_neg full

/-- A length at which a test without room for the terminator is one byte short. -/
def Exact (length : ℕ) : Prop := ∃ e, length = 1024 * 2 ^ e

theorem not_exact_of_lt {length : ℕ} (lt : length < 1024) : ¬ Exact length := by
  rintro ⟨e, exact⟩
  have least := base_le_power 1024 e
  omega

theorem fits_iff {r : Buffer} (tight : r.Tight) {m : ℕ} (short : m ≤ 199) :
    r.text.length + m < grow r.size (r.text.length + m) ↔ ¬ Exact (r.text.length + m) := by
  rw [tight.append_fits_iff (by omega), Exact, not_exists]

/-- The marks always have the room that their test asks for. -/
theorem marks_run (k : ℕ) {r : Buffer} (room : r.text.length + k < r.size) :
    (List.range k).foldlM (fun r _ => r.strcat ['#']) r =
      some ⟨r.size, r.text ++ List.replicate k '#'⟩ := by
  induction k with
  | zero => simp
  | succ k ih =>
    rw [List.range_succ, List.foldlM_append, ih (by omega)]
    simp only [Option.bind_eq_bind, Option.bind_some, List.foldlM_cons, List.foldlM_nil]
    rw [strcat_eq (by simp; omega), List.append_assoc, ← List.replicate_succ']
    rfl

section Append
variable {r : Buffer} (tight : r.Tight)
include tight

theorem appendBuf_run {buf : List Char} (short : buf.length ≤ 199)
    (free : ¬ Exact (r.text.length + buf.length)) :
    ∃ r', appendBuf r buf = some r' ∧ r'.Tight ∧ r'.text.length = r.text.length + buf.length := by
  have room := (fits_iff tight short).mpr free
  refine ⟨_, strcat_eq room, ?_, List.length_append⟩
  rw [Buffer.Tight, List.length_append]
  exact tight.append room

theorem appendBuf_overrun {buf : List Char} (short : buf.length ≤ 199)
    (exact : Exact (r.text.length + buf.length)) : appendBuf r buf = none :=
  strcat_eq_none (mt (fits_iff tight short).mp (not_not.mpr exact))

/-- The marks have the room that their test asks for; the newline may not. -/
theorem appendMarks_eq {marks : ℕ} (few : marks ≤ 20) :
    appendMarks r marks =
      Buffer.strcat ⟨grow r.size (r.text.length + (marks + 1)), r.text ++ List.replicate marks '#'⟩
        ['\n'] := by
  have room := tight.le_grow (by omega : 2 * (marks + 1) ≤ 1024)
  have run := @marks_run marks (r.reserve (r.text.length + (marks + 1))) (by
    simp only [Buffer.reserve]
    omega)
  simp only [appendMarks, add_assoc, run, Option.bind_eq_bind, Option.bind_some]
  rfl

theorem appendMarks_run {marks : ℕ} (few : marks ≤ 20)
    (free : ¬ Exact (r.text.length + (marks + 1))) :
    ∃ r', appendMarks r marks = some r' ∧ r'.Tight ∧
      r'.text.length = r.text.length + (marks + 1) := by
  have room := (fits_iff tight (by omega)).mpr free
  have length : (r.text ++ List.replicate marks '#' ++ ['\n']).length =
      r.text.length + (marks + 1) := by
    simp
  rw [appendMarks_eq tight few]
  refine ⟨_, strcat_eq (by simpa [add_assoc] using room), ?_, length⟩
  rw [Buffer.Tight, length]
  exact tight.append room

theorem appendMarks_overrun {marks : ℕ} (few : marks ≤ 20)
    (exact : Exact (r.text.length + (marks + 1))) : appendMarks r marks = none := by
  have full := mt (fits_iff tight (by omega)).mp (not_not.mpr exact)
  rw [appendMarks_eq tight few]
  exact strcat_eq_none (by simpa [add_assoc] using full)

/-- A row fits exactly when it reaches no capacity, neither before its marks nor
after its newline. -/
theorem appendRow_run {printed : Printed} {b : ℕ} (few : printed.marks b ≤ 20)
    (row : ¬ Exact (r.text.length + (toBuf (printed.row b)).length))
    (line : ¬ Exact (r.text.length + (toBuf (printed.row b)).length + (printed.marks b + 1))) :
    ∃ r', appendRow printed r b = some r' ∧ r'.Tight ∧
      r'.text.length = r.text.length + (toBuf (printed.row b)).length + (printed.marks b + 1) := by
  obtain ⟨r₁, run₁, tight₁, length₁⟩ := appendBuf_run tight (toBuf_length _) row
  rw [← length₁] at line ⊢
  obtain ⟨r', run, tight', length⟩ := appendMarks_run tight₁ few line
  refine ⟨r', ?_, tight', length⟩
  rw [appendRow, run₁]
  exact run

theorem appendRow_overrun {printed : Printed} {b : ℕ} (few : printed.marks b ≤ 20)
    (exact : Exact (r.text.length + (toBuf (printed.row b)).length) ∨
      Exact (r.text.length + (toBuf (printed.row b)).length + (printed.marks b + 1))) :
    appendRow printed r b = none := by
  by_cases row : Exact (r.text.length + (toBuf (printed.row b)).length)
  · rw [appendRow, appendBuf_overrun tight (toBuf_length _) row]
    rfl
  · obtain ⟨r₁, run₁, tight₁, length₁⟩ := appendBuf_run tight (toBuf_length _) row
    have line := exact.resolve_left row
    rw [← length₁] at line
    rw [appendRow, run₁]
    exact appendMarks_overrun tight₁ few line

end Append

/-- The rows fit exactly when none of their ends reaches a capacity. -/
theorem appendRows_iff {hist : Histogram} {printed : Printed} {buckets : List ℕ}
    (few : ∀ b ∈ buckets, 0 < hist.buckets b → printed.marks b ≤ 20) {r : Buffer} (tight : r.Tight) :
    (∃ r', appendRows hist printed r buckets = some r') ↔
      ∀ n ∈ lineEnds hist printed r.text.length buckets, ¬ Exact n := by
  induction buckets generalizing r with
  | nil => simp [appendRows, lineEnds]
  | cons b buckets ih =>
    obtain ⟨here, rest⟩ := List.forall_mem_cons.mp few
    by_cases empty : hist.buckets b ≤ 0
    · have skipped : appendRows hist printed r (b :: buckets) = appendRows hist printed r buckets := by
        simp [appendRows, empty]
      rw [skipped, lineEnds, if_pos empty]
      exact ih rest tight
    · have marks := here (not_le.mp empty)
      have first : appendRows hist printed r (b :: buckets) =
          (appendRow printed r b).bind fun r => appendRows hist printed r buckets := by
        simp [appendRows, empty]
      rw [first, lineEnds, if_neg empty]
      simp only [List.forall_mem_cons]
      by_cases exact : Exact (r.text.length + (toBuf (printed.row b)).length) ∨
          Exact (r.text.length + (toBuf (printed.row b)).length + (printed.marks b + 1))
      · rw [appendRow_overrun tight marks exact]
        constructor
        · rintro ⟨r', run⟩
          cases run
        · rintro ⟨row, line, -⟩
          exact absurd exact (not_or.mpr ⟨row, line⟩)
      · obtain ⟨row, line⟩ := not_or.mp exact
        obtain ⟨r₁, run₁, tight₁, length₁⟩ := appendRow_run tight marks row line
        rw [run₁, Option.bind_some, ih rest tight₁, length₁]
        constructor
        · exact fun later => ⟨row, line, later⟩
        · exact fun all => all.2.2

/-- The three lines above the rows always fit. -/
theorem appendHeader_run (printed : Printed) :
    ∃ r, appendHeader printed ⟨1024, []⟩ = some r ∧ r.Tight ∧
      r.text.length = headerLength printed := by
  have counts := toBuf_length printed.counts
  have range := toBuf_length printed.range
  have start : Buffer.Tight ⟨1024, []⟩ := Tight.start (by decide)
  obtain ⟨r₁, run₁, tight₁, length₁⟩ := appendBuf_run start counts
    (not_exact_of_lt (by rw [List.length_nil]; omega))
  rw [List.length_nil, zero_add] at length₁
  obtain ⟨r₂, run₂, tight₂, length₂⟩ := appendBuf_run tight₁ range (not_exact_of_lt (by omega))
  have size : r₂.size = 1024 := by
    have least := tight₂.base_le
    cases tight₂.half with
    | inl first =>
      exact first
    | inr grown =>
      omega
  have kept : grow r₂.size (r₂.text.length + (toBuf printed.range).length) = 1024 := by
    rw [size, grow, if_neg (by omega)]
  have ruled : dashes.length = 55 := rfl
  have length : (r₂.text ++ dashes).length = headerLength printed := by
    rw [List.length_append, length₂, length₁, ruled, headerLength]
  refine ⟨⟨1024, r₂.text ++ dashes⟩, ?_, Tight.start ?_, length⟩
  · simp only [appendHeader, run₁, run₂, Option.bind_eq_bind, Option.bind_some, Buffer.reserve, kept]
    exact strcat_eq (by simp only; omega)
  · simp only [headerLength] at length
    simp only
    omega

theorem histogramToString_iff (hist : Histogram) {printed : Printed}
    (few : ∀ b < kNumBuckets, 0 < hist.buckets b → printed.marks b ≤ 20) :
    (∃ r, histogramToString hist printed = some r) ↔
      ∀ n ∈ lineEnds hist printed (headerLength printed) (List.range kNumBuckets), ¬ Exact n := by
  obtain ⟨r, header, tight, length⟩ := appendHeader_run printed
  have marks : ∀ b ∈ List.range kNumBuckets, 0 < hist.buckets b → printed.marks b ≤ 20 :=
    fun b member => few b (List.mem_range.mp member)
  rw [← length, ← appendRows_iff marks tight, histogramToString, header]
  rfl

/-- No append of the report runs over the buffer exactly when no row ends, before
its marks or after its newline, at a length of 1024 doubled some number of times. -/
theorem report_fits_iff (hist : Histogram) {printed : Printed}
    (few : ∀ b < kNumBuckets, 0 < hist.buckets b → printed.marks b ≤ 20) :
    (∃ r, histogramToString hist printed = some r) ↔
      ∀ n ∈ lineEnds hist printed (headerLength printed) (List.range kNumBuckets),
        ∀ e, n ≠ 1024 * 2 ^ e := by
  simp only [histogramToString_iff hist few, Exact, not_exists]

/-- `n` latencies, one in each bucket from 65 on. -/
def spread (n : ℕ) : Histogram :=
  ⟨30000, 350000, n, 2300000, 448252000000, fun b => if 65 ≤ b ∧ b < 65 + n then 1 else 0⟩

/-- Lines of the lengths that these latencies give, and a mark for each row. -/
def spreadPrinted : Printed :=
  ⟨List.replicate 50 'c', List.replicate 55 'm', fun _ => List.replicate 46 'r', fun _ => 1⟩

/-- With three rows the report has 304 bytes. -/
theorem report_fits_three : ∃ r, histogramToString (spread 3) spreadPrinted = some r := by
  apply (report_fits_iff (spread 3) (fun _ _ _ => by simp [spreadPrinted])).mpr
  have ends : lineEnds (spread 3) spreadPrinted (headerLength spreadPrinted)
      (List.range kNumBuckets) = [206, 208, 254, 256, 302, 304] := by decide +kernel
  rw [ends]
  intro n member e reached
  have least := base_le_power 1024 e
  simp only [List.mem_cons, List.not_mem_nil, or_false] at member
  omega

/-- With 18 rows the last newline is the byte 1024 of 1024, and the terminator
lands behind them. -/
theorem report_overrun :
    (∀ b < kNumBuckets, 0 < (spread 18).buckets b → spreadPrinted.marks b ≤ 20) ∧
      0 < (spread 18).num ∧ histogramToString (spread 18) spreadPrinted = none := by
  have few : ∀ b < kNumBuckets, 0 < (spread 18).buckets b → spreadPrinted.marks b ≤ 20 :=
    fun _ _ _ => by simp [spreadPrinted]
  refine ⟨few, by norm_num [spread], ?_⟩
  have reached : 1024 ∈ lineEnds (spread 18) spreadPrinted (headerLength spreadPrinted)
      (List.range kNumBuckets) := by decide +kernel
  apply Option.eq_none_iff_forall_ne_some.mpr
  intro r run
  have misses := (histogramToString_iff (spread 18) few).mp ⟨r, run⟩ 1024 reached
  exact misses ⟨0, rfl⟩

end MorelloWorkloads.SqliteBench
