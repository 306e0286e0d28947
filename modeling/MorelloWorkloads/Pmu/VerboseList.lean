import MorelloWorkloads.Lib.Gaps
import Mathlib.Data.List.Infix

/-! `verbose-list`: the counts of the three ABIs, fished out of the lines of all
result directories and told apart by position. -/
namespace MorelloWorkloads.Pmu

abbrev Text := List Char

inductive Abi where
  | hybrid
  | purecapBenchmark
  | purecap
  deriving DecidableEq, Repr

/-- The slot of an ABI in what the script emits: the comment in the script says
`hybrid purecap-benchmark purecap`. -/
def Abi.index : Abi → ℕ
  | hybrid => 0
  | purecapBenchmark => 1
  | purecap => 2

/-- The result directories in glob order. -/
def Abi.all : List Abi := [hybrid, purecapBenchmark, purecap]

/-- The three values that are emitted for a metric. -/
structure Tuple (α : Type*) where
  values : List α
  three : values.length = 3

def Tuple.slot {α : Type*} (t : Tuple α) (abi : Abi) : α :=
  t.values.get ⟨abi.index, by rw [t.three]; cases abi <;> decide⟩

def metricNames : List String :=
  ["inst_retired", "cpu_cycles", "stall_backend", "stall_frontend", "inst_spec", "ase_spec",
    "br_retired", "br_mis_pred_retired", "br_indirect_spec", "br_return_spec", "br_immed_spec",
    "itlb_walk", "l1i_tlb_refill", "l1i_tlb", "l1i_cache", "l1i_cache_refill", "vfp_spec",
    "dtlb_walk", "l1d_tlb", "l1d_tlb_refill", "l2d_tlb", "l2d_tlb_refill", "crypto_spec",
    "l1d_cache", "l1d_cache_rd", "l1d_cache_refill", "l1d_cache_wr", "ll_cache_miss_rd",
    "ll_cache_rd", "l2d_cache", "l2d_cache_rd", "l2d_cache_refill", "l2d_cache_allocate",
    "l2d_cache_wr", "mem_access", "mem_access_rd", "mem_access_wr", "ld_spec", "st_spec",
    "dp_spec", "mem_access_rd_ctag", "mem_access_wr_ctag", "cap_mem_access_rd",
    "cap_mem_access_wr"]

/-- `@ <metric> [`, the pattern for `grep`. -/
def mark (metric : String) : Text := '@' :: ' ' :: (metric.toList ++ [' ', '['])

def grep (metric : String) (lines : List Text) : List Text :=
  lines.filter fun line => mark metric <:+: line

/-- `[0-9]\+ samples]` at the beginning of a text. -/
def samples (text : Text) : Option Text :=
  let digits := text.takeWhile Char.isDigit
  if digits ≠ [] ∧ " samples]".toList <+: text.dropWhile Char.isDigit then some digits else none

/-- `s/.*\[\([0-9]\+\) samples\].*/\1/p`; the first `.*` takes as much as it can, so
the last bracket that fits is the one that counts. -/
def sed : Text → Option Text
  | [] => none
  | c :: cs => (sed cs).or (if c = '[' then samples cs else none)

/-- What `readarray` puts into `values`. -/
def readValues (metric : String) (lines : List Text) : List Text :=
  (grep metric lines).filterMap sed

/-- `${values[k]:=0}`. -/
def orZero : Option Text → Text
  | none => ['0']
  | some [] => ['0']
  | some (c :: cs) => c :: cs

/-- A line `@ <event> [<n> samples]`. -/
structure IsHeader (line event n : Text) : Prop where
  word : ' ' ∉ event
  number : n ≠ [] ∧ ∀ c ∈ n, c.isDigit
  shape : line = '@' :: ' ' :: (event ++ ' ' :: '[' :: (n ++ " samples]".toList))

/-- A result directory: files of lines of any kind. Lines that get through both
filters have the format of `pmcstat`, and no event has two of them. -/
structure ResultDir where
  files : List (List Text)
  format : ∀ line ∈ files.flatten, ∀ metric ∈ metricNames, mark metric <:+: line →
    (sed line).isSome → ∃ event n, IsHeader line event n
  single : ∀ event, files.flatten.Pairwise fun line line' =>
    ¬ ((∃ n, IsHeader line event n) ∧ ∃ n, IsHeader line' event n)

def ResultDir.lines (d : ResultDir) : List Text := d.files.flatten

/-- What `cat` prints. -/
def cat (dirs : Abi → ResultDir) : List Text := Abi.all.flatMap fun abi => (dirs abi).lines

def metricTuple (dirs : Abi → ResultDir) (metric : String) : Tuple Text :=
  let values := readValues metric (cat dirs)
  ⟨[orZero values[0]?, orZero values[1]?, orZero values[2]?], rfl⟩

/-- What the script emits for one benchmark. -/
def verboseList (dirs : Abi → ResultDir) : List (String × Tuple Text) :=
  metricNames.map fun metric => (metric, metricTuple dirs metric)

def ResultDir.Records (d : ResultDir) (metric : String) (n : Text) : Prop :=
  ∃ line ∈ d.lines, IsHeader line metric.toList n

/-! ## One line -/

/-- Texts that agree agree up to their first blanks. -/
theorem first_blank {p q s t : Text} (hp : ' ' ∉ p) (hq : ' ' ∉ q)
    (h : p ++ ' ' :: s = q ++ ' ' :: t) : p = q ∧ s = t := by
  induction p generalizing q with
  | nil =>
    cases q with
    | nil => exact ⟨rfl, (List.cons.inj h).2⟩
    | cons c q =>
      have hc := (List.cons.inj h).1
      exact absurd (hc ▸ List.mem_cons_self) hq
  | cons c p ih =>
    cases q with
    | nil =>
      have hc := (List.cons.inj h).1
      exact absurd (hc ▸ List.mem_cons_self) hp
    | cons d q =>
      simp only [List.cons_append, List.cons.injEq] at h
      obtain ⟨rfl, rest⟩ := ih (fun hb => hp (List.mem_cons_of_mem c hb))
        (fun hb => hq (List.mem_cons_of_mem d hb)) h.2
      exact ⟨by rw [h.1], rest⟩

/-- A mark is found only in the header of its own event. -/
theorem IsHeader.event_eq {line event n : Text} (h : IsHeader line event n) {metric : String}
    (hm : ' ' ∉ metric.toList) (found : mark metric <:+: line) : event = metric.toList := by
  obtain ⟨before, after, found⟩ := found
  have numeral (c : Char) (hc : c.isDigit = false) : c ∉ n := fun hb => by
    simp [h.number.2 c hb] at hc
  have blank : ' ' ∉ '[' :: n := by simp [numeral ' ' (by decide)]
  rw [h.shape, mark] at found
  rcases before with _ | ⟨_, _ | ⟨_, before⟩⟩
  · simp only [List.nil_append, List.cons_append, List.append_assoc, List.cons.injEq,
      true_and] at found
    exact (first_blank hm h.word found).1.symm
  · simp at found
  · -- The mark begins behind the first blank of the line.
    exfalso
    simp only [List.cons_append, List.append_assoc, List.nil_append, List.cons.injEq] at found
    obtain ⟨_, _, found⟩ := found
    by_cases hb : ' ' ∈ before
    · obtain ⟨before, between, rfl, first⟩ := List.eq_append_cons_of_mem hb
      rw [List.append_assoc, List.cons_append] at found
      have tail := (first_blank first h.word found).2
      have inTail : '@' ∈ '[' :: (n ++ " samples]".toList) := by
        rw [← tail]
        simp
      simp [numeral '@' (by decide)] at inTail
    · rw [← List.singleton_append, ← List.append_assoc] at found
      have first : ' ' ∉ before ++ ['@'] := by simp [hb]
      have tail := (first_blank first h.word found).2
      have last := (first_blank hm blank (t := "samples]".toList) tail).2
      simp at last

theorem sed_append {t v : Text} (s : Text) (h : sed t = some v) : sed (s ++ t) = some v := by
  induction s with
  | nil => exact h
  | cons c s ih => rw [List.cons_append, sed, ih, Option.some_or]

theorem sed_eq_none {t : Text} (h : '[' ∉ t) : sed t = none := by
  induction t with
  | nil => rfl
  | cons c t ih =>
    have hc : c ≠ '[' := fun eq => h (eq ▸ List.mem_cons_self)
    rw [sed, ih fun hb => h (List.mem_cons_of_mem c hb), if_neg hc, Option.none_or]

theorem samples_append {n : Text} (hn : n ≠ [] ∧ ∀ c ∈ n, c.isDigit) :
    samples (n ++ " samples]".toList) = some n := by
  have stop : ¬ (' ' : Char).isDigit := by decide
  have taken : (n ++ " samples]".toList).takeWhile Char.isDigit = n := by
    rw [List.takeWhile_append_of_pos hn.2]
    simp
  have rest : (n ++ " samples]".toList).dropWhile Char.isDigit = " samples]".toList := by
    rw [List.dropWhile_append_of_pos hn.2]
    rfl
  simp only [samples, taken, rest]
  exact if_pos ⟨hn.1, List.prefix_rfl⟩

theorem IsHeader.sed_eq {line event n : Text} (h : IsHeader line event n) : sed line = some n := by
  have noBracket : '[' ∉ n ++ " samples]".toList := by
    intro hb
    cases List.mem_append.mp hb with
    | inl hb => exact absurd (h.number.2 _ hb) (by decide)
    | inr hb => exact absurd hb (by decide)
  have found : sed ('[' :: (n ++ " samples]".toList)) = some n := by
    rw [sed, sed_eq_none noBracket, if_pos rfl, samples_append h.number, Option.none_or]
  have split : line = ('@' :: ' ' :: (event ++ [' '])) ++ '[' :: (n ++ " samples]".toList) := by
    simp [h.shape]
  rw [split]
  exact sed_append _ found

/-! ## One directory -/

theorem metricNames_words : ∀ metric ∈ metricNames, ' ' ∉ metric.toList := by decide

theorem readValues_append (metric : String) (a b : List Text) :
    readValues metric (a ++ b) = readValues metric a ++ readValues metric b := by
  simp [readValues, grep]

theorem filterMap_length_le_one {α β : Type*} {f : α → Option β} {l : List α}
    (h : l.Pairwise fun a b => f a = none ∨ f b = none) : (l.filterMap f).length ≤ 1 := by
  induction l with
  | nil => simp
  | cons a l ih =>
    obtain ⟨alone, rest⟩ := List.pairwise_cons.mp h
    cases ha : f a with
    | none =>
      rw [List.filterMap_cons_none ha]
      exact ih rest
    | some b =>
      have others : l.filterMap f = [] := by
        apply List.filterMap_eq_nil_iff.mpr
        intro c hc
        exact (alone c hc).resolve_left (by simp [ha])
      rw [List.filterMap_cons_some ha, others, List.length_singleton]

section Directory
variable {d : ResultDir} {metric : String} (hm : metric ∈ metricNames)
include hm

/-- What gets through both filters is the header of the metric itself. -/
theorem survivor_isHeader {line n : Text} (hl : line ∈ d.lines) (found : mark metric <:+: line)
    (hs : sed line = some n) : IsHeader line metric.toList n := by
  obtain ⟨event, k, header⟩ := d.format line hl metric hm found (by simp [hs])
  obtain rfl : k = n := by simpa [header.sed_eq] using hs
  rw [← header.event_eq (metricNames_words metric hm) found]
  exact header

theorem records_of_mem {n : Text} (h : n ∈ readValues metric d.lines) : d.Records metric n := by
  obtain ⟨line, hl, hs⟩ := List.mem_filterMap.mp h
  obtain ⟨hl, found⟩ := List.mem_filter.mp hl
  exact ⟨line, hl, survivor_isHeader hm hl (of_decide_eq_true found) hs⟩

omit hm in
theorem mem_of_records {n : Text} (h : d.Records metric n) : n ∈ readValues metric d.lines := by
  obtain ⟨line, hl, header⟩ := h
  have found : mark metric <:+: line := by
    refine ⟨[], n ++ " samples]".toList, ?_⟩
    simp [mark, header.shape]
  exact List.mem_filterMap.mpr
    ⟨line, List.mem_filter.mpr ⟨hl, decide_eq_true found⟩, header.sed_eq⟩

theorem readValues_length_le : (readValues metric d.lines).length ≤ 1 := by
  have header {line n : Text} (hl : line ∈ d.lines)
      (passes : (if decide (mark metric <:+: line) = true then sed line else none) = some n) :
      IsHeader line metric.toList n := by
    split at passes
    · rename_i found
      exact survivor_isHeader hm hl (of_decide_eq_true found) passes
    · cases passes
  unfold readValues grep
  rw [List.filterMap_filter]
  apply filterMap_length_le_one
  apply (d.single metric.toList).imp_of_mem
  intro a b ha hb notBoth
  by_contra both
  obtain ⟨hna, hnb⟩ := not_or.mp both
  obtain ⟨n, hn⟩ := Option.ne_none_iff_exists'.mp hna
  obtain ⟨k, hk⟩ := Option.ne_none_iff_exists'.mp hnb
  exact notBoth ⟨⟨n, header ha hn⟩, k, header hb hk⟩

end Directory

/-- The count that the script finds in a directory of its own. -/
def ResultDir.recorded (d : ResultDir) (metric : String) : Option Text :=
  (readValues metric d.lines).head?

theorem readValues_eq (d : ResultDir) {metric : String} (hm : metric ∈ metricNames) :
    readValues metric d.lines = (d.recorded metric).toList := by
  have short := readValues_length_le (d := d) hm
  unfold ResultDir.recorded
  rcases hv : readValues metric d.lines with _ | ⟨v, _ | ⟨w, vs⟩⟩
  · rfl
  · rfl
  · simp [hv] at short

theorem recorded_eq_some_iff (d : ResultDir) {metric : String} (hm : metric ∈ metricNames)
    {n : Text} : d.recorded metric = some n ↔ d.Records metric n := by
  have eq := readValues_eq d hm
  constructor
  · intro h
    exact records_of_mem hm (by simp [eq, h])
  · intro h
    have found := mem_of_records h
    simpa [eq] using found

/-! ## The three directories -/

/-- The value is the recorded count, and 0 where none is recorded. -/
def ResultDir.Attributes (d : ResultDir) (metric : String) (value : Text) : Prop :=
  (∀ n, d.Records metric n → value = n) ∧ ((∀ n, ¬ d.Records metric n) → value = ['0'])

theorem ResultDir.attributes_iff (d : ResultDir) {metric : String} (hm : metric ∈ metricNames)
    {value : Text} : d.Attributes metric value ↔ value = (d.recorded metric).getD ['0'] := by
  have records {n : Text} := recorded_eq_some_iff d hm (n := n)
  unfold ResultDir.Attributes
  simp only [← records]
  cases d.recorded metric <;> simp

section Directories
variable (dirs : Abi → ResultDir) {metric : String} (hm : metric ∈ metricNames)

/-- The counts in glob order, with a gap where a directory has none. -/
def found (metric : String) : List (Option Text) := Abi.all.map fun abi => (dirs abi).recorded metric

omit hm in
theorem entry_found (abi : Abi) : Gaps.entry ['0'] (found dirs metric) abi.index =
    ((dirs abi).recorded metric).getD ['0'] := by
  cases abi <;> rfl

include hm

theorem readValues_cat : readValues metric (cat dirs) = (found dirs metric).reduceOption := by
  simp only [cat, found, Abi.all, List.flatMap_cons, List.flatMap_nil, readValues_append,
    readValues_eq _ hm, List.map_cons, List.map_nil]
  cases (dirs .hybrid).recorded metric <;> cases (dirs .purecapBenchmark).recorded metric <;>
    cases (dirs .purecap).recorded metric <;> rfl

theorem orZero_value (k : ℕ) : orZero (readValues metric (cat dirs))[k]? =
    Gaps.packed ['0'] (found dirs metric) k := by
  rw [Gaps.packed, ← readValues_cat dirs hm, List.getD_eq_getElem?_getD]
  rcases hv : (readValues metric (cat dirs))[k]? with _ | v
  · rfl
  · have hne : v ≠ [] := by
      have hmem := List.mem_of_getElem? hv
      rw [readValues_cat dirs hm, List.reduceOption_mem_iff] at hmem
      obtain ⟨abi, _, hrec⟩ := List.mem_map.mp hmem
      obtain ⟨line, _, header⟩ := (recorded_eq_some_iff _ hm).mp hrec
      exact header.number.1
    cases v with
    | nil => exact absurd rfl hne
    | cons c cs => rfl

theorem slot_eq (abi : Abi) :
    (metricTuple dirs metric).slot abi = Gaps.packed ['0'] (found dirs metric) abi.index := by
  rw [← orZero_value dirs hm]
  cases abi <;> rfl

omit hm in
theorem pairwise_found {R : Option Text → Option Text → Prop} : (found dirs metric).Pairwise R ↔
    ∀ a b : Abi, a.index < b.index → R ((dirs a).recorded metric) ((dirs b).recorded metric) := by
  simp only [found, Abi.all, List.map_cons, List.map_nil, List.pairwise_cons, List.mem_cons,
    List.not_mem_nil, or_false, forall_eq_or_imp, forall_eq]
  constructor
  · rintro ⟨⟨h₁, h₂⟩, h₃, -⟩ a b hab
    cases a <;> cases b <;> simp [Abi.index] at hab <;> assumption
  · intro h
    refine ⟨⟨h _ _ (by decide), h _ _ (by decide)⟩, h _ _ (by decide), ?_⟩
    simp

theorem metric_attributes_iff :
    (∀ abi, (dirs abi).Attributes metric ((metricTuple dirs metric).slot abi)) ↔
      ∀ a b : Abi, a.index < b.index → (∀ n, ¬ (dirs a).Records metric n) →
        ∀ n, (dirs b).Records metric n → n = ['0'] := by
  have byPosition : (∀ abi, (dirs abi).Attributes metric ((metricTuple dirs metric).slot abi)) ↔
      ∀ k, Gaps.packed ['0'] (found dirs metric) k = Gaps.entry ['0'] (found dirs metric) k := by
    simp only [ResultDir.attributes_iff _ hm, slot_eq dirs hm, ← entry_found]
    constructor
    · intro h k
      match k with
      | 0 => exact h .hybrid
      | 1 => exact h .purecapBenchmark
      | 2 => exact h .purecap
      | k + 3 =>
        rw [Gaps.packed_beyond _ (by simp [found, Abi.all]),
          Gaps.entry_beyond _ (by simp [found, Abi.all])]
    · intro h abi
      exact h abi.index
  rw [byPosition, Gaps.packed_eq_entry_iff, pairwise_found]
  simp only [← recorded_eq_some_iff _ hm]
  have gap (o : Option Text) : (∀ n, ¬ o = some n) ↔ o = none := by cases o <;> simp
  have zero (o : Option Text) : (∀ n, o = some n → n = ['0']) ↔ o.getD ['0'] = ['0'] := by
    cases o <;> simp
  simp only [gap, zero]

end Directories

/-- Every slot holds the count of its own ABI exactly when, for each metric, a
directory that has no line for it is followed by none that records a count other
than 0: the later counts move up into the slots of the missing ones. -/
theorem verboseList_attributes_iff (dirs : Abi → ResultDir) :
    (∀ row ∈ verboseList dirs, ∀ abi, (dirs abi).Attributes row.1 (row.2.slot abi)) ↔
      ∀ metric ∈ metricNames, ∀ a b : Abi, a.index < b.index →
        (∀ n, ¬ (dirs a).Records metric n) → ∀ n, (dirs b).Records metric n → n = ['0'] := by
  rw [verboseList, List.forall_mem_map]
  exact forall₂_congr fun metric hm => metric_attributes_iff dirs hm

/-- One file with one header. -/
def oneHeader (event n : Text) (word : ' ' ∉ event) (number : n ≠ [] ∧ ∀ c ∈ n, c.isDigit) :
    ResultDir where
  files := [['@' :: ' ' :: (event ++ ' ' :: '[' :: (n ++ " samples]".toList))]]
  format line hl _ _ _ _ := ⟨event, n, word, number, by simpa using hl⟩
  single _ := List.pairwise_singleton _ _

theorem digit_numeral {c : Char} (hc : c.isDigit) : [c] ≠ [] ∧ ∀ d ∈ [c], d.isDigit :=
  ⟨List.cons_ne_nil c [], List.forall_mem_singleton.mpr hc⟩

/-- The run on hybrid has left no file. -/
def hybridMissing : Abi → ResultDir
  | .hybrid => ⟨[], by simp, by simp⟩
  | .purecapBenchmark => oneHeader "inst_retired".toList ['7'] (by decide) (digit_numeral rfl)
  | .purecap => oneHeader "inst_retired".toList ['9'] (by decide) (digit_numeral rfl)

theorem verboseList_shifts : ¬ ∀ row ∈ verboseList hybridMissing, ∀ abi,
    (hybridMissing abi).Attributes row.1 (row.2.slot abi) := by
  intro h
  have listed : "inst_retired" ∈ metricNames := by decide
  have attributed := (metric_attributes_iff hybridMissing listed).mp
    (h ("inst_retired", metricTuple hybridMissing "inst_retired") (List.mem_map_of_mem listed))
  have missing : ∀ n, ¬ (hybridMissing .hybrid).Records "inst_retired" n := by
    rintro n ⟨line, hl, -⟩
    simp [hybridMissing, ResultDir.lines] at hl
  have recorded : (hybridMissing .purecapBenchmark).Records "inst_retired" ['7'] :=
    ⟨_, List.mem_singleton_self _, by decide, digit_numeral rfl, rfl⟩
  exact absurd (attributed .hybrid .purecapBenchmark (by decide) missing _ recorded) (by decide)

example : (metricTuple hybridMissing "inst_retired").values = [['7'], ['9'], ['0']] := by decide

end MorelloWorkloads.Pmu
