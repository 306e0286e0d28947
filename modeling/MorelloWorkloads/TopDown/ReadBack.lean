import MorelloWorkloads.TopDown.Results
import Mathlib.Algebra.Order.Floor.Ring
import Mathlib.Data.Rat.Floor

/-! The output file read back. `main` puts its own quotes around the names and
escapes nothing, so the names decide what `literal_eval` finds in the file. -/
namespace MorelloWorkloads.TopDown
open PyLiteral

/-- The entry of a benchmark in the dictionary that the file should be read as. -/
def entryOf (name : List Char) (columns : List (List ℚ)) : List Char × Dict (List Char) (List ℚ) :=
  (name, titles.zip columns)

/-! ## Tokens of a record -/

theorem titles_plain : ∀ title ∈ titles, plain title = true := by decide

theorem titles_nodup : titles.Nodup := by decide

theorem lex_column (title : List Char) (h : plain title = true) (column : List ℚ)
    (rest : List (Symbol (List ℚ))) :
    lex .outside (chars ([' ', ' ', '\''] ++ title ++ ['\'', ':', ' ']) ++
        .value column :: line [','] ++ rest) =
      (lex .outside rest).map ([.str title, .colon, .value column, .comma] ++ ·) := by
  have text : chars ([' ', ' ', '\''] ++ title ++ ['\'', ':', ' ']) ++ .value column :: line [','] ++ rest =
      .char ' ' :: .char ' ' :: .char '\'' :: (chars title ++ .char '\'' ::
        (.char ':' :: .char ' ' :: .value column :: .char ',' :: .char '\n' :: rest)) := by
    simp [chars, line]
  have blank (more : List (Symbol (List ℚ))) : lex .outside (.char ' ' :: more) = lex .outside more := by
    rw [lex_outside, if_neg (by decide), if_pos (by decide)]
  rw [text, blank, blank, lex_quoted title h]
  simp [lex_outside, lex_value, blanks, mark, Function.comp_def]

theorem lex_columns (columns : Dict (List Char) (List ℚ)) (h : ∀ e ∈ columns, plain e.1 = true)
    (rest : List (Symbol (List ℚ))) :
    lex .outside (columns.flatMap (fun (title, column) =>
        chars ([' ', ' ', '\''] ++ title ++ ['\'', ':', ' ']) ++ .value column :: line [',']) ++ rest) =
      (lex .outside rest).map (innerTokens columns ++ ·) := by
  induction columns with
  | nil => simp [innerTokens]
  | cons e columns ih =>
    rw [List.flatMap_cons, List.append_assoc, lex_column e.1 (h e List.mem_cons_self),
      ih fun e' he => h e' (List.mem_cons_of_mem e he)]
    simp [innerTokens, Function.comp_def]

theorem lex_recordBody (columns : List (List ℚ)) (rest : List (Symbol (List ℚ))) :
    lex .outside (recordBody columns ++ rest) =
      (lex .outside rest).map (innerTokens (titles.zip columns) ++ .rbrace :: .comma :: ·) := by
  have named : ∀ e ∈ titles.zip columns, plain e.1 = true := fun e he =>
    titles_plain e.1 (List.of_mem_zip he).1
  have close : lex .outside (line ['}', ','] ++ rest) =
      (lex .outside rest).map (.rbrace :: .comma :: ·) := by
    simp [line, chars, lex_outside, blanks, mark, Function.comp_def]
  rw [recordBody, List.append_assoc, lex_columns _ named, close]
  simp [Function.comp_def]

theorem record_text (name : List Char) (columns : List (List ℚ)) (rest : List (Symbol (List ℚ))) :
    record name columns ++ rest =
      .char '\'' :: (chars name ++ (chars opening ++ (recordBody columns ++ rest))) := by
  simp [record, line, chars, opening]

variable {α : Type} (name : α → List Char) (columns : α → List (List ℚ))

/-- The text between the first and the last line of the file. -/
def recordsText (l : List α) : List (Symbol (List ℚ)) :=
  l.flatMap fun b => record (name b) (columns b)

def expected (l : List α) : Dict (List Char) (Dict (List Char) (List ℚ)) :=
  l.map fun b => entryOf (name b) (columns b)

theorem recordsText_cons (b : α) (l : List α) (rest : List (Symbol (List ℚ))) :
    recordsText name columns (b :: l) ++ rest =
      record (name b) (columns b) ++ (recordsText name columns l ++ rest) := by
  rw [recordsText, List.flatMap_cons, List.append_assoc, ← recordsText]

theorem lex_records (l : List α) (h : ∀ b ∈ l, plain (name b) = true) (rest : List (Symbol (List ℚ))) :
    lex .outside (recordsText name columns l ++ rest) =
      (lex .outside rest).map (outerTokens (expected name columns l) ++ ·) := by
  induction l with
  | nil => simp [recordsText, outerTokens, expected]
  | cons b l ih =>
    rw [recordsText_cons, record_text, lex_plain_key_line (h b List.mem_cons_self), lex_recordBody,
      ih fun b' hb => h b' (List.mem_cons_of_mem b hb)]
    simp [expected, outerTokens, entryOf, Function.comp_def]

theorem lex_first (rest : List (Symbol (List ℚ))) :
    lex .outside (line ['{'] ++ rest) = (lex .outside rest).map (.lbrace :: ·) := by
  simp [line, chars, lex_outside, blanks, mark]

theorem lex_last : lex .outside (line ['}']) = some [(.rbrace : Token (List ℚ))] := by
  simp [line, chars, lex_outside, lex_nil, blanks, mark]

/-- Plain names, each once, come back with their columns. -/
theorem literalEval_of_plain {l : List α} (distinct : (l.map name).Nodup)
    (shaped : ∀ b ∈ l, Shaped (columns b)) (h : ∀ b ∈ l, plain (name b) = true) :
    literalEval (line ['{'] ++ recordsText name columns l ++ line ['}']) =
      some (expected name columns l) := by
  have names : (expected name columns l).map Prod.fst = l.map name := by
    simp [expected, entryOf, Function.comp_def]
  have inner : ∀ e ∈ expected name columns l, (e.2.map Prod.fst).Nodup := by
    intro e he
    obtain ⟨b, hb, rfl⟩ := List.mem_map.mp he
    rw [entryOf, List.map_fst_zip (by rw [(shaped b hb).1]; decide)]
    exact titles_nodup
  rw [literalEval, List.append_assoc, lex_first, lex_records name columns l h, lex_last]
  simp only [Option.map_some, Option.bind_eq_bind, Option.bind_some]
  exact entries_outer _ [] (by rwa [List.nil_append, names]) inner

/-! ## Names that are not plain -/

theorem mem_innerTokens {d : Dict (List Char) (List ℚ)} {s : List Char}
    (h : .str s ∈ innerTokens d) : s ∈ d.map Prod.fst := by
  obtain ⟨e, he, hs⟩ := List.mem_flatMap.mp h
  obtain rfl : s = e.1 := by simpa using hs
  exact List.mem_map_of_mem he

/-- The strings of the file are titles, plain names, and texts that are shorter
than a name that is not plain. -/
theorem records_strings {l : List α} {rest : List (Symbol (List ℚ))} {tokens : List (Token (List ℚ))}
    (run : lex .outside (recordsText name columns l ++ rest) = some tokens)
    (closed : ∀ back, lex .outside rest = some back → ∀ s, .str s ∉ back) {s : List Char}
    (hs : .str s ∈ tokens) :
    s ∈ titles ∨ ∃ b ∈ l, s = name b ∧ plain (name b) = true ∨
      plain (name b) = false ∧ s.length < (name b).length := by
  induction l generalizing tokens with
  | nil => exact absurd hs (closed tokens run s)
  | cons b l ih =>
    rw [recordsText_cons, record_text] at run
    obtain ⟨front, back, rfl, body, all⟩ := lex_key_line _ _ run
    rw [lex_recordBody] at body
    obtain ⟨later, hlater, rfl⟩ := Option.map_eq_some_iff.mp body
    simp only [List.mem_append, List.mem_cons] at hs
    rcases hs with hfront | hinner | brace | comma | hrest
    · exact .inr ⟨b, List.mem_cons_self, all s hfront⟩
    · left
      obtain ⟨e, he, rfl⟩ := List.mem_map.mp (mem_innerTokens hinner)
      exact (List.of_mem_zip he).1
    · cases brace
    · cases comma
    · rcases ih hlater hrest with title | ⟨b', hb, h⟩
      · exact .inl title
      · exact .inr ⟨b', List.mem_cons_of_mem b hb, h⟩

/-- If the file is read as it should be, then every name is plain: a name that is
not would have to be shorter than another such name. -/
theorem plain_of_literalEval {l : List α}
    (read : literalEval (line ['{'] ++ recordsText name columns l ++ line ['}']) =
      some (expected name columns l)) : ∀ b ∈ l, plain (name b) = true := by
  have ends (back : List (Token (List ℚ))) (h : lex .outside (line ['}']) = some back) (s : List Char) :
      .str s ∉ back := by
    rw [lex_last] at h
    cases h
    simp
  rw [literalEval, List.append_assoc, lex_first] at read
  obtain ⟨opened, start, read⟩ := Option.bind_eq_some_iff.mp read
  obtain ⟨tokens, run, rfl⟩ := Option.map_eq_some_iff.mp start
  have longer {b : α} (hb : b ∈ l) (bad : plain (name b) = false) :
      ∃ b' ∈ l, plain (name b') = false ∧ (name b).length < (name b').length := by
    have key : name b ∈ (expected name columns l).map Prod.fst :=
      List.mem_map.mpr ⟨_, List.mem_map_of_mem hb, rfl⟩
    rcases entries_keys read key with nokey | ⟨d, nokey⟩ | found
    · cases nokey
    · cases nokey
    · rcases records_strings name columns run ends found with title | ⟨b', hb', ⟨same, good⟩ | h⟩
      · rw [titles_plain _ title] at bad
        cases bad
      · rw [same, good] at bad
        cases bad
      · exact ⟨b', hb', h⟩
  -- otherwise there would be names of any length
  by_contra h
  push Not at h
  have every : ∀ n : ℕ, ∃ b ∈ l, plain (name b) = false ∧ n ≤ (name b).length := by
    intro n
    induction n with
    | zero =>
      obtain ⟨b, hb, bad⟩ := h
      exact ⟨b, hb, by simpa using bad, Nat.zero_le _⟩
    | succ n ih =>
      obtain ⟨b, hb, bad, hn⟩ := ih
      obtain ⟨b', hb', bad', lt⟩ := longer hb bad
      exact ⟨b', hb', bad', by omega⟩
  obtain ⟨b, hb, -, long⟩ := every ((l.map fun b => (name b).length).sum + 1)
  have short : (name b).length ≤ (l.map fun b => (name b).length).sum :=
    List.le_sum_of_mem (List.mem_map_of_mem hb)
  omega

/-! ## The whole of `main` -/

theorem main_records {round : ℚ → ℚ} (idem : ∀ x, round (round x) = round x) {results : List Benchmark}
    {s : State} (run : main round results = .ok s) :
    ∃ own : Benchmark → Fin 3 → Metrics,
      (∀ b ∈ results, ∀ i, topDownAnalysis (b.slots i) = .ok (own b i)) ∧
      s.file = line ['{'] ++ (results.flatMap fun b => record b.name (rounded round (own b))) ++
        line ['}'] := by
  have returned : ∀ b : Benchmark, ∃ own : Fin 3 → Metrics, b ∈ results →
      ∀ i, topDownAnalysis (b.slots i) = .ok (own i) := by
    intro b
    by_cases hb : b ∈ results
    · have ok := ((main_ok_iff round results).mp ⟨s, run⟩ b hb).2
      exact ⟨fun i => (ok i).choose, fun _ i => (ok i).choose_spec⟩
    · exact ⟨fun _ => .zero, fun h => absurd h hb⟩
  choose own analysed using returned
  exact ⟨own, analysed, main_run idem analysed run⟩

/-- The records are those of the benchmarks' own slots, whatever was analysed
before them; they are read back as such exactly when all names are plain. -/
theorem results_read_back_iff {round : ℚ → ℚ} (idem : ∀ x, round (round x) = round x)
    {results : List Benchmark} (distinct : (results.map Benchmark.name).Nodup) {s : State}
    (run : main round results = .ok s) :
    ∃ own : Benchmark → Fin 3 → Metrics,
      (∀ b ∈ results, ∀ i, topDownAnalysis (b.slots i) = .ok (own b i)) ∧
      s.file = line ['{'] ++ (results.flatMap fun b => record b.name (rounded round (own b))) ++
        line ['}'] ∧
      (literalEval s.file = some (results.map fun b => (b.name, titles.zip (rounded round (own b)))) ↔
        ∀ b ∈ results, plain b.name = true) := by
  obtain ⟨own, analysed, file⟩ := main_records idem run
  refine ⟨own, analysed, file, ?_⟩
  rw [file]
  constructor
  · intro read
    exact plain_of_literalEval Benchmark.name (fun b => rounded round (own b)) read
  · intro good
    exact literalEval_of_plain Benchmark.name (fun b => rounded round (own b)) distinct
      (fun b _ => rounded_shaped round (own b)) good

/-- Python's `round(x, 3)` where `x` is exact: ties go to the even digit. -/
def roundThree (x : ℚ) : ℚ :=
  let y := 1000 * x
  let d := y - ⌊y⌋
  (if d < 1 / 2 ∨ d = 1 / 2 ∧ ⌊y⌋ % 2 = 0 then ⌊y⌋ else ⌊y⌋ + 1 : ℤ) / 1000

theorem roundThree_idem (x : ℚ) : roundThree (roundThree x) = roundThree x := by
  have fixed (n : ℤ) : roundThree (n / 1000) = n / 1000 := by
    have whole : (1000 : ℚ) * (n / 1000) = n := by ring
    simp only [roundThree, whole, Int.floor_intCast, sub_self]
    rw [if_pos (.inl (by norm_num))]
  rw [roundThree]
  exact fixed _

theorem measured_runs (round : ℚ → ℚ) : ∃ s, main round measured = .ok s := by
  rw [main_ok_iff]
  intro b hb
  obtain ⟨cycles, specs⟩ := measured_speculates b hb
  refine ⟨cycles.ne', fun i => ?_⟩
  rw [topDownAnalysis_ok_iff, specTotal_ne_zero_iff (measured_nonneg b hb i)]
  exact specs i

theorem results_read_back_iff_measured : ∃ (s : State) (own : Benchmark → Fin 3 → Metrics),
    main roundThree measured = .ok s ∧
    (∀ b ∈ measured, ∀ i, topDownAnalysis (b.slots i) = .ok (own b i)) ∧
    literalEval s.file =
      some (measured.map fun b => (b.name, titles.zip (rounded roundThree (own b)))) := by
  obtain ⟨s, run⟩ := measured_runs roundThree
  obtain ⟨own, analysed, -, read⟩ := results_read_back_iff roundThree_idem (by decide) run
  refine ⟨s, own, run, analysed, read.mpr fun b hb => ?_⟩
  obtain rfl | rfl := List.mem_pair.mp hb
  · decide
  · decide

theorem main_runs (round : ℚ → ℚ) (b : Benchmark) (valid : ∀ i, Plausible (b.slots i)) :
    ∃ s, main round [b] = .ok s := by
  rw [main_ok_iff]
  intro b' hb
  obtain rfl := List.mem_singleton.mp hb
  refine ⟨(valid 0).cpuCycles.ne', fun i => ?_⟩
  obtain ⟨m, hm, -⟩ := topDownAnalysis_analysed (valid i)
  exact ⟨m, hm⟩

/-- A name with a quote in it: the file is no literal. -/
theorem quoted_name_unreadable : ∃ s,
    main roundThree [⟨['i', 't', '\'', 's'], fun _ => halfRetired 10⟩] = .ok s ∧
    literalEval s.file = none := by
  obtain ⟨s, run⟩ := main_runs roundThree ⟨['i', 't', '\'', 's'], fun _ => halfRetired 10⟩
    fun _ => halfRetired_valid (by norm_num)
  obtain ⟨own, -, file⟩ := main_records roundThree_idem run
  -- the string ends before the `s`, which is no token
  have broken (rest : List (Symbol (List ℚ))) :
      lex .outside (.char '\'' :: (chars ['i', 't', '\'', 's'] ++ rest)) = none := by
    simp [lex_outside, lex_inside, chars, breaks, blanks, mark]
  refine ⟨s, run, ?_⟩
  rw [file, literalEval, List.append_assoc, lex_first, List.flatMap_cons, List.append_assoc,
    record_text, broken]
  rfl

end MorelloWorkloads.TopDown
