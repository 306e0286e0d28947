import MorelloWorkloads.Lib.CString

/-! `speedtest1_numbername`: the English name of a number, written into a buffer that may
be too small for it. -/
namespace MorelloWorkloads.Speedtest
open CString

def ones : List (List Char) :=
  ["zero".toList, "one".toList, "two".toList, "three".toList, "four".toList, "five".toList, "six".toList,
    "seven".toList, "eight".toList, "nine".toList, "ten".toList, "eleven".toList, "twelve".toList,
    "thirteen".toList, "fourteen".toList, "fifteen".toList, "sixteen".toList, "seventeen".toList,
    "eighteen".toList, "nineteen".toList]

def tens : List (List Char) :=
  ["".toList, "ten".toList, "twenty".toList, "thirty".toList, "forty".toList, "fifty".toList,
    "sixty".toList, "seventy".toList, "eighty".toList, "ninety".toList]

section Model
variable (ok : ℤ → Prop) [DecidablePred ok]

/-- `sqlite3_snprintf` and `strlen` at `zOut+i`. -/
def put (z nOut : ℤ) (text : List Char) : (ℤ → Char) × ℤ → Option ((ℤ → Char) × ℤ)
  | (m, i) => do
    let m ← snprintf ok '\x00' m (z + i) (nOut - i) text
    let n ← strlen ok '\x00' m (nOut - i).toNat (z + i)
    return (m, i + n)

/-- `if( i && i<nOut-1 ) zOut[i++] = ' ';` -/
def space (z nOut : ℤ) : (ℤ → Char) × ℤ → Option ((ℤ → Char) × ℤ)
  | (m, i) =>
    if i ≠ 0 ∧ i < nOut - 1 then do
      let m ← store ok m (z + i) [' ']
      return (m, i + 1)
    else some (m, i)

/-- A piece of the name behind a space. -/
def putWord (z nOut : ℤ) (text : List Char) (r : (ℤ → Char) × ℤ) : Option ((ℤ → Char) × ℤ) := do
  let r ← space ok z nOut r
  put ok z nOut text r

/-- A piece that `call` writes, and its unit. -/
def putGroup (call : ℤ → ℤ → (ℤ → Char) → Option ((ℤ → Char) × ℤ)) (z nOut : ℤ) (unit : List Char)
    (r : (ℤ → Char) × ℤ) : Option ((ℤ → Char) × ℤ) := do
  let (m, i) ← space ok z nOut r
  let (m, j) ← call (z + i) (nOut - i) m
  put ok z nOut unit (m, i + j)

/-- What a test for `unit` leaves of the number. -/
def remaining (n unit : ℕ) : ℕ := if n ≥ unit then n % unit else n

theorem remaining_le (n unit : ℕ) : remaining n unit ≤ n := by
  unfold remaining
  split
  · exact Nat.mod_le n unit
  · exact le_rfl

/-- `z` is `zOut`. The result is the memory after the call and what the call returns. At
the billions there is no test for a space, as `i` is zero. -/
def numbername (n : ℕ) (z nOut : ℤ) (m : ℤ → Char) : Option ((ℤ → Char) × ℤ) := do
  let r ← (if n ≥ 1000000000 then do
      let (m, j) ← numbername (n / 1000000000) z nOut m
      put ok z nOut " billion".toList (m, j)
    else some (m, 0))
  let n₁ := remaining n 1000000000
  let r ← (if n₁ ≥ 1000000 then putGroup ok (numbername (n₁ / 1000000)) z nOut " million".toList r else some r)
  let n₂ := remaining n₁ 1000000
  let r ← (if n₂ ≥ 1000 then putGroup ok (numbername (n₂ / 1000)) z nOut " thousand".toList r else some r)
  let n₃ := remaining n₂ 1000
  let r ← (if n₃ ≥ 100 then putWord ok z nOut (ones.getD (n₃ / 100) [] ++ " hundred".toList) r else some r)
  let n₄ := remaining n₃ 100
  let r ← (if n₄ ≥ 20 then putWord ok z nOut (tens.getD (n₄ / 10) []) r else some r)
  let n₅ := if n₄ ≥ 20 then n₄ % 10 else n₄
  let r ← (if n₅ > 0 then putWord ok z nOut (ones.getD n₅ []) r else some r)
  if r.2 = 0 then put ok z nOut "zero".toList r else some r
termination_by n
decreasing_by
  · omega
  · have := remaining_le n 1000000000
    omega
  · have := remaining_le n 1000000000
    have := remaining_le (remaining n 1000000000) 1000000
    have large : remaining (remaining n 1000000000) 1000000 ≥ 1000 := ‹_›
    omega

end Model

/-! ## The words of a name -/

def sentence (ws : List (List Char)) : List Char := [' '].intercalate ws

/-- What is left of a number below a hundred after the tens. -/
def single (k : ℕ) : ℕ := if k ≥ 20 then k % 10 else k

def belowHundred (k : ℕ) : List (List Char) :=
  (if k ≥ 20 then [tens.getD (k / 10) []] else []) ++ if single k > 0 then [ones.getD (single k) []] else []

/-- The hundreds, tens and ones; nothing for zero. -/
def belowThousand (k : ℕ) : List (List Char) :=
  (if k ≥ 100 then [ones.getD (k / 100) [], "hundred".toList] else []) ++ belowHundred (k % 100)

def groupWords (k : ℕ) (unit : List Char) : List (List Char) :=
  if k = 0 then [] else belowThousand k ++ [unit]

/-- The groups of a number below a thousand billion. -/
def parts (n : ℕ) : List (List Char) :=
  groupWords (n / 1000000000) "billion".toList ++
    (groupWords (n % 1000000000 / 1000000) "million".toList ++
      (groupWords (n % 1000000000 % 1000000 / 1000) "thousand".toList ++
        belowThousand (n % 1000000000 % 1000000 % 1000)))

def words (n : ℕ) : List (List Char) := if parts n = [] then ["zero".toList] else parts n

/-- A word can be told from its neighbours and from the end of a string. -/
def Plain (w : List Char) : Prop := w ≠ [] ∧ ' ' ∉ w ∧ '\x00' ∉ w ∧ w.length ≤ 9

instance : DecidablePred Plain := fun _ => inferInstanceAs (Decidable (_ ∧ _))

theorem ones_plain {k : ℕ} (small : k < 20) : Plain (ones.getD k []) := by
  have all : ∀ k < 20, Plain (ones.getD k []) := by decide +kernel
  exact all k small

theorem tens_plain {k : ℕ} (low : 2 ≤ k) (high : k < 10) : Plain (tens.getD k []) := by
  have all : ∀ k < 10, 2 ≤ k → Plain (tens.getD k []) := by decide +kernel
  exact all k high low

theorem single_lt {k : ℕ} : single k < 20 := by
  unfold single
  split
  · omega
  · omega

theorem belowThousand_plain {k : ℕ} (small : k < 1000) : ∀ w ∈ belowThousand k, Plain w := by
  have hundred : Plain "hundred".toList := by decide
  unfold belowThousand belowHundred
  simp only [List.mem_append]
  rintro w (first | second | third)
  · split at first
    · obtain rfl | rfl := List.mem_pair.mp first
      · exact ones_plain (by omega)
      · exact hundred
    · cases first
  · split at second
    · rw [List.mem_singleton.mp second]
      exact tens_plain (by omega) (by omega)
    · cases second
  · split at third
    · rw [List.mem_singleton.mp third]
      exact ones_plain single_lt
    · cases third

theorem groupWords_plain {k : ℕ} (small : k < 1000) {unit : List Char} (plain : Plain unit) :
    ∀ w ∈ groupWords k unit, Plain w := by
  unfold groupWords
  split
  · simp
  · intro w member
    cases List.mem_append.mp member with
    | inl inside => exact belowThousand_plain small w inside
    | inr last => rwa [List.mem_singleton.mp last]

theorem words_plain {n : ℕ} (small : n < 10 ^ 12) : ∀ w ∈ words n, Plain w := by
  have units : Plain "zero".toList ∧ Plain "billion".toList ∧ Plain "million".toList ∧
      Plain "thousand".toList := by decide
  obtain ⟨zero, billion, million, thousand⟩ := units
  unfold words
  split
  · intro w member
    rwa [List.mem_singleton.mp member]
  · unfold parts
    simp only [List.mem_append]
    rintro w (b | m | t | rest)
    · exact groupWords_plain (by omega) billion w b
    · exact groupWords_plain (by omega) million w m
    · exact groupWords_plain (by omega) thousand w t
    · exact belowThousand_plain (by omega) w rest

theorem belowThousand_ne_nil {k : ℕ} (nonzero : k ≠ 0) : belowThousand k ≠ [] := by
  intro empty
  obtain ⟨hundreds, rest⟩ := List.append_eq_nil_iff.mp empty
  obtain ⟨tens, last⟩ := List.append_eq_nil_iff.mp rest
  have small : k < 100 := by
    by_contra large
    rw [if_pos (by omega)] at hundreds
    cases hundreds
  have smaller : k % 100 < 20 := by
    by_contra large
    rw [if_pos (by omega)] at tens
    cases tens
  have left : single (k % 100) > 0 := by
    rw [single, if_neg (by omega)]
    omega
  rw [if_pos left] at last
  cases last

theorem words_ne_nil (n : ℕ) : words n ≠ [] := by
  unfold words
  split
  · simp
  · assumption

theorem words_small {k : ℕ} (nonzero : k ≠ 0) (small : k < 1000) : words k = belowThousand k := by
  have b : k / 1000000000 = 0 := by omega
  have m : k % 1000000000 / 1000000 = 0 := by omega
  have t : k % 1000000000 % 1000000 / 1000 = 0 := by omega
  have rest : k % 1000000000 % 1000000 % 1000 = k := by omega
  have only : parts k = belowThousand k := by
    rw [parts, b, m, t, rest]
    rfl
  rw [words, only, if_neg (belowThousand_ne_nil nonzero)]

section Sentences
variable {ws us : List (List Char)}

/-- What separates a text from a word behind it. -/
def gap (text : List Char) : List Char := if text = [] then [] else [' ']

theorem sentence_eq_nil (full : ∀ w ∈ ws, w ≠ []) : sentence ws = [] ↔ ws = [] := by
  cases ws with
  | nil => simp [sentence]
  | cons w ws =>
    have first := full w (by simp)
    cases ws with
    | nil => simp [sentence, first]
    | cons v ws => simp [sentence, List.intercalate_cons_cons]

theorem sentence_cons (w : List Char) (more : ws ≠ []) : sentence (w :: ws) = w ++ [' '] ++ sentence ws := by
  rw [sentence, List.intercalate_cons_of_ne_nil more, sentence]

theorem sentence_append (full : ∀ w ∈ ws, w ≠ []) (more : us ≠ []) :
    sentence (ws ++ us) = sentence ws ++ gap (sentence ws) ++ sentence us := by
  by_cases empty : ws = []
  · simp [empty, sentence, gap]
  · rw [gap, if_neg (mt (sentence_eq_nil full).mp empty)]
    exact intercalate_append empty more

theorem sentence_length (short : ∀ w ∈ ws, w.length ≤ 9) : (sentence ws).length ≤ 10 * ws.length := by
  induction ws with
  | nil => simp [sentence]
  | cons w ws ih =>
    have first := short w (by simp)
    have rest := ih fun u member => short u (List.mem_cons_of_mem w member)
    cases ws with
    | nil =>
      simp only [sentence, List.intercalate_singleton, List.length_singleton]
      omega
    | cons v ws =>
      rw [sentence_cons w (by simp)]
      simp only [List.length_append, List.length_cons, List.length_nil] at rest ⊢
      omega

theorem sentence_plain (plain : ∀ w ∈ ws, '\x00' ∉ w) : '\x00' ∉ sentence ws := by
  induction ws with
  | nil => simp [sentence]
  | cons w ws ih =>
    have first := plain w (by simp)
    have rest := ih fun u member => plain u (List.mem_cons_of_mem w member)
    cases ws with
    | nil => simpa [sentence] using first
    | cons v ws =>
      rw [sentence_cons w (by simp)]
      simp only [List.mem_append, List.mem_singleton]
      rintro ((here | space) | later)
      · exact first here
      · exact absurd space (by decide)
      · exact rest later

end Sentences

/-! ## What is written -/

section Writing
variable {ok : ℤ → Prop} [DecidablePred ok] {z nOut : ℤ} {before : ℤ → Char}

/-- These words have been written, as far as there is room for them. -/
structure Said (z nOut : ℤ) (before : ℤ → Char) (ws : List (List Char)) (r : (ℤ → Char) × ℤ) : Prop where
  filled : Filled z nOut before r.1 (sentence ws) r.2
  ended : ws ≠ [] → r.1 (z + r.2) = '\x00'
  plain : ∀ w ∈ ws, Plain w

section Pieces
variable (room : 1 ≤ nOut) (inside : ∀ b, z ≤ b → b < z + nOut → ok b)
include room inside

theorem put_run {m : ℤ → Char} {text : List Char} {i : ℤ} (filled : Filled z nOut before m text i)
    (more : List Char) (plain : '\x00' ∉ more) : ∃ r, put ok z nOut more (m, i) = some r ∧
      Filled z nOut before r.1 (text ++ more) r.2 ∧ r.1 (z + r.2) = '\x00' := by
  have count := filled.count
  obtain ⟨m', j, run, length, rest, ended⟩ := snprintf_filled (z + i) (nOut - i) plain (by omega)
    (fun b low high => inside b (by omega) (by omega)) m
  refine ⟨(m', i + j), ?_, filled.append room rest, by rwa [← add_assoc]⟩
  simp only [put, run, length, Option.bind_eq_bind, Option.bind_some]
  rfl

theorem space_run {ws : List (List Char)} {r : (ℤ → Char) × ℤ} (said : Said z nOut before ws r) :
    ∃ m i, space ok z nOut r = some (m, i) ∧
      Filled z nOut before m (sentence ws ++ gap (sentence ws)) i := by
  obtain ⟨m, i⟩ := r
  have filled : Filled z nOut before m (sentence ws) i := said.filled
  have count := filled.count
  by_cases here : i ≠ 0 ∧ i < nOut - 1
  · obtain ⟨m', run, rest⟩ := store_filled (z + i) (nOut - i) ' ' (by omega)
      (fun b low high => inside b (by omega) (by omega)) m
    have some_text : sentence ws ≠ [] := by
      intro empty
      rw [empty, List.length_nil] at count
      omega
    refine ⟨m', i + 1, ?_, ?_⟩
    · simp only [space, if_pos here, run, Option.bind_eq_bind, Option.bind_some]
      rfl
    · rw [gap, if_neg some_text]
      exact filled.append room rest
  · refine ⟨m, i, if_neg here, ?_⟩
    have nothing : gap (sentence ws) = [] ∨ nOut - i = 1 := by
      by_cases empty : sentence ws = []
      · exact Or.inl (if_pos empty)
      · have := List.length_pos_iff.mpr empty
        omega
    have rest := filled.append room (Filled.nothing (z := z + i) (by omega) nothing m)
    rwa [add_zero] at rest

theorem putWord_run {ws us : List (List Char)} {r : (ℤ → Char) × ℤ} (said : Said z nOut before ws r)
    (plain : ∀ w ∈ us, Plain w) (more : us ≠ []) :
    ∃ r', putWord ok z nOut (sentence us) r = some r' ∧ Said z nOut before (ws ++ us) r' := by
  obtain ⟨m, i, spaced, filled⟩ := space_run room inside said
  obtain ⟨r', run, filled', ended⟩ := put_run room inside filled (sentence us)
    (sentence_plain fun w member => (plain w member).2.2.1)
  refine ⟨r', ?_, ⟨?_, fun _ => ended, List.forall_mem_append.mpr ⟨said.plain, plain⟩⟩⟩
  · simp only [putWord, spaced, Option.bind_eq_bind, Option.bind_some, run]
  · rwa [sentence_append (fun w member => (said.plain w member).1) more]

end Pieces

/-- A call writes these words into any buffer it is given. -/
def Writes (call : ℤ → ℤ → (ℤ → Char) → Option ((ℤ → Char) × ℤ)) (ok : ℤ → Prop) (ws : List (List Char)) :
    Prop :=
  ∀ z nOut m, 1 ≤ nOut → (∀ b, z ≤ b → b < z + nOut → ok b) →
    ∃ r, call z nOut m = some r ∧ Said z nOut m ws r

theorem putGroup_run (room : 1 ≤ nOut) (inside : ∀ b, z ≤ b → b < z + nOut → ok b)
    {call : ℤ → ℤ → (ℤ → Char) → Option ((ℤ → Char) × ℤ)} {ws us : List (List Char)}
    (writes : Writes call ok us) (more : us ≠ []) {unit : List Char} (plain : Plain unit)
    {r : (ℤ → Char) × ℤ} (said : Said z nOut before ws r) :
    ∃ r', putGroup ok call z nOut (' ' :: unit) r = some r' ∧
      Said z nOut before (ws ++ (us ++ [unit])) r' := by
  obtain ⟨m, i, spaced, filled⟩ := space_run room inside said
  have count := filled.count
  obtain ⟨⟨m', j⟩, called, inner⟩ := writes (z + i) (nOut - i) m (by omega)
    fun b low high => inside b (by omega) (by omega)
  have nul : '\x00' ∉ ' ' :: unit := by
    rw [List.mem_cons, not_or]
    exact ⟨by decide, plain.2.2.1⟩
  obtain ⟨r', run, filled', ended⟩ := put_run room inside (filled.append room inner.filled)
    (' ' :: unit) nul
  have full : ∀ w ∈ us, w ≠ [] := fun w member => (inner.plain w member).1
  have pieces : sentence (us ++ [unit]) = sentence us ++ ' ' :: unit := by
    rw [sentence_append full (by simp), gap, if_neg (mt (sentence_eq_nil full).mp more)]
    simp [sentence]
  refine ⟨r', ?_, ⟨?_, fun _ => ended, ?_⟩⟩
  · simp only [putGroup, spaced, called, Option.bind_eq_bind, Option.bind_some, run]
  · rw [sentence_append (fun w member => (said.plain w member).1) (by simp), pieces, ← List.append_assoc]
    exact filled'
  · simp only [List.forall_mem_append, List.forall_mem_singleton]
    exact ⟨said.plain, inner.plain, plain⟩

theorem remaining_eq (n unit : ℕ) : remaining n unit = n % unit := by
  unfold remaining
  split
  · rfl
  · exact (Nat.mod_eq_of_lt (by omega)).symm

section Stages
variable (room : 1 ≤ nOut) (inside : ∀ b, z ≤ b → b < z + nOut → ok b) {ws : List (List Char)}
  {r : (ℤ → Char) × ℤ} (said : Said z nOut before ws r)
include room inside said

theorem group_stage (n unit : ℕ) (positive : 0 < unit) (small : n < 1000 * unit) {u : List Char}
    (plain : Plain u)
    (writes : ∀ k, k ≠ 0 → k = n / unit → Writes (numbername ok k) ok (words k)) :
    ∃ r', (if n ≥ unit then putGroup ok (numbername ok (n / unit)) z nOut (' ' :: u) r else some r) = some r' ∧
      Said z nOut before (ws ++ groupWords (n / unit) u) r' := by
  by_cases some_units : n ≥ unit
  · have nonzero : n / unit ≠ 0 := (Nat.div_pos some_units positive).ne'
    have below : n / unit < 1000 := Nat.div_lt_of_lt_mul (by rwa [mul_comm] at small)
    have call := writes (n / unit) nonzero rfl
    rw [words_small nonzero below] at call
    obtain ⟨r', run, said'⟩ := putGroup_run room inside call (belowThousand_ne_nil nonzero) plain said
    refine ⟨r', ?_, ?_⟩
    · rw [if_pos some_units, run]
    · rwa [groupWords, if_neg nonzero]
  · have zero : n / unit = 0 := Nat.div_eq_of_lt (not_le.mp some_units)
    refine ⟨r, if_neg some_units, ?_⟩
    rwa [zero, groupWords, if_pos rfl, List.append_nil]

/-- A part of the name that is there under a condition. -/
theorem word_stage (c : Prop) [Decidable c] (us : List (List Char)) (text : List Char)
    (same : c → sentence us = text) (plain : c → ∀ w ∈ us, Plain w) (more : us ≠ []) :
    ∃ r', (if c then putWord ok z nOut text r else some r) = some r' ∧
      Said z nOut before (ws ++ if c then us else []) r' := by
  by_cases here : c
  · obtain ⟨r', run, said'⟩ := putWord_run room inside said (plain here) more
    refine ⟨r', ?_, ?_⟩
    · rw [if_pos here, ← same here, run]
    · rwa [if_pos here]
  · refine ⟨r, if_neg here, ?_⟩
    rwa [if_neg here, List.append_nil]

/-- Without any words the name is zero; in a buffer of one character there is none. -/
theorem zero_stage : ∃ r', (if r.2 = 0 then put ok z nOut "zero".toList r else some r) = some r' ∧
    Said z nOut before (if ws = [] then ["zero".toList] else ws) r' := by
  have count := said.filled.count
  obtain ⟨m, i⟩ := r
  simp only at count
  by_cases start : i = 0
  · obtain ⟨r', run, filled, ended⟩ := put_run room inside said.filled "zero".toList (by decide)
    refine ⟨r', by rw [if_pos start, run], ?_⟩
    by_cases empty : ws = []
    · rw [if_pos empty]
      rw [empty] at filled
      refine ⟨by simpa [sentence] using filled, fun _ => ended, ?_⟩
      rw [List.forall_mem_singleton]
      decide
    · rw [if_neg empty]
      have full : sentence ws ≠ [] := mt (sentence_eq_nil fun w member => (said.plain w member).1).mp empty
      have length := List.length_pos_iff.mpr full
      have tiny : nOut = 1 := by omega
      have none_fits : r'.2 = 0 := by
        have := filled.count
        omega
      refine ⟨⟨by omega, ?_, filled.other⟩, fun _ => ended, said.plain⟩
      rw [none_fits, Int.toNat_zero, List.take_zero]
      exact at_nil r'.1 z
  · refine ⟨(m, i), if_neg start, ?_⟩
    have some_words : ws ≠ [] := by
      rintro rfl
      simp only [sentence, List.intercalate_nil, List.length_nil] at count
      omega
    rwa [if_neg some_words]

end Stages

variable (ok) in
theorem numbername_said {n : ℕ} (small : n < 10 ^ 12) : Writes (numbername ok n) ok (words n) := by
  induction n using Nat.strong_induction_on with
  | _ n ih =>
    intro z nOut m room inside
    have units : Plain "billion".toList ∧ Plain "million".toList ∧ Plain "thousand".toList := by decide
    obtain ⟨billion, million, thousand⟩ := units
    have empty : Said z nOut m [] (m, 0) :=
      ⟨Filled.start room m, fun absurd_words => absurd rfl absurd_words, by simp⟩
    obtain ⟨r₁, run₁, said₁⟩ := group_stage room inside empty n 1000000000 (by norm_num) (by omega)
      billion fun k nonzero hk => ih k (by omega) (by omega)
    obtain ⟨r₂, run₂, said₂⟩ := group_stage room inside said₁ (n % 1000000000) 1000000 (by norm_num)
      (by omega) million fun k nonzero hk => ih k (by omega) (by omega)
    obtain ⟨r₃, run₃, said₃⟩ := group_stage room inside said₂ (n % 1000000000 % 1000000) 1000
      (by norm_num) (by omega) thousand fun k nonzero hk => ih k (by omega) (by omega)
    obtain ⟨k, hk⟩ : ∃ k, k = n % 1000000000 % 1000000 % 1000 := ⟨_, rfl⟩
    have hundreds : Plain "hundred".toList := by decide
    obtain ⟨r₄, run₄, said₄⟩ := word_stage room inside said₃ (k ≥ 100)
      [ones.getD (k / 100) [], "hundred".toList] (ones.getD (k / 100) [] ++ " hundred".toList)
      (fun _ => by simp [sentence, List.intercalate_cons_cons])
      (fun _ w member => by
        obtain rfl | rfl := List.mem_pair.mp member
        · exact ones_plain (by omega)
        · exact hundreds) (by simp)
    obtain ⟨r₅, run₅, said₅⟩ := word_stage room inside said₄ (k % 100 ≥ 20)
      [tens.getD (k % 100 / 10) []] (tens.getD (k % 100 / 10) []) (fun _ => by simp [sentence])
      (fun large w member => by
        rw [List.mem_singleton.mp member]
        exact tens_plain (by omega) (by omega)) (by simp)
    obtain ⟨r₆, run₆, said₆⟩ := word_stage room inside said₅ (single (k % 100) > 0)
      [ones.getD (single (k % 100)) []] (ones.getD (single (k % 100)) []) (fun _ => by simp [sentence])
      (fun _ w member => by
        rw [List.mem_singleton.mp member]
        exact ones_plain single_lt) (by simp)
    obtain ⟨r₇, run₇, said₇⟩ := zero_stage room inside said₆
    have all : [] ++ groupWords (n / 1000000000) "billion".toList ++
        groupWords (n % 1000000000 / 1000000) "million".toList ++
        groupWords (n % 1000000000 % 1000000 / 1000) "thousand".toList ++
        (if k ≥ 100 then [ones.getD (k / 100) [], "hundred".toList] else []) ++
        (if k % 100 ≥ 20 then [tens.getD (k % 100 / 10) []] else []) ++
        (if single (k % 100) > 0 then [ones.getD (single (k % 100)) []] else []) = parts n := by
      simp only [parts, belowThousand, belowHundred, ← hk, List.nil_append, List.append_assoc]
    rw [all] at said₇
    refine ⟨r₇, ?_, said₇⟩
    have head : (if n ≥ 1000000000 then do
          let (m, j) ← numbername ok (n / 1000000000) z nOut m
          put ok z nOut " billion".toList (m, j)
        else some (m, 0)) = some r₁ := by
      rw [← run₁]
      simp [putGroup, space]
    rw [numbername]
    rw [head]
    have left : (if k % 100 ≥ 20 then k % 100 % 10 else k % 100) = single (k % 100) := rfl
    have texts : " million".toList = ' ' :: "million".toList ∧
        " thousand".toList = ' ' :: "thousand".toList := by
      decide
    simp only [Option.bind_eq_bind, Option.bind_some, remaining_eq, ← hk, left, texts.1, texts.2, run₂,
      run₃, run₄, run₅, run₆, run₇]

end Writing

/-! ## Reading a name -/

/-- The units that end a group. -/
def scale (w : List Char) : Option ℕ :=
  [("billion".toList, 1000000000), ("million".toList, 1000000), ("thousand".toList, 1000)].lookup w

def smallValue (w : List Char) : ℕ := if ones.contains w then ones.idxOf w else 10 * tens.idxOf w

/-- The groups before, and the one that is being read. -/
def readWord (t : ℕ × ℕ) (w : List Char) : ℕ × ℕ :=
  match scale w with
  | some unit => (t.1 + t.2 * unit, 0)
  | none => if w = "hundred".toList then (t.1, t.2 * 100) else (t.1, t.2 + smallValue w)

def readName (text : List Char) : ℕ :=
  let t := (text.splitOn ' ').foldl readWord (0, 0)
  t.1 + t.2

def name (n : ℕ) : List Char := sentence (words n)

theorem readWord_ones {k : ℕ} (small : k < 20) (t : ℕ × ℕ) :
    readWord t (ones.getD k []) = (t.1, t.2 + k) := by
  have all : ∀ k < 20, scale (ones.getD k []) = none ∧ ones.getD k [] ≠ "hundred".toList ∧
      smallValue (ones.getD k []) = k := by decide +kernel
  obtain ⟨no_unit, other, value⟩ := all k small
  simp only [readWord, no_unit, if_neg other, value]

theorem readWord_tens {k : ℕ} (low : 2 ≤ k) (high : k < 10) (t : ℕ × ℕ) :
    readWord t (tens.getD k []) = (t.1, t.2 + 10 * k) := by
  have all : ∀ k < 10, 2 ≤ k → scale (tens.getD k []) = none ∧ tens.getD k [] ≠ "hundred".toList ∧
      smallValue (tens.getD k []) = 10 * k := by decide +kernel
  obtain ⟨no_unit, other, value⟩ := all k high low
  simp only [readWord, no_unit, if_neg other, value]

theorem readWord_hundred (t : ℕ × ℕ) : readWord t "hundred".toList = (t.1, t.2 * 100) := by
  have no_unit : scale "hundred".toList = none := by decide
  simp only [readWord, no_unit, if_true]

theorem read_belowThousand {k : ℕ} (small : k < 1000) (total : ℕ) :
    (belowThousand k).foldl readWord (total, 0) = (total, k) := by
  have hundreds : (if k ≥ 100 then [ones.getD (k / 100) [], "hundred".toList] else []).foldl readWord
      (total, 0) = (total, k / 100 * 100) := by
    split
    · rw [List.foldl_cons, readWord_ones (by omega), List.foldl_cons, readWord_hundred, List.foldl_nil,
        zero_add]
    · rw [List.foldl_nil]
      congr 1
      omega
  rw [belowThousand, List.foldl_append, hundreds, belowHundred, List.foldl_append]
  by_cases large : k % 100 ≥ 20
  · rw [if_pos large, List.foldl_cons, readWord_tens (by omega) (by omega), List.foldl_nil, single,
      if_pos large]
    split
    · rw [List.foldl_cons, readWord_ones (by omega), List.foldl_nil]
      congr 1
      simp only
      omega
    · rw [List.foldl_nil]
      congr 1
      omega
  · rw [if_neg large, List.foldl_nil, single, if_neg large]
    split
    · rw [List.foldl_cons, readWord_ones (by omega), List.foldl_nil]
      congr 1
      simp only
      omega
    · rw [List.foldl_nil]
      congr 1
      omega

theorem read_groupWords {k unit : ℕ} (small : k < 1000) {u : List Char} (units : scale u = some unit)
    (total : ℕ) :
    (groupWords k u).foldl readWord (total, 0) = (total + k * unit, 0) := by
  unfold groupWords
  split
  · rename_i zero
    rw [zero, zero_mul, add_zero, List.foldl_nil]
  · rw [List.foldl_append, read_belowThousand small, List.foldl_cons, List.foldl_nil, readWord, units]

theorem read_parts {n : ℕ} (small : n < 10 ^ 12) : (parts n).foldl readWord (0, 0) =
    (n / 1000 * 1000, n % 1000) := by
  have units : scale "billion".toList = some 1000000000 ∧ scale "million".toList = some 1000000 ∧
      scale "thousand".toList = some 1000 := by decide
  obtain ⟨billion, million, thousand⟩ := units
  rw [parts, List.foldl_append, read_groupWords (by omega) billion, List.foldl_append,
    read_groupWords (by omega) million, List.foldl_append, read_groupWords (by omega) thousand,
    read_belowThousand (by omega)]
  rw [Prod.mk.injEq]
  constructor
  · omega
  · omega

/-- A name says which number it is of. -/
theorem readName_name {n : ℕ} (small : n < 10 ^ 12) : readName (name n) = n := by
  have plain := words_plain small
  have split_words : (name n).splitOn ' ' = words n :=
    List.splitOn_intercalate ' ' (fun w member => (plain w member).2.1) (words_ne_nil n)
  have value : (words n).foldl readWord (0, 0) = (n / 1000 * 1000, n % 1000) := by
    have read := read_parts small
    unfold words
    split
    · rename_i empty
      rw [empty, List.foldl_nil] at read
      rw [← read]
      decide
    · exact read
  rw [readName, split_words, value]
  simp only
  omega

theorem belowThousand_length (k : ℕ) : (belowThousand k).length ≤ 4 := by
  unfold belowThousand belowHundred
  split_ifs <;> simp

theorem groupWords_length (k : ℕ) (unit : List Char) : (groupWords k unit).length ≤ 5 := by
  unfold groupWords
  split
  · simp
  · have := belowThousand_length k
    rw [List.length_append, List.length_singleton]
    omega

theorem name_length {n : ℕ} (small : n < 10 ^ 12) : (name n).length ≤ 190 := by
  have count : (words n).length ≤ 19 := by
    unfold words
    split
    · simp
    · have b := groupWords_length (n / 1000000000) "billion".toList
      have m := groupWords_length (n % 1000000000 / 1000000) "million".toList
      have t := groupWords_length (n % 1000000000 % 1000000 / 1000) "thousand".toList
      have rest := belowThousand_length (n % 1000000000 % 1000000 % 1000)
      unfold parts
      simp only [List.length_append]
      omega
  have long := sentence_length fun w member => (words_plain small w member).2.2.2
  rw [name]
  omega

/-- Into a buffer of any size goes the name of the number, or as much of it as there is
room for, and a NUL; nothing else is changed and the length of the text is returned.
A name has fewer than 200 characters and says which number it is of. -/
theorem numbername_writes {ok : ℤ → Prop} [DecidablePred ok] {n : ℕ} (unsigned : n < 2 ^ 32) {z nOut : ℤ}
    (room : 1 ≤ nOut) (inside : ∀ b, z ≤ b → b < z + nOut → ok b) (m : ℤ → Char) :
    ∃ m', numbername ok n z nOut m = some (m', min ((name n).length : ℤ) (nOut - 1)) ∧
      At m' z ((name n).take (nOut - 1).toNat ++ ['\x00']) ∧
      (∀ b, b < z ∨ z + min ((name n).length : ℤ) (nOut - 1) < b → m' b = m b) ∧
      (name n).length < 200 ∧ readName (name n) = n := by
  have small : n < 10 ^ 12 := by omega
  obtain ⟨⟨m', i⟩, run, said⟩ := numbername_said ok small z nOut m room inside
  have count : i = min ((name n).length : ℤ) (nOut - 1) := said.filled.count
  have short := name_length small
  refine ⟨m', by rw [run, count], ?_, count ▸ said.filled.other, by omega, readName_name small⟩
  have part : (name n).take (nOut - 1).toNat = (name n).take i.toNat := by
    rw [List.take_eq_take_iff]
    omega
  have length : (((name n).take i.toNat).length : ℤ) = i := by
    rw [List.length_take]
    omega
  rw [part, at_append, length]
  refine ⟨said.filled.text, ?_⟩
  intro k hk
  obtain rfl : k = 0 := by simpa using hk
  simpa using said.ended (words_ne_nil n)

/-- The number of the source's own example, and a buffer of ten characters. -/
theorem numbername_writes_ten : ∃ m',
    numbername (fun b => 0 ≤ b ∧ b < 10) 123 0 10 (fun _ => '?') = some (m', 9) ∧
    At m' 0 ("one hundr".toList ++ ['\x00']) ∧ (∀ b, b < 0 ∨ 9 < b → m' b = '?') ∧
    (name 123).length < 200 ∧ readName "one hundred twenty three".toList = 123 := by
  have text : name 123 = "one hundred twenty three".toList := by decide +kernel
  obtain ⟨m', run, lies, other, short, read⟩ :=
    @numbername_writes (fun b => 0 ≤ b ∧ b < 10) _ 123 (by decide) 0 10 (by decide)
      (fun b low high => ⟨low, by omega⟩) fun _ => '?'
  rw [text] at run lies other read
  exact ⟨m', run, lies, other, short, read⟩

end MorelloWorkloads.Speedtest
