import Mathlib.Data.Int.Init
import Mathlib.Data.List.TakeWhile
import Mathlib.Order.Lattice
import Mathlib.Algebra.Order.Ring.Int
import Mathlib.Tactic.Common

/-! The arguments of the speed test: numbers with suffixes, and the list of testsets with
the sizes that they are run at. -/
namespace MorelloWorkloads.Speedtest

/-- What ends the program early: an overflow, or a fatal error. -/
inductive Stop where
  | overflow
  | fatal (message : List Char)
  deriving DecidableEq

/-- The result of an operation of the type `sqlite3_int64`. -/
def int64 (x : ℤ) : Except Stop ℤ :=
  if -9223372036854775808 ≤ x ∧ x < 9223372036854775808 then .ok x else .error .overflow

def hexDigitValue (c : Char) : ℤ :=
  if '0' ≤ c ∧ c ≤ '9' then c.toNat - '0'.toNat
  else if 'a' ≤ c ∧ c ≤ 'f' then c.toNat - 'a'.toNat + 10
  else if 'A' ≤ c ∧ c ≤ 'F' then c.toNat - 'A'.toNat + 10
  else -1

/-- The loop for hexadecimal digits, with what is left of the argument. -/
def hexLoop : ℤ → List Char → Except Stop (ℤ × List Char)
  | v, [] => .ok (v, [])
  | v, c :: zArg =>
    if hexDigitValue c ≥ 0 then do
      let v ← int64 (v * 2 ^ 4)
      let v ← int64 (v + hexDigitValue c)
      hexLoop v zArg
    else .ok (v, c :: zArg)

/-- The loop for decimal digits. -/
def decimalLoop : ℤ → List Char → Except Stop (ℤ × List Char)
  | v, [] => .ok (v, [])
  | v, c :: zArg =>
    if c.isDigit then do
      let v ← int64 (v * 10)
      let v ← int64 (v + c.toNat)
      let v ← int64 (v - '0'.toNat)
      decimalLoop v zArg
    else .ok (v, c :: zArg)

def aMult : List (List Char × ℤ) :=
  [("KiB".toList, 1024), ("MiB".toList, 1024 * 1024), ("GiB".toList, 1024 * 1024 * 1024),
    ("KB".toList, 1000), ("MB".toList, 1000000), ("GB".toList, 1000000000),
    ("K".toList, 1000), ("M".toList, 1000000), ("G".toList, 1000000000)]

/-- `sqlite3_stricmp(a, b)==0` -/
def sameText (a b : List Char) : Bool := a.map Char.toLower = b.map Char.toLower

/-- The loop over the suffixes. -/
def applyMult (zArg : List Char) (v : ℤ) : Except Stop ℤ :=
  match aMult.find? fun m => sameText m.1 zArg with
  | some m => int64 (v * m.2)
  | none => .ok v

/-- The number behind the sign. -/
def magnitude (zArg : List Char) : Except Stop ℤ := do
  let (v, zArg) ← (if ['0', 'x'] <+: zArg then hexLoop 0 (zArg.drop 2) else decimalLoop 0 zArg)
  let v ← applyMult zArg v
  if v > 0x7fffffff then .error (.fatal "parameter too large - max 2147483648".toList) else .ok v

def integerValue (zArg : List Char) : Except Stop ℤ := do
  let isNeg := zArg.head? = some '-'
  let zArg := if zArg.head? = some '-' ∨ zArg.head? = some '+' then zArg.tail else zArg
  let v ← magnitude zArg
  return if isNeg then -v else v

/-! ## Reading a number -/

theorem int64_eq {x : ℤ} (low : -9223372036854775808 ≤ x) (high : x < 9223372036854775808) :
    int64 x = .ok x :=
  if_pos ⟨low, high⟩

theorem ok_bind {α β : Type} (x : α) (f : α → Except Stop β) : (Except.ok x >>= f) = f x := rfl

theorem isDigit_bounds {c : Char} (digit : c.isDigit = true) : 48 ≤ c.toNat ∧ c.toNat ≤ 57 := by
  simpa [Char.isDigit, UInt32.le_iff_toNat_le] using digit

theorem le_ofDigitChars (ds : List Char) (v : ℕ) : v ≤ Nat.ofDigitChars 10 ds v := by
  induction ds generalizing v with
  | nil => exact le_rfl
  | cons d ds ih =>
    have later := ih (10 * v + (d.toNat - '0'.toNat))
    simp only [Nat.ofDigitChars_cons]
    omega

/-- The digits in front of anything else are read, leading zeros or not. -/
theorem decimalLoop_digits {ds rest : List Char} (digits : ∀ d ∈ ds, d.isDigit) (v : ℕ)
    (stops : ∀ c ∈ rest.head?, ¬ c.isDigit)
    (small : Nat.ofDigitChars 10 ds v + 48 < 9223372036854775808) :
    decimalLoop v (ds ++ rest) = .ok (Nat.ofDigitChars 10 ds v, rest) := by
  induction ds generalizing v with
  | nil =>
    cases rest with
    | nil => rfl
    | cons c rest =>
      have other : ¬ c.isDigit := stops c rfl
      simp [decimalLoop, other]
  | cons d ds ih =>
    have digit : d.isDigit := digits d (List.mem_cons_self ..)
    obtain ⟨low, high⟩ := isDigit_bounds digit
    obtain ⟨x, hx⟩ : ∃ x, x = d.toNat - '0'.toNat := ⟨_, rfl⟩
    have value : (d.toNat : ℤ) = x + 48 := by
      have zero : '0'.toNat = 48 := rfl
      omega
    rw [Nat.ofDigitChars_cons, ← hx] at small ⊢
    have later := ih (fun e member => digits e (List.mem_cons_of_mem d member)) (10 * v + x) small
    have next : 10 * v + x + 48 < 9223372036854775808 :=
      (Nat.add_le_add_right (le_ofDigitChars ds (10 * v + x)) 48).trans_lt small
    have shifted : int64 ((v : ℤ) * 10) = .ok ((v : ℤ) * 10) := int64_eq (by omega) (by omega)
    have added : int64 ((v : ℤ) * 10 + d.toNat) = .ok ((v : ℤ) * 10 + d.toNat) :=
      int64_eq (by omega) (by omega)
    have reduced : int64 ((v : ℤ) * 10 + d.toNat - '0'.toNat) = .ok ((10 * v + x : ℕ) : ℤ) := by
      have sum : (v : ℤ) * 10 + d.toNat - '0'.toNat = ((10 * v + x : ℕ) : ℤ) := by
        have zero : ('0'.toNat : ℤ) = 48 := rfl
        push_cast
        omega
      exact sum ▸ int64_eq (by omega) (by omega)
    rw [List.cons_append, decimalLoop, if_pos digit, shifted, ok_bind, added, ok_bind, reduced, ok_bind]
    exact later

/-- What an ending multiplies by: one unless it is a suffix. -/
def multOf (rest : List Char) : ℤ := ((aMult.find? fun m => sameText m.1 rest).map Prod.snd).getD 1

theorem multOf_pos (rest : List Char) : 1 ≤ multOf rest := by
  have positive : ∀ m ∈ aMult, 1 ≤ m.2 := by decide +kernel
  unfold multOf
  cases found : aMult.find? fun m => sameText m.1 rest with
  | none => exact le_rfl
  | some m => exact positive m (List.mem_of_find?_eq_some found)

theorem applyMult_eq {rest : List Char} {v : ℤ} (nonneg : 0 ≤ v)
    (small : v * multOf rest < 9223372036854775808) : applyMult rest v = .ok (v * multOf rest) := by
  have positive := multOf_pos rest
  have product : 0 ≤ v * multOf rest := mul_nonneg nonneg (by omega)
  unfold applyMult
  cases found : aMult.find? fun m => sameText m.1 rest with
  | none =>
    have one : multOf rest = 1 := by simp [multOf, found]
    exact congrArg Except.ok (one.symm ▸ (mul_one v).symm)
  | some m =>
    have factor : multOf rest = m.2 := by simp [multOf, found]
    rw [factor] at small product ⊢
    exact int64_eq (by omega) small

/-- A sign, or none. -/
inductive Sign where
  | none | plus | minus

def Sign.text : Sign → List Char
  | none => []
  | plus => ['+']
  | minus => ['-']

def Sign.apply : Sign → ℤ → ℤ
  | minus, v => -v
  | _, v => v

def tooLarge : Stop := .fatal "parameter too large - max 2147483648".toList

theorem integerValue_unsigned {zArg : List Char} (minus : zArg.head? ≠ some '-')
    (plus : zArg.head? ≠ some '+') : integerValue zArg = magnitude zArg := by
  simp [integerValue, minus, plus]

section Numbers
variable {ds rest : List Char} (some_digit : ds ≠ []) (digits : ∀ d ∈ ds, d.isDigit)
  (stops : ∀ c ∈ rest.head?, ¬ c.isDigit ∧ c ≠ 'x')
include some_digit digits stops

theorem no_hexPrefix : ¬ ['0', 'x'] <+: ds ++ rest := by
  obtain ⟨d, tail, rfl⟩ := List.exists_cons_of_ne_nil some_digit
  rintro ⟨more, same⟩
  have second : 'x' :: more = tail ++ rest := List.tail_eq_of_cons_eq same
  cases tail with
  | nil =>
    have head : rest.head? = some 'x' := by
      rw [← List.nil_append rest, ← second]
      rfl
    exact (stops 'x' head).2 rfl
  | cons e tail =>
    have letter : 'x' = e := List.head_eq_of_cons_eq second
    have digit := isDigit_bounds (digits e (by simp))
    rw [← letter] at digit
    exact absurd digit (by decide)

theorem magnitude_reads (small : Nat.ofDigitChars 10 ds 0 + 48 < 9223372036854775808)
    (fits : Nat.ofDigitChars 10 ds 0 * multOf rest < 9223372036854775808) : magnitude (ds ++ rest) =
      if Nat.ofDigitChars 10 ds 0 * multOf rest > 2147483647 then .error tooLarge
      else .ok (Nat.ofDigitChars 10 ds 0 * multOf rest) := by
  have read := decimalLoop_digits digits 0 (fun c here => (stops c here).1) small
  have scaled := applyMult_eq (Int.natCast_nonneg _) fits
  rw [magnitude, if_neg (no_hexPrefix some_digit digits stops)]
  rw [Nat.cast_zero] at read
  rw [read, ok_bind]
  simp only
  rw [scaled, ok_bind]
  rfl

/-- A number in decimal digits is read with its sign and its suffix, and refused if it
does not fit an `int` then. Any other ending is ignored. -/
theorem integerValue_reads (sign : Sign) (small : Nat.ofDigitChars 10 ds 0 + 48 < 9223372036854775808)
    (fits : Nat.ofDigitChars 10 ds 0 * multOf rest < 9223372036854775808) :
    integerValue (sign.text ++ (ds ++ rest)) =
      if Nat.ofDigitChars 10 ds 0 * multOf rest > 2147483647 then .error tooLarge
      else .ok (sign.apply (Nat.ofDigitChars 10 ds 0 * multOf rest)) := by
  have number := magnitude_reads some_digit digits stops small fits
  have first : (ds ++ rest).head? ≠ some '-' ∧ (ds ++ rest).head? ≠ some '+' := by
    obtain ⟨d, tail, rfl⟩ := List.exists_cons_of_ne_nil some_digit
    have digit := isDigit_bounds (digits d (List.mem_cons_self ..))
    constructor
    · intro same
      obtain rfl : d = '-' := Option.some.inj same
      exact absurd digit (by decide)
    · intro same
      obtain rfl : d = '+' := Option.some.inj same
      exact absurd digit (by decide)
  cases sign with
  | none => exact (integerValue_unsigned first.1 first.2).trans number
  | plus =>
    have behind : integerValue ('+' :: (ds ++ rest)) = magnitude (ds ++ rest) := by simp [integerValue]
    exact behind.trans number
  | minus =>
    have behind : integerValue ('-' :: (ds ++ rest)) = (magnitude (ds ++ rest)).map (-·) := by
      simp [integerValue]
      rfl
    rw [Sign.text, List.singleton_append, behind, number]
    split
    · rfl
    · rfl

end Numbers

/-- A suffix in small letters, and one that is too large. -/
theorem integerValue_reads_suffix :
    integerValue "-12kb".toList = .ok (-12000) ∧ integerValue "4G".toList = .error tooLarge := by
  have small := @integerValue_reads ['1', '2'] ['k', 'b'] (by decide) (by simp) (by simp) .minus
    (by decide +kernel) (by decide +kernel)
  have large := @integerValue_reads ['4'] ['G'] (by decide) (by simp) (by simp) .none
    (by decide +kernel) (by decide +kernel)
  have kilo : Nat.ofDigitChars 10 ['1', '2'] 0 * multOf ['k', 'b'] = 12000 := by decide +kernel
  have giga : Nat.ofDigitChars 10 ['4'] 0 * multOf ['G'] = 4000000000 := by decide +kernel
  rw [kilo] at small
  rw [giga] at large
  exact ⟨small, large⟩

/-! ## The list of testsets -/

/-- The testsets of a build with or without `SQLITE_ENABLE_RTREE`. -/
def testsetNames (rtree : Bool) : List (List Char) :=
  ["main".toList, "debug1".toList, "orm".toList, "cte".toList, "star".toList, "app".toList, "fp".toList,
    "json".toList, "trigger".toList, "parsenumber".toList] ++ if rtree then ["rtree".toList] else []

def badModifier (zThisTest : List Char) : Stop :=
  .fatal ("bad modifier on testset name: \"".toList ++ zThisTest ++ "\"".toList)

def noTestset (zThisTest : List Char) : Stop :=
  if zThisTest = "rtree".toList then
    .fatal "compile with -DSQLITE_ENABLE_RTREE to enable the R-Tree tests\n".toList
  else
    .fatal ("unknown testset: \"".toList ++ zThisTest ++
      "\"\nChoices: cte debug1 fp main orm rtree trigger\n".toList)

def int32 (x : ℤ) : Except Stop ℤ := if -2147483648 ≤ x ∧ x ≤ 2147483647 then .ok x else .error .overflow

/-- The name of a testset and the `g.szTest` that a modifier gives it. -/
def readTestset (szBase : ℤ) (zThisTest : List Char) : Except Stop (List Char × ℤ) :=
  match zThisTest.dropWhile (· ≠ '/') with
  | [] => .ok (zThisTest, szBase)
  | _ :: modifier =>
    let kk := (modifier.takeWhile Char.isDigit).length
    if kk = 0 ∨ kk ≠ modifier.length then .error (badModifier zThisTest)
    else do
      let v ← integerValue modifier
      let product ← int32 (szBase * v)
      let szTest := product.tdiv 100
      return (zThisTest.takeWhile (· ≠ '/'), if szTest ≤ 0 then 1 else szTest)

/-- The testset that a part of the list runs. -/
def testset (rtree : Bool) (szBase : ℤ) (zThisTest : List Char) : Except Stop (List Char × ℤ) := do
  let t ← readTestset szBase zThisTest
  if (testsetNames rtree).contains t.1 then .ok t else .error (noTestset t.1)

/-- The tests themselves, on a database, and the block that drops its tables behind them. -/
structure Tests (σ : Type) where
  run : List Char × ℤ → σ → Except Stop σ
  reset : σ → Except Stop σ

/-- The loop over the list: the testsets that are begun, and the database at the end, or what
has stopped the program. -/
def testsets {σ : Type} (tests : Tests σ) (rtree : Bool) (szBase : ℤ) (zTSet : List Char) (db : σ) :
    List (List Char × ℤ) × Except Stop σ :=
  let zThisTest := zTSet.takeWhile (· ≠ ',')
  let more := (zTSet.dropWhile (· ≠ ',')).tail
  match testset rtree szBase zThisTest with
  | .error stop => ([], .error stop)
  | .ok t =>
    if more = [] then ([t], tests.run t db)
    else
      match tests.run t db >>= tests.reset with
      | .error stop => ([t], .error stop)
      | .ok db =>
        let later := testsets tests rtree szBase more db
        (t :: later.1, later.2)
termination_by zTSet.length
decreasing_by
  have suffix := (List.dropWhile_suffix (l := zTSet) (· ≠ ',')).length_le
  have shorter : (zTSet.dropWhile (· ≠ ',')).tail.length < (zTSet.dropWhile (· ≠ ',')).length := by
    rw [List.length_tail]
    have full : zTSet.dropWhile (· ≠ ',') ≠ [] := fun empty => ‹¬ more = []› (by
      simp only [more, empty, List.tail_nil])
    have := List.length_pos_iff.mpr full
    omega
  omega

def zMix1Tests : List Char := "main,orm/25,cte/20,json,fp/3,parsenumber/25,rtree/10,star,app".toList

/-- The loop, for the list that `--testset` gives. -/
def runTestsets {σ : Type} (tests : Tests σ) (rtree : Bool) (szBase : ℤ) (zTSet : List Char) (db : σ) :
    List (List Char × ℤ) × Except Stop σ :=
  testsets tests rtree szBase (if zTSet = "mix1".toList then zMix1Tests else zTSet) db

/-- A testset and its modifier, as they are written in the list. -/
def written (spec : List Char × Option ℕ) : List Char :=
  spec.1 ++ match spec.2 with
    | none => []
    | some scale => '/' :: Nat.toDigits 10 scale

/-- The size that a testset is run at. -/
def sized (szBase : ℤ) (spec : List Char × Option ℕ) : List Char × ℤ :=
  (spec.1, match spec.2 with
    | none => szBase
    | some scale => max 1 ((szBase * scale).tdiv 100))

/-- A testset of this build, with a size that an `int` can hold on its way. -/
structure Runs (rtree : Bool) (szBase : ℤ) (spec : List Char × Option ℕ) : Prop where
  known : spec.1 ∈ testsetNames rtree
  fits : ∀ scale ∈ spec.2, scale ≤ 2147483647 ∧ -2147483648 ≤ szBase * scale ∧ szBase * scale ≤ 2147483647

/-- A testset and the reset behind it. -/
def Tests.pass {σ : Type} (tests : Tests σ) (szBase : ℤ) (db : σ) (spec : List Char × Option ℕ) :
    Except Stop σ :=
  tests.run (sized szBase spec) db >>= tests.reset

/-- The front of a list, as it is written. -/
def front (specs : List (List Char × Option ℕ)) : List Char := specs.flatMap fun spec => written spec ++ [',']

section Lists
variable {σ : Type} {tests : Tests σ} {rtree : Bool} {szBase : ℤ}

theorem names_plain {name : List Char} (known : name ∈ testsetNames rtree) : ',' ∉ name ∧ '/' ∉ name := by
  have all : ∀ rtree, ∀ name ∈ testsetNames rtree, ',' ∉ name ∧ '/' ∉ name := by decide +kernel
  exact all rtree name known

theorem takeWhile_separator {sep : Char} {front : List Char} (plain : sep ∉ front) (back : List Char) :
    (front ++ sep :: back).takeWhile (· ≠ sep) = front ∧
      (front ++ sep :: back).dropWhile (· ≠ sep) = sep :: back := by
  have all : ∀ c ∈ front, (c ≠ sep : Bool) = true := fun c member =>
    decide_eq_true fun same => plain (same ▸ member)
  constructor
  · rw [List.takeWhile_append_of_pos all]
    simp
  · rw [List.dropWhile_append_of_pos all]
    simp

theorem takeWhile_plain {sep : Char} {front : List Char} (plain : sep ∉ front) :
    front.takeWhile (· ≠ sep) = front ∧ front.dropWhile (· ≠ sep) = [] := by
  have all : ∀ c ∈ front, (c ≠ sep : Bool) = true := fun c member =>
    decide_eq_true fun same => plain (same ▸ member)
  exact ⟨List.takeWhile_eq_self_iff.mpr all, List.dropWhile_eq_nil_iff.mpr all⟩

theorem integerValue_toDigits {scale : ℕ} (small : scale ≤ 2147483647) :
    integerValue (Nat.toDigits 10 scale) = .ok scale := by
  have digits : ∀ d ∈ Nat.toDigits 10 scale, d.isDigit := fun d member =>
    Nat.isDigit_of_mem_toDigits (by decide) (by decide) member
  have some_digit : Nat.toDigits 10 scale ≠ [] := Nat.toDigits_ne_nil
  have one : multOf [] = 1 := by decide +kernel
  have number := @magnitude_reads (Nat.toDigits 10 scale) [] some_digit digits (by simp)
    (by rw [Nat.ofDigitChars_ten_toDigits]; omega) (by rw [Nat.ofDigitChars_ten_toDigits, one]; omega)
  rw [List.append_nil, Nat.ofDigitChars_ten_toDigits, one, mul_one, if_neg (by omega)] at number
  obtain ⟨d, tail, same⟩ := List.exists_cons_of_ne_nil some_digit
  have digit := isDigit_bounds (digits d (by simp [same]))
  rw [integerValue_unsigned, number]
  · intro minus
    rw [same] at minus
    obtain rfl : d = '-' := Option.some.inj minus
    exact absurd digit (by decide)
  · intro plus
    rw [same] at plus
    obtain rfl : d = '+' := Option.some.inj plus
    exact absurd digit (by decide)

theorem testset_written {spec : List Char × Option ℕ} (runs : Runs rtree szBase spec) :
    testset rtree szBase (written spec) = .ok (sized szBase spec) := by
  obtain ⟨name, modifier⟩ := spec
  obtain ⟨known, fits⟩ := runs
  simp only at known fits
  have plain := (names_plain known).2
  have read : readTestset szBase (written (name, modifier)) = .ok (sized szBase (name, modifier)) := by
    cases modifier with
    | none =>
      rw [written, List.append_nil, readTestset, (takeWhile_plain plain).2]
      rfl
    | some scale =>
      obtain ⟨small, low, high⟩ := fits scale rfl
      obtain ⟨front, back⟩ := takeWhile_separator plain (Nat.toDigits 10 scale)
      have digits : (Nat.toDigits 10 scale).takeWhile Char.isDigit = Nat.toDigits 10 scale :=
        List.takeWhile_eq_self_iff.mpr fun d member =>
          Nat.isDigit_of_mem_toDigits (by decide) (by decide) member
      have length : (Nat.toDigits 10 scale).length ≠ 0 := (Nat.length_toDigits_pos).ne'
      have product : int32 (szBase * scale) = .ok (szBase * scale) := if_pos ⟨low, high⟩
      rw [written, readTestset, back]
      simp only
      rw [digits, if_neg (by simp [length]), integerValue_toDigits small, ok_bind, product, ok_bind, front]
      have least : (if (szBase * scale).tdiv 100 ≤ 0 then 1 else (szBase * scale).tdiv 100) =
          max 1 ((szBase * scale).tdiv 100) := by
        split
        · omega
        · omega
      rw [least]
      rfl
  rw [testset, read, ok_bind, if_pos]
  exact List.contains_iff_mem.mpr known

theorem written_plain {spec : List Char × Option ℕ} (runs : Runs rtree szBase spec) :
    ',' ∉ written spec := by
  have name := (names_plain runs.known).1
  cases modifier : spec.2 with
  | none => simpa [written, modifier] using name
  | some scale =>
    have no_digit : ',' ∉ Nat.toDigits 10 scale := fun member =>
      absurd (Nat.isDigit_of_mem_toDigits (by decide) (by decide) member) (by decide)
    simp [written, modifier, name, no_digit]

variable (tests) in
/-- A testset and a comma, with more of the list behind. -/
theorem testsets_next {spec : List Char × Option ℕ} (runs : Runs rtree szBase spec) {text : List Char}
    (more : text ≠ []) (db : σ) : testsets tests rtree szBase (written spec ++ ',' :: text) db =
      match tests.pass szBase db spec with
      | .error stop => ([sized szBase spec], .error stop)
      | .ok db => (sized szBase spec :: (testsets tests rtree szBase text db).1,
          (testsets tests rtree szBase text db).2) := by
  obtain ⟨front, back⟩ := takeWhile_separator (written_plain runs) text
  rw [testsets]
  simp only [front, back, testset_written runs, List.tail_cons, if_neg more, Tests.pass]

theorem testsets_ends {item after : List Char} (plain : ',' ∉ item) (ends : after = [] ∨ after = [','])
    {t : List Char × ℤ} (good : testset rtree szBase item = .ok t) (db : σ) :
    testsets tests rtree szBase (item ++ after) db = ([t], tests.run t db) := by
  rw [testsets]
  cases ends with
  | inl none_left =>
    obtain ⟨front, back⟩ := takeWhile_plain plain
    simp only [none_left, List.append_nil, front, back, good, List.tail_nil, if_true]
  | inr comma =>
    obtain ⟨front, back⟩ := takeWhile_separator plain []
    simp only [comma, front, back, good, List.tail_cons, if_true]

theorem testsets_stops {item after : List Char} (plain : ',' ∉ item) (ends : ∀ c ∈ after.head?, c = ',')
    {stop : Stop} (bad : testset rtree szBase item = .error stop) (db : σ) :
    testsets tests rtree szBase (item ++ after) db = ([], .error stop) := by
  have front : (item ++ after).takeWhile (· ≠ ',') = item := by
    cases after with
    | nil => exact (List.append_nil item).symm ▸ (takeWhile_plain plain).1
    | cons c after =>
      obtain rfl : c = ',' := ends c rfl
      exact (takeWhile_separator plain after).1
  rw [testsets]
  simp only [front, bad]

/-- The testsets in front are behind the loop once each of them and each reset has returned. -/
theorem testsets_front {specs : List (List Char × Option ℕ)} (runs : ∀ spec ∈ specs, Runs rtree szBase spec)
    {text : List Char} (more : text ≠ []) {db mid : σ}
    (returns : specs.foldlM (tests.pass szBase) db = .ok mid) :
    testsets tests rtree szBase (front specs ++ text) db =
      (specs.map (sized szBase) ++ (testsets tests rtree szBase text mid).1,
        (testsets tests rtree szBase text mid).2) := by
  induction specs generalizing db with
  | nil =>
    obtain rfl : db = mid := Except.ok.inj returns
    rfl
  | cons spec specs ih =>
    have this_one := runs spec (List.mem_cons_self ..)
    have behind : front specs ++ text ≠ [] := List.append_ne_nil_of_right_ne_nil _ more
    rw [List.foldlM_cons] at returns
    cases pass : tests.pass szBase db spec with
    | error stop =>
      rw [pass] at returns
      cases returns
    | ok next =>
      rw [pass] at returns
      have later := ih (fun other member => runs other (List.mem_cons_of_mem spec member)) returns
      have here := testsets_next tests this_one behind db
      rw [pass] at here
      simp only [front, List.flatMap_cons, List.append_assoc, List.singleton_append] at here later ⊢
      simp only [here, later, List.map_cons, List.cons_append]

/-- The testsets in front of any item of the list are all run, in their order and at their
sizes, as long as they return. The program then goes on with the item, or stops there
whatever comes after it; and it stops at the first testset or reset that does not return. -/
theorem testsets_run {specs : List (List Char × Option ℕ)} (runs : ∀ spec ∈ specs, Runs rtree szBase spec)
    {db mid : σ} (returns : specs.foldlM (tests.pass szBase) db = .ok mid) :
    (∀ item t after, ',' ∉ item → item ≠ [] → testset rtree szBase item = .ok t →
      (after = [] ∨ after = [',']) → testsets tests rtree szBase (front specs ++ (item ++ after)) db =
        (specs.map (sized szBase) ++ [t], tests.run t mid)) ∧
    (∀ item stop after, ',' ∉ item → item ++ after ≠ [] → testset rtree szBase item = .error stop →
      (∀ c ∈ after.head?, c = ',') → testsets tests rtree szBase (front specs ++ (item ++ after)) db =
        (specs.map (sized szBase), .error stop)) ∧
    ∀ spec stop text, Runs rtree szBase spec → text ≠ [] → tests.pass szBase mid spec = .error stop →
      testsets tests rtree szBase (front (specs ++ [spec]) ++ text) db =
        ((specs ++ [spec]).map (sized szBase), .error stop) := by
  refine ⟨fun item t after plain given good ends => ?_, fun item stop after plain given bad ends => ?_,
    fun spec stop text this_one more bad => ?_⟩
  · rw [testsets_front runs (List.append_ne_nil_of_left_ne_nil given after) returns,
      testsets_ends plain ends good]
  · rw [testsets_front runs given returns, testsets_stops plain ends bad, List.append_nil]
  · have here := testsets_next tests this_one more mid
    rw [bad] at here
    have before := testsets_front runs (show written spec ++ ',' :: text ≠ [] by simp) returns
    have split : front (specs ++ [spec]) ++ text = front specs ++ (written spec ++ ',' :: text) := by
      simp [front]
    rw [split, before, here, List.map_append, List.map_singleton]

/-- The testsets of the mix in front of the R-Tree tests. -/
def mixFront : List (List Char × Option ℕ) :=
  [("main".toList, none), ("orm".toList, some 25), ("cte".toList, some 20), ("json".toList, none),
    ("fp".toList, some 3), ("parsenumber".toList, some 25)]

/-- A database of which only the testsets count that have left tables. Those of `app` have
one that cannot be dropped. -/
def tableTests : Tests (List (List Char)) where
  run t db := .ok (db ++ [t.1])
  reset db := if db.contains "app".toList then
      .error (.fatal "exec error: table sqlite_sequence may not be dropped\n".toList)
    else .ok []

/-- The mix is run whole, but a build without R-Tree tests stops at them; and nothing can be
run after `app`. -/
theorem testsets_run_mix :
    runTestsets tableTests true 100 "mix1".toList [] = (mixFront.map (sized 100) ++
      [("rtree".toList, 10), ("star".toList, 100), ("app".toList, 100)], .ok ["app".toList]) ∧
    runTestsets tableTests false 100 "mix1".toList [] =
      (mixFront.map (sized 100), .error (noTestset "rtree".toList)) ∧
    runTestsets tableTests false 100 "fp,app,main".toList [] = ([("fp".toList, 100), ("app".toList, 100)],
      .error (.fatal "exec error: table sqlite_sequence may not be dropped\n".toList)) := by
  have small : ∀ rtree, ∀ specs : List (List Char × Option ℕ),
      (specs.all fun spec => spec.1 ∈ testsetNames rtree ∧ spec.2.getD 0 ≤ 100) →
        ∀ spec ∈ specs, Runs rtree 100 spec := by
    intro rtree specs checked spec member
    obtain ⟨known, bound⟩ := of_decide_eq_true (List.all_eq_true.mp checked spec member)
    refine ⟨known, fun scale here => ?_⟩
    rw [here] at bound
    simp only [Option.getD_some] at bound
    omega
  have build := small true (mixFront ++ [("rtree".toList, some 10), ("star".toList, none)])
    (by decide +kernel)
  have all := (@testsets_run _ tableTests true 100 _ build [] [] rfl).1 "app".toList ("app".toList, 100) []
    (by decide) (by decide) (by decide +kernel) (Or.inl rfl)
  have short := (@testsets_run _ tableTests false 100 _ (small false mixFront (by decide +kernel)) [] []
    rfl).2.1 "rtree/10".toList (noTestset "rtree".toList) ",star,app".toList (by decide) (by decide)
    (by decide +kernel) (by simp)
  have app := small false [("app".toList, none)] (by decide +kernel) _ (List.mem_singleton_self _)
  have dropped := (@testsets_run _ tableTests false 100 _ (small false [("fp".toList, none)]
    (by decide +kernel)) [] [] rfl).2.2 ("app".toList, none)
    (.fatal "exec error: table sqlite_sequence may not be dropped\n".toList) "main".toList app
    (by decide) rfl
  exact ⟨all, short, dropped⟩

end Lists

end MorelloWorkloads.Speedtest
