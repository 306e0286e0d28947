import MorelloWorkloads.Speedtest.Swizzle
import MorelloWorkloads.Speedtest.NumberName
import Mathlib.Data.Nat.ModEq

/-! The tests that replace rows and select them again: 400 and 410 with integer keys, 500
and 510 with their names. There are three times as many rows as keys, or fewer. -/
namespace MorelloWorkloads.Speedtest
open CString

/-- `char zNum[2000]` -/
def InNum (a : ℤ) : Prop := 0 ≤ a ∧ a < 2000

instance : DecidablePred InNum := fun _ => inferInstanceAs (Decidable (_ ∧ _))

/-- `speedtest1_numbername(x, zNum, sizeof(zNum))`, and the text that is bound. -/
def numText (x : ℕ) (m : ℤ → Char) : Option ((ℤ → Char) × List Char) := do
  let (m, _) ← numbername InNum x 0 2000 m
  let text ← read InNum '\x00' m 2000 0
  return (m, text)

section Tables
variable {κ β : Type} [DecidableEq κ]

/-- `REPLACE INTO` a table of keys and values. -/
def replace (t : κ → Option β) (key : κ) (value : β) : κ → Option β := Function.update t key (some value)

/-- The table after the replaces of the rows up to `n`. -/
def replaced (key : ℕ → κ) (value : ℕ → β) (n : ℕ) : κ → Option β :=
  (List.range' 1 n).foldl (fun t i => replace t (key i) (value i)) fun _ => none

end Tables

def testRow400 (maxb : BitVec 32) (s : (ℤ → Char) × (BitVec 32 → Option (List Char))) (i : ℕ) :
    Option ((ℤ → Char) × (BitVec 32 → Option (List Char))) := do
  let x1 := swizzle (BitVec.ofNat 32 i) maxb
  let (m, text) ← numText i s.1
  return (m, replace s.2 x1 text)

/-- The table `t5` after `n` rows. -/
def test400 (n : ℕ) (m : ℤ → Char) : Option (BitVec 32 × (BitVec 32 → Option (List Char))) := do
  let maxb ← roundupAllones 32 (BitVec.ofNat 32 (n / 3))
  let s ← (List.range' 1 n).foldlM (testRow400 maxb) (m, fun _ => none)
  return (maxb, s.2)

/-- What test 410 selects with its `i`-th key. -/
def test410 (maxb : BitVec 32) (t5 : BitVec 32 → Option (List Char)) (i : ℕ) : Option (List Char) :=
  t5 (swizzle (BitVec.ofNat 32 i) maxb)

def testRow500 (maxb : BitVec 32) (s : (ℤ → Char) × (List Char → Option ℕ)) (i : ℕ) :
    Option ((ℤ → Char) × (List Char → Option ℕ)) := do
  let x1 := swizzle (BitVec.ofNat 32 i) maxb
  let (m, text) ← numText x1.toNat s.1
  return (m, replace s.2 text i)

/-- The table `t6` after `n` rows. -/
def test500 (n : ℕ) (m : ℤ → Char) : Option (BitVec 32 × (List Char → Option ℕ)) := do
  let maxb ← roundupAllones 32 (BitVec.ofNat 32 (n / 3))
  let s ← (List.range' 1 n).foldlM (testRow500 maxb) (m, fun _ => none)
  return (maxb, s.2)

/-- What test 510 selects with its `i`-th key, whatever `zNum` held before. -/
def test510 (maxb : BitVec 32) (t6 : List Char → Option ℕ) (i : ℕ) (m : ℤ → Char) : Option (Option ℕ) := do
  let x1 := swizzle (BitVec.ofNat 32 i) maxb
  let (_, text) ← numText x1.toNat m
  return t6 text

/-! ## Tables of replaces -/

theorem numText_eq {x : ℕ} (unsigned : x < 2 ^ 32) (m : ℤ → Char) :
    ∃ m', numText x m = some (m', name x) := by
  have small : x < 10 ^ 12 := by omega
  obtain ⟨⟨m', i⟩, run, said⟩ := numbername_said InNum small 0 2000 m (by decide)
    fun b low high => ⟨low, by omega⟩
  have short := name_length small
  have count : i = min ((name x).length : ℤ) (2000 - 1) := said.filled.count
  have whole : i = (name x).length := by omega
  have lies : At m' 0 (name x ++ ['\x00']) := by
    rw [at_append]
    constructor
    · have text : At m' 0 ((name x).take i.toNat) := said.filled.text
      rwa [whole, Int.toNat_natCast, List.take_length] at text
    · intro k hk
      obtain rfl : k = 0 := by simpa using hk
      rw [← whole]
      simpa using said.ended (words_ne_nil x)
  have text : read InNum '\x00' m' 2000 0 = some (name x) := read_run
    (sentence_plain fun w member => (said.plain w member).2.2.1)
    (fun b low high => ⟨low, by rw [← name] at high; omega⟩) lies
    (show (name x).length < 2000 by omega)
  refine ⟨m', ?_⟩
  rw [numText, run]
  simp only [Option.bind_eq_bind, Option.bind_some]
  rw [text]
  rfl

section Tables
variable {κ β : Type} [DecidableEq κ] {key : ℕ → κ} {value : ℕ → β}

theorem replaced_succ (key : ℕ → κ) (value : ℕ → β) (n : ℕ) :
    replaced key value (n + 1) = replace (replaced key value n) (key (n + 1)) (value (n + 1)) := by
  rw [replaced, List.range'_1_concat, List.foldl_append, add_comm 1 n]
  rfl

/-- A key has the value of the last row that has it. -/
theorem replaced_last {n j : ℕ} (low : 1 ≤ j) (high : j ≤ n) (last : ∀ i, j < i → i ≤ n → key i ≠ key j) :
    replaced key value n (key j) = some (value j) := by
  induction n with
  | zero => omega
  | succ n ih =>
    rw [replaced_succ, replace]
    by_cases here : j = n + 1
    · rw [here, Function.update_self]
    · rw [Function.update_of_ne (last (n + 1) (by omega) le_rfl).symm]
      exact ih (by omega) fun i above below => last i above (by omega)

/-- Passes that each replace one row leave the table of all of them. -/
theorem replaces_run {row : (ℤ → Char) × (κ → Option β) → ℕ → Option ((ℤ → Char) × (κ → Option β))} {n : ℕ}
    (step : ∀ m t i, 1 ≤ i → i ≤ n → ∃ m', row (m, t) i = some (m', replace t (key i) (value i)))
    (m : ℤ → Char) :
    ∃ m', (List.range' 1 n).foldlM row (m, fun _ => none) = some (m', replaced key value n) := by
  induction n with
  | zero => exact ⟨m, rfl⟩
  | succ n ih =>
    obtain ⟨mid, before⟩ := ih fun m t i low high => step m t i low (by omega)
    obtain ⟨m', here⟩ := step mid (replaced key value n) (n + 1) (by omega) le_rfl
    refine ⟨m', ?_⟩
    rw [List.range'_1_concat, List.foldlM_append, before, replaced_succ, add_comm 1 n]
    simp only [Option.bind_eq_bind, Option.bind_some, List.foldlM_cons, here, List.foldlM_nil]
    rfl

end Tables

/-! ## What the selects find -/

/-- The last row up to `n` that agrees with row `i` modulo `p`. -/
def lastRow (n p i : ℕ) : ℕ := n - (n - i) % p

theorem lastRow_spec {n p i : ℕ} (positive : 0 < p) (le : i ≤ n) :
    i ≤ lastRow n p i ∧ lastRow n p i ≤ n ∧ lastRow n p i % p = i % p ∧
      ∀ k, lastRow n p i < k → k ≤ n → k % p ≠ lastRow n p i % p := by
  have rest : (n - i) % p < p := Nat.mod_lt _ positive
  have part : (n - i) % p ≤ n - i := Nat.mod_le _ _
  have whole := Nat.div_add_mod (n - i) p
  have row : lastRow n p i = i + p * ((n - i) / p) := by
    unfold lastRow
    omega
  refine ⟨by rw [row]; exact Nat.le_add_right _ _, Nat.sub_le _ _, by rw [row, Nat.add_mul_mod_self_left], ?_⟩
  intro k above below same
  have apart : p ∣ k - lastRow n p i := (Nat.modEq_iff_dvd' above.le).mp same.symm
  have far : p ≤ k - lastRow n p i := Nat.le_of_dvd (by omega) apart
  unfold lastRow at above far
  omega

/-- The key of row `i`. -/
def fillKey (w i : ℕ) : BitVec 32 := swizzle (BitVec.ofNat 32 i) (allones w)

theorem fillKey_eq_iff {w i j : ℕ} (small : w ≤ 32) (hi : i < 2 ^ 32) (hj : j < 2 ^ 32) :
    fillKey w i = fillKey w j ↔ i % 2 ^ w = j % 2 ^ w := by
  rw [fillKey, fillKey, swizzle_eq_iff, width_allones small, BitVec.toNat_ofNat, BitVec.toNat_ofNat,
    Nat.mod_eq_of_lt hi, Nat.mod_eq_of_lt hj]

theorem name_injective {x y : BitVec 32} (same : name x.toNat = name y.toNat) : x = y := by
  have number (x : BitVec 32) : readName (name x.toNat) = x.toNat := readName_name (x.isLt.trans (by decide))
  apply BitVec.eq_of_toNat_eq
  rw [← number x, same, number y]

section Runs
variable {n w : ℕ} (few : n < 2 ^ 31)
  (maxb : roundupAllones 32 (BitVec.ofNat 32 (n / 3)) = some (allones w)) (m : ℤ → Char)
include few maxb

theorem test400_run : test400 n m = some (allones w, replaced (fillKey w) name n) := by
  obtain ⟨m', run⟩ : ∃ m', (List.range' 1 n).foldlM (testRow400 (allones w)) (m, fun _ => none) =
      some (m', replaced (fillKey w) name n) := replaces_run (fun m t i low high => by
      obtain ⟨m', text⟩ := numText_eq (show i < 2 ^ 32 by omega) m
      refine ⟨m', ?_⟩
      simp only [testRow400, text, Option.bind_eq_bind, Option.bind_some]
      rfl) m
  simp only [test400, maxb, Option.bind_eq_bind, Option.bind_some, run]
  rfl

omit few in
theorem test500_run :
    test500 n m = some (allones w, replaced (fun i => name (fillKey w i).toNat) (fun i => i) n) := by
  obtain ⟨m', run⟩ : ∃ m', (List.range' 1 n).foldlM (testRow500 (allones w)) (m, fun _ => none) =
      some (m', replaced (fun i => name (fillKey w i).toNat) (fun i => i) n) :=
    replaces_run (fun m t i low high => by
      obtain ⟨m', text⟩ := numText_eq (fillKey w i).isLt m
      refine ⟨m', ?_⟩
      rw [fillKey] at text
      simp only [testRow500, text, Option.bind_eq_bind, Option.bind_some]
      rfl) m
  simp only [test500, maxb, Option.bind_eq_bind, Option.bind_some, run]
  rfl

end Runs

/-- Every select of tests 410 and 510 finds its row: that of the last replace whose number
agrees with its own modulo the number of keys. -/
theorem selects_find {n : ℕ} (few : n < 2 ^ 31) (m : ℤ → Char) : ∃ maxb t5 t6,
    test400 n m = some (maxb, t5) ∧ test500 n m = some (maxb, t6) ∧ ∀ i, 1 ≤ i → i ≤ n →
      test410 maxb t5 i = some (name (lastRow n (maxb.toNat + 1) i)) ∧
      ∀ m', test510 maxb t6 i m' = some (some (lastRow n (maxb.toNat + 1) i)) := by
  obtain ⟨w, hw⟩ : ∃ w, w = max 1 (width (BitVec.ofNat 32 (n / 3))) := ⟨_, rfl⟩
  have small : w ≤ 32 := by
    have := width_le (BitVec.ofNat 32 (n / 3))
    omega
  have maxb : roundupAllones 32 (BitVec.ofNat 32 (n / 3)) = some (allones w) := hw ▸ roundupAllones_eq _
  have keys : (allones w).toNat + 1 = 2 ^ w := by
    rw [toNat_allones small]
    exact Nat.sub_add_cancel (Nat.two_pow_pos w)
  refine ⟨allones w, _, _, test400_run few maxb m, test500_run maxb m, fun i low high => ?_⟩
  rw [keys]
  obtain ⟨j, hj⟩ : ∃ j, j = lastRow n (2 ^ w) i := ⟨_, rfl⟩
  obtain ⟨later, le, same, last⟩ := hj ▸ lastRow_spec (Nat.two_pow_pos w) high
  have key : fillKey w i = fillKey w j := (fillKey_eq_iff small (by omega) (by omega)).mpr same.symm
  have apart : ∀ k, j < k → k ≤ n → fillKey w k ≠ fillKey w j := fun k above below equal =>
    last k above below ((fillKey_eq_iff small (by omega) (by omega)).mp equal)
  rw [← hj]
  constructor
  · show replaced (fillKey w) name n (fillKey w i) = some (name j)
    rw [key]
    exact replaced_last (by omega) le apart
  · intro m'
    obtain ⟨m'', text⟩ := numText_eq (fillKey w i).isLt m'
    have found : replaced (fun i => name (fillKey w i).toNat) (fun i => i) n
        (name (fillKey w j).toNat) = some j :=
      @replaced_last _ _ _ (fun i => name (fillKey w i).toNat) (fun i => i) _ _ (by omega) le
        fun k above below equal => apart k above below (name_injective equal)
    rw [test510, ← fillKey, text]
    show some (replaced (fun i => name (fillKey w i).toNat) (fun i => i) n (name (fillKey w i).toNat)) =
      some (some j)
    rw [key, found]

/-- The default size, a hundred times 700 rows. -/
theorem selects_find_default : ∃ maxb t5 t6, test400 70000 (fun _ => '?') = some (maxb, t5) ∧
    test500 70000 (fun _ => '?') = some (maxb, t6) ∧ ∀ i, 1 ≤ i → i ≤ 70000 →
      test410 maxb t5 i = some (name (lastRow 70000 (maxb.toNat + 1) i)) ∧
      ∀ m', test510 maxb t6 i m' = some (some (lastRow 70000 (maxb.toNat + 1) i)) :=
  selects_find (by decide) fun _ => '?'

/-! ## The testset that looks at `swizzle` -/

/-- `%5d` -/
def field (x : ℤ) : List Char := (toString x).toList.leftpad 5 ' '

/-- `printf("%5d %5d %5d %s\n", i, x1, x2, zNum)` -/
def debug1Line (i x1 x2 : ℤ) (zNum : List Char) : List Char :=
  field i ++ [' '] ++ field x1 ++ [' '] ++ field x2 ++ [' '] ++ zNum ++ ['\n']

/-- A pass of the loop, with what has been printed. -/
def debug1Row (n : BitVec 32) (s : (ℤ → Char) × List Char) (i : ℕ) : Option ((ℤ → Char) × List Char) := do
  let x1 := swizzle (BitVec.ofNat 32 i) n
  let x2 := swizzle x1 n
  let (m, text) ← numText x1.toNat s.1
  return (m, s.2 ++ debug1Line (BitVec.ofNat 32 i).toInt x1.toInt x2.toInt text)

/-- `testset_debug1`, whose loop ends as `g.szTest` is an `int` and `i` is unsigned. -/
def testsetDebug1 (n : ℕ) (m : ℤ → Char) : Option (List Char) := do
  let s ← (List.range' 1 n).foldlM (debug1Row (BitVec.ofNat 32 n)) (m, [])
  return s.2

theorem toInt_small {x : BitVec 32} (small : x.toNat < 2 ^ 31) : x.toInt = x.toNat :=
  BitVec.toInt_eq_toNat_of_lt (by omega)

/-- The third column is the first, whatever the size. -/
theorem debug1_columns {n : ℕ} (few : n < 2 ^ 31) (m : ℤ → Char) : testsetDebug1 n m =
    some ((List.range' 1 n).flatMap fun i =>
      let x1 := (swizzle (BitVec.ofNat 32 i) (BitVec.ofNat 32 n)).toNat
      debug1Line i x1 i (name x1)) := by
  have size : (BitVec.ofNat 32 n).toNat = n := by
    rw [BitVec.toNat_ofNat, Nat.mod_eq_of_lt (by omega)]
  have short : width (BitVec.ofNat 32 n) ≤ 31 := by
    rw [width, size]
    exact Nat.size_le.mpr few
  have rows (k : ℕ) (le : k ≤ n) : ∃ m', (List.range' 1 k).foldlM (debug1Row (BitVec.ofNat 32 n)) (m, []) =
      some (m', (List.range' 1 k).flatMap fun i =>
        let x1 := (swizzle (BitVec.ofNat 32 i) (BitVec.ofNat 32 n)).toNat
        debug1Line i x1 i (name x1)) := by
    induction k with
    | zero => exact ⟨m, rfl⟩
    | succ k ih =>
      obtain ⟨mid, before⟩ := ih (by omega)
      obtain ⟨m', text⟩ := numText_eq (swizzle (BitVec.ofNat 32 (k + 1)) (BitVec.ofNat 32 n)).isLt mid
      have row : (BitVec.ofNat 32 (k + 1)).toNat = k + 1 := by
        rw [BitVec.toNat_ofNat, Nat.mod_eq_of_lt (by omega)]
      have below : BitVec.ofNat 32 (k + 1) ≤ BitVec.ofNat 32 n := by
        rw [BitVec.le_def, row, size]
        exact le
      have back := swizzle_swizzle (lt_width below)
      have first : (BitVec.ofNat 32 (k + 1)).toInt = ((k + 1 : ℕ) : ℤ) := by
        rw [toInt_small (by omega), row]
      have second := toInt_small ((swizzle_lt (BitVec.ofNat 32 (k + 1)) (BitVec.ofNat 32 n)).trans_le
        (Nat.pow_le_pow_right two_pos short))
      refine ⟨m', ?_⟩
      rw [List.range'_1_concat, List.foldlM_append, before, add_comm 1 k, List.flatMap_append]
      simp only [Option.bind_eq_bind, Option.bind_some, List.foldlM_cons, List.foldlM_nil, debug1Row, text,
        back, first, second, List.flatMap_singleton]
      rfl
  obtain ⟨m', run⟩ := rows n le_rfl
  rw [testsetDebug1, run]
  rfl

theorem debug1_columns_hundred : testsetDebug1 100 (fun _ => '?') =
    some ((List.range' 1 100).flatMap fun i =>
      let x1 := (swizzle (BitVec.ofNat 32 i) 100).toNat
      debug1Line i x1 i (name x1)) :=
  debug1_columns (by decide) fun _ => '?'

end MorelloWorkloads.Speedtest
