import Mathlib.Algebra.Order.Ring.Abs
import MorelloWorkloads.QuickJs.BigInt

/-! Sums, differences, products and comparisons of integers of any size are those of the
integers. -/
namespace MorelloWorkloads.QuickJs

open Words

variable {w : ℕ} [NeZero w]

/-- The operation gives `x` in normal form, unless it asks for too many limbs. -/
def Computes (out : Except String (List (BitVec w))) (limbs : ℕ) (x : ℤ) : Prop :=
  if limbs > JS_BIGINT_MAX_SIZE w then out = .error "BigInt is too large to allocate"
  else ∃ r, out = .ok r ∧ Normal r ∧ signed r = x

omit [NeZero w] in
/-- An operation that starts with the allocation. -/
theorem computes_of_new {out : Except String (List (BitVec w))} {limbs : ℕ} {x : ℤ}
    {run : Except String (List (BitVec w))} (start : out = (do jsBigintNew w limbs; run))
    (done : ∃ r, run = .ok r ∧ Normal r ∧ signed r = x) : Computes out limbs x := by
  rw [Computes]
  split
  · rename_i large
    rw [start, jsBigintNew, if_pos large]
    rfl
  · rename_i small
    rw [start, jsBigintNew, if_neg small]
    exact done

omit [NeZero w] in
theorem toNat_modEq_toInt (x : BitVec w) : (x.toNat : ℤ) ≡ x.toInt [ZMOD (2 ^ w : ℕ)] := by
  rw [BitVec.toInt_eq_toNat_bmod]
  exact Int.bmod_emod.symm

/-! ## Sums -/

omit [NeZero w] in
theorem value_split {n : ℕ} {c : List (BitVec w)} (room : n ≤ c.length) (k : List (BitVec w)) :
    value (c ++ k) = value (c.take n) + (2 ^ w) ^ n * value (c.drop n ++ k) := by
  have whole := value_append (c.take n) (c.drop n ++ k)
  rwa [← List.append_assoc, List.take_append_drop, List.length_take, min_eq_left room] at whole

/-- The limbs that `js_bigint_add` computes, and the last carry. -/
theorem sum_limbs (a b : List (BitVec w)) {carry : BitVec w} (bit : carry.toNat ≤ 1) :
    let n2 := max a.length b.length
    let n1 := min a.length b.length
    let common := mpAdd (a.take n1) (b.take n1) carry
    let rest :=
      if a.length > b.length then mpAdd (a.drop n1) (List.replicate (n2 - n1) (extension b)) common.2
      else if a.length < b.length then
        mpAdd (List.replicate (n2 - n1) (extension a)) (b.drop n1) common.2
      else ([], common.2)
    (common.1 ++ rest.1).length = n2 ∧
      value (common.1 ++ rest.1) + (2 ^ w) ^ n2 * rest.2.toNat =
        value (a ++ List.replicate (n2 - a.length) (extension a)) +
          value (b ++ List.replicate (n2 - b.length) (extension b)) + carry.toNat := by
  intro n2 n1 common rest
  have sizes : (a.take n1).length = n1 ∧ (b.take n1).length = n1 := by
    simp only [List.length_take]
    omega
  obtain ⟨length, next, low⟩ := mpAdd_eq (sizes.1.trans sizes.2.symm) bit
  rw [sizes.1] at length low
  -- the limbs above those of the shorter number
  obtain ⟨above, high⟩ : rest.1.length = n2 - n1 ∧ value rest.1 + (2 ^ w) ^ (n2 - n1) * rest.2.toNat =
      value (a.drop n1 ++ List.replicate (n2 - a.length) (extension a)) +
        value (b.drop n1 ++ List.replicate (n2 - b.length) (extension b)) + common.2.toNat := by
    rcases lt_trichotomy a.length b.length with shorter | same | longer
    · have choice : rest = mpAdd (List.replicate (n2 - n1) (extension a)) (b.drop n1) common.2 :=
        (if_neg (by omega)).trans (if_pos shorter)
      have count : (List.replicate (n2 - n1) (extension a)).length = (b.drop n1).length := by
        rw [List.length_replicate, List.length_drop]
        omega
      have none : a.drop n1 = [] := List.drop_eq_nil_of_le (by omega)
      obtain ⟨above, -, high⟩ := mpAdd_eq count next
      rw [List.length_replicate] at above high
      rw [choice, none, show n2 - a.length = n2 - n1 by omega, show n2 - b.length = 0 by omega,
        List.replicate_zero, List.append_nil, List.nil_append]
      exact ⟨above, high⟩
    · have choice : rest = ([], common.2) := (if_neg (by omega)).trans (if_neg (by omega))
      rw [choice, List.drop_eq_nil_of_le (by omega), List.drop_eq_nil_of_le (by omega),
        show n2 - a.length = 0 by omega, show n2 - b.length = 0 by omega, show n2 - n1 = 0 by omega]
      simp
    · have choice : rest = mpAdd (a.drop n1) (List.replicate (n2 - n1) (extension b)) common.2 :=
        if_pos longer
      have count : (a.drop n1).length = (List.replicate (n2 - n1) (extension b)).length := by
        rw [List.length_replicate, List.length_drop]
        omega
      have none : b.drop n1 = [] := List.drop_eq_nil_of_le (by omega)
      obtain ⟨above, -, high⟩ := mpAdd_eq count next
      rw [count, List.length_replicate] at above high
      rw [choice, none, show n2 - b.length = n2 - n1 by omega, show n2 - a.length = 0 by omega,
        List.replicate_zero, List.append_nil, List.nil_append]
      exact ⟨above, high⟩
  have total : n2 = n1 + (n2 - n1) := by omega
  refine ⟨by rw [List.length_append, length, above, ← total], ?_⟩
  have splitA := value_split (by omega : n1 ≤ a.length) (List.replicate (n2 - a.length) (extension a))
  have splitB := value_split (by omega : n1 ≤ b.length) (List.replicate (n2 - b.length) (extension b))
  have power : (2 ^ w) ^ n2 = (2 ^ w) ^ n1 * (2 ^ w) ^ (n2 - n1) := by rw [← pow_add, ← total]
  rw [splitA, splitB, value_append, length, power]
  linear_combination low + (2 ^ w) ^ n1 * high

/-- The two numbers of `js_bigint_add`, the carry included. -/
theorem sum_signed {a b : List (BitVec w)} (ha : a ≠ []) (hb : b ≠ []) {carry : BitVec w}
    (bit : carry.toNat ≤ 1) {l : List (BitVec w)} {k : BitVec w}
    (length : l.length = max a.length b.length)
    (sum : value l + (2 ^ w) ^ max a.length b.length * k.toNat =
      value (a ++ List.replicate (max a.length b.length - a.length) (extension a)) +
        value (b ++ List.replicate (max a.length b.length - b.length) (extension b)) + carry.toNat) :
    signed (l ++ [extension a + extension b + k]) = signed a + signed b + carry.toNat := by
  -- each number is its limbs, as far as they go, and the sign above them
  have number {c : List (BitVec w)} (room : c.length ≤ max a.length b.length) :
      signed c = value (c ++ List.replicate (max a.length b.length - c.length) (extension c)) +
        ((2 ^ w) ^ max a.length b.length : ℕ) * (extension c).toInt := by
    obtain ⟨same, sign⟩ := extend_replicate c (max a.length b.length - c.length)
    have longer := signed_extend (c ++ List.replicate (max a.length b.length - c.length) (extension c))
    have count : (c ++ List.replicate (max a.length b.length - c.length) (extension c)).length =
        max a.length b.length := by
      rw [List.length_append, List.length_replicate]
      omega
    rw [sign, signed_concat, count, same] at longer
    exact longer.symm
  have numberA := number (le_max_left a.length b.length)
  have numberB := number (le_max_right a.length b.length)
  have exact : signed a + signed b + carry.toNat = value l + ((2 ^ w) ^ max a.length b.length : ℕ) *
      ((extension a).toInt + (extension b).toInt + k.toNat) := by
    have sum : (value l : ℤ) + ((2 ^ w) ^ max a.length b.length : ℕ) * k.toNat =
      value (a ++ List.replicate (max a.length b.length - a.length) (extension a)) +
        value (b ++ List.replicate (max a.length b.length - b.length) (extension b)) + carry.toNat := by
      exact_mod_cast sum
    linear_combination numberA + numberB - sum
  have total : (l ++ [extension a + extension b + k]).length = max a.length b.length + 1 := by
    rw [List.length_append, length, List.length_singleton]
  have word : ((extension a + extension b + k).toNat : ℤ) ≡
      (extension a).toInt + (extension b).toInt + k.toNat [ZMOD (2 ^ w : ℕ)] := by
    rw [BitVec.toNat_add, BitVec.toNat_add, Int.natCast_emod, Nat.cast_add, Int.natCast_emod, Nat.cast_add]
    exact (Int.mod_modEq _ _).trans (((Int.mod_modEq _ _).trans
      ((toNat_modEq_toInt _).add (toNat_modEq_toInt _))).add_right _)
  have power : (((2 ^ w) ^ (max a.length b.length + 1) : ℕ) : ℤ) =
      ((2 ^ w) ^ max a.length b.length : ℕ) * (2 ^ w : ℕ) := by rw [pow_succ, Nat.cast_mul]
  have room {c : List (BitVec w)} (some : c ≠ []) (room : c.length ≤ max a.length b.length) :
      -((2 ^ w) ^ max a.length b.length : ℕ) ≤ 2 * signed c ∧
        2 * signed c + 2 ≤ ((2 ^ w) ^ max a.length b.length : ℕ) := by
    have larger : (((2 ^ w) ^ c.length : ℕ) : ℤ) ≤ ((2 ^ w) ^ max a.length b.length : ℕ) := by
      exact_mod_cast Nat.pow_le_pow_right (Nat.two_pow_pos w) room
    exact ⟨(signed_bounds room).1, (signed_lt some).trans larger⟩
  have boundA := room ha (le_max_left a.length b.length)
  have boundB := room hb (le_max_right a.length b.length)
  have twice : (((2 ^ w) ^ max a.length b.length : ℕ) : ℤ) * 2 ≤
      ((2 ^ w) ^ max a.length b.length : ℕ) * (2 ^ w : ℕ) := by
    have two : 2 ≤ 2 ^ w := Nat.le_self_pow (NeZero.ne w) 2
    exact mul_le_mul_of_nonneg_left (by exact_mod_cast two) (Int.natCast_nonneg _)
  have bit : (carry.toNat : ℤ) ≤ 1 := by exact_mod_cast bit
  refine signed_eq ?_ ?_ ?_
  · rw [total, power, exact, value_concat, length, Nat.cast_add, Nat.cast_mul]
    exact word.mul_left'.add_left _
  · rw [total, power]
    linarith [Int.natCast_nonneg carry.toNat]
  · rw [total, power]
    linarith

theorem sign_mask_eq {b : List (BitVec w)} (some : b ≠ []) (bNeg : Bool) :
    let mask := if bNeg then -1#w else 0#w
    b.map (· ^^^ mask) ≠ [] ∧ (b.map (· ^^^ mask)).length = b.length ∧
      -jsBigintSign b ^^^ mask = extension (b.map (· ^^^ mask)) ∧
      signed (b.map (· ^^^ mask)) = if bNeg then -1 - signed b else signed b := by
  cases bNeg with
  | false =>
    simp only [Bool.false_eq_true, if_false, neg_sign some, BitVec.xor_zero, List.map_id']
    exact ⟨some, trivial, trivial, trivial⟩
  | true =>
    have flipped : b.map (· ^^^ -1#w) = b.map (~~~·) := by
      simp only [BitVec.neg_one_eq_allOnes, BitVec.xor_allOnes]
    have number := signed_not some
    have sign : negative (b.map (~~~·)) = !negative b := by
      rw [Bool.eq_iff_iff, Bool.not_eq_true', ← Bool.not_eq_true, negative_iff, negative_iff, number]
      omega
    simp only [if_true, flipped, List.length_map, number]
    refine ⟨mt List.map_eq_nil_iff.mp some, trivial, ?_, trivial⟩
    rw [neg_sign some, extension, extension, sign, BitVec.neg_one_eq_allOnes, BitVec.xor_allOnes]
    cases negative b <;> simp

/-- The sum or the difference of two numbers is the one of the integers, in normal form.
Only numbers longer than any that can be allocated throw. -/
theorem jsBigintAdd_exact {a b : List (BitVec w)} (ha : a ≠ []) (hb : b ≠ []) (bNeg : Bool) :
    Computes (jsBigintAdd a b bNeg) (max a.length b.length)
      (if bNeg then signed a - signed b else signed a + signed b) := by
  refine computes_of_new rfl ?_
  have bit : (if bNeg then 1#w else 0#w).toNat ≤ 1 := by
    split
    · exact (BitVec.toNat_one (NeZero.pos w)).le
    · exact BitVec.toNat_zero.trans_le (Nat.zero_le 1)
  obtain ⟨some, count, sign, number⟩ := sign_mask_eq hb bNeg
  simp only [List.map_take, List.map_drop, neg_sign ha, sign, ← count]
  have start : (if bNeg then 1#w else 0#w).toNat = if bNeg then 1 else 0 := by
    cases bNeg with
    | false => exact BitVec.toNat_zero
    | true => exact BitVec.toNat_one (NeZero.pos w)
  generalize b.map (· ^^^ if bNeg then -1#w else 0#w) = c at some count number
  generalize (if bNeg then 1#w else 0#w) = carry at bit start
  obtain ⟨length, sum⟩ := sum_limbs a c bit
  have exact := sum_signed ha some bit length sum
  have front := List.ne_nil_of_length_pos
    (length ▸ (List.length_pos_of_ne_nil ha).trans_le (le_max_left a.length c.length))
  obtain ⟨normal, same⟩ := extend_eq front (extension a + extension c + _)
  refine ⟨_, rfl, normal, same.trans (exact.trans ?_)⟩
  rw [number, start]
  cases bNeg with
  | false => simp
  | true =>
    rw [if_pos rfl, if_pos rfl, if_pos rfl, Nat.cast_one]
    ring

theorem jsBigintNeg_exact {a : List (BitVec w)} (ha : a ≠ []) :
    Computes (jsBigintNeg a) a.length (-signed a) := by
  have zero : signed [0#w] = 0 := (eq_zero_iff (normal_singleton _)).mp rfl
  have length : max [0#w].length a.length = a.length := max_eq_right (List.length_pos_of_ne_nil ha)
  have difference := jsBigintAdd_exact (List.cons_ne_nil (0#w) []) ha true
  rwa [if_pos rfl, zero, zero_sub, length] at difference

/-! ## Products -/

/-- Subtracting from the limbs above the first `n`, modulo the power of the base. -/
theorem sub_above {r c : List (BitVec w)} {n : ℕ} (length : r.length = n + c.length) :
    (r.take n ++ (mpSub (r.drop n) c 0#w).1).length = r.length ∧
    (value (r.take n ++ (mpSub (r.drop n) c 0#w).1) : ℤ) ≡
      value r - ((2 ^ w) ^ n : ℕ) * value c [ZMOD ((2 ^ w) ^ r.length : ℕ)] := by
  have same : (r.drop n).length = c.length := by
    rw [List.length_drop]
    omega
  have front : (r.take n).length = n := by
    rw [List.length_take]
    omega
  have bit : (0#w).toNat ≤ 1 := BitVec.toNat_zero.trans_le (Nat.zero_le 1)
  obtain ⟨count, -, eq⟩ := mpSub_eq same bit
  have parts := value_append (r.take n) (r.drop n)
  rw [List.take_append_drop, front] at parts
  refine ⟨by rw [List.length_append, front, count, same, length], ?_⟩
  refine Int.modEq_iff_dvd.mpr ⟨-((mpSub (r.drop n) c 0#w).2.toNat : ℤ), ?_⟩
  have eq : (value (mpSub (r.drop n) c 0#w).1 : ℤ) + value c =
      value (r.drop n) + ((2 ^ w) ^ c.length : ℕ) * (mpSub (r.drop n) c 0#w).2.toNat := by
    rw [BitVec.toNat_zero, add_zero, same] at eq
    exact_mod_cast eq
  have power : (((2 ^ w) ^ r.length : ℕ) : ℤ) = ((2 ^ w) ^ n : ℕ) * ((2 ^ w) ^ c.length : ℕ) := by
    rw [length, pow_add, Nat.cast_mul]
  rw [value_append, front, parts, power, Nat.cast_add, Nat.cast_mul, Nat.cast_add, Nat.cast_mul]
  linear_combination -((2 ^ w) ^ n : ℕ) * eq

/-- The correction of a product for the sign of one factor, `c` being the other one. -/
theorem corrected {r a c : List (BitVec w)} (some : a ≠ []) (length : r.length = a.length + c.length) :
    let out := if jsBigintSign a ≠ 0#w then r.take a.length ++ (mpSub (r.drop a.length) c 0#w).1 else r
    out.length = r.length ∧ (value out : ℤ) ≡ value r + (signed a - value a) * value c
      [ZMOD ((2 ^ w) ^ r.length : ℕ)] := by
  cases sign : negative a with
  | true =>
    obtain ⟨count, congr⟩ := sub_above length
    simp only [if_pos ((sign_ne_zero some).mpr sign), signed_of_negative sign]
    have same : (value r : ℤ) + (value a - ((2 ^ w) ^ a.length : ℕ) - value a) * value c =
        value r - ((2 ^ w) ^ a.length : ℕ) * value c := by ring
    rw [same]
    exact ⟨count, congr⟩
  | false =>
    have positive : ¬ jsBigintSign a ≠ 0#w := by
      rw [sign_ne_zero some, sign]
      exact Bool.false_ne_true
    simp only [if_neg positive, signed_of_nonneg sign, sub_self, zero_mul, add_zero]
    exact ⟨trivial, rfl⟩

/-- The product of two numbers is the one of the integers, in normal form. -/
theorem jsBigintMul_exact {a b : List (BitVec w)} (ha : a ≠ []) (hb : b ≠ []) :
    Computes (jsBigintMul a b) (a.length + b.length) (signed a * signed b) := by
  refine computes_of_new rfl ?_
  obtain ⟨length, product⟩ := mpMulBasecase_eq a hb
  obtain ⟨count, first⟩ := corrected ha length
  obtain ⟨count', second⟩ := corrected hb (count.trans (length.trans (add_comm a.length b.length)))
  generalize outEq : (if jsBigintSign a ≠ 0#w then
    (mpMulBasecase a b).take a.length ++ (mpSub ((mpMulBasecase a b).drop a.length) b 0#w).1
      else mpMulBasecase a b) = out at count first count' second
  generalize lastEq : (if jsBigintSign b ≠ 0#w then
    out.take b.length ++ (mpSub (out.drop b.length) a 0#w).1 else out) = last at count' second
  have size : last.length = a.length + b.length := count'.trans (count.trans length)
  have power : (((2 ^ w) ^ (a.length + b.length) : ℕ) : ℤ) =
      ((2 ^ w) ^ a.length : ℕ) * ((2 ^ w) ^ b.length : ℕ) := by rw [pow_add, Nat.cast_mul]
  -- what the two corrections leave out is a multiple of the power of the base
  have twice : (signed a - value a) * (signed b - value b) ≡ 0
      [ZMOD ((2 ^ w) ^ (a.length + b.length) : ℕ)] := by
    rw [power]
    exact (Int.modEq_zero_iff_dvd).mpr
      (mul_dvd_mul (signed_modEq a).symm.dvd (signed_modEq b).symm.dvd)
  have congr : (value last : ℤ) ≡ signed a * signed b [ZMOD ((2 ^ w) ^ last.length : ℕ)] := by
    rw [count.trans length] at second
    rw [length, product, Nat.cast_mul] at first
    have total := second.trans (first.add_right ((signed b - value b) * value a))
    rw [size]
    calc (value last : ℤ) ≡ value a * value b + (signed a - value a) * value b +
          (signed b - value b) * value a [ZMOD ((2 ^ w) ^ (a.length + b.length) : ℕ)] := total
      _ = signed a * signed b - (signed a - value a) * (signed b - value b) := by ring
      _ ≡ signed a * signed b - 0 [ZMOD ((2 ^ w) ^ (a.length + b.length) : ℕ)] := twice.sub_left _
      _ = signed a * signed b := sub_zero _
  have range : |2 * signed a * (2 * signed b)| ≤
      ((2 ^ w) ^ a.length : ℕ) * ((2 ^ w) ^ b.length : ℕ) := by
    rw [abs_mul]
    have rangeA := signed_range a
    have rangeB := signed_range b
    exact mul_le_mul (abs_le.mpr ⟨rangeA.1, rangeA.2.le⟩) (abs_le.mpr ⟨rangeB.1, rangeB.2.le⟩)
      (abs_nonneg _) (Int.natCast_nonneg _)
  have positive : (0 : ℤ) < ((2 ^ w) ^ a.length : ℕ) * ((2 ^ w) ^ b.length : ℕ) := by positivity
  obtain ⟨low, high⟩ := abs_le.mp range
  have number : signed last = signed a * signed b := by
    refine signed_eq congr ?_ ?_
    · rw [size, power]
      linarith
    · rw [size, power]
      linarith
  have some : last ≠ [] := List.ne_nil_of_length_pos
    (size ▸ Nat.add_pos_left (List.length_pos_of_ne_nil ha) _)
  obtain ⟨normal, same⟩ := normalize_eq some
  subst lastEq outEq
  exact ⟨_, rfl, normal, same.trans number⟩

/-! ## Order -/

/-- A normalized number of more limbs is further from zero. -/
theorem longer_apart {a b : List (BitVec w)} (some : a ≠ []) (hb : Normal b)
    (shorter : a.length < b.length) :
    (signed b < 0 → signed b < signed a) ∧ (0 ≤ signed b → signed a < signed b) := by
  obtain ⟨l, x, rfl⟩ := (List.eq_nil_or_concat' b).resolve_left hb.1
  rw [List.length_append, List.length_singleton] at shorter
  have fits : a.length ≤ l.length := Nat.lt_succ_iff.mp shorter
  have front : l ≠ [] := List.ne_nil_of_length_pos ((List.length_pos_of_ne_nil some).trans_le fits)
  have large := hb.large front
  have range := signed_bounds fits
  omega

theorem sign_toNat {a : List (BitVec w)} (some : a ≠ []) :
    ((jsBigintSign a).toNat : ℤ) = if signed a < 0 then 1 else 0 := by
  rw [jsBigintSign_eq some, toNat_flag]
  simp only [negative_iff]
  split <;> rfl

/-- Normalized numbers are compared as integers. -/
theorem jsBigintCmp_exact {a b : List (BitVec w)} (ha : Normal a) (hb : Normal b) :
    jsBigintCmp a b = (signed a - signed b).sign := by
  have below {x y : ℤ} (less : x < y) : (x - y).sign = -1 := Int.sign_eq_neg_one_of_neg (by omega)
  have above {x y : ℤ} (more : y < x) : (x - y).sign = 1 := Int.sign_eq_one_of_pos (by omega)
  -- numbers of one length and one sign differ as their limbs do
  have level (same : a.length = b.length) (difference : signed a - signed b = value a - value b) :
      (compareDown a b = .lt ∧ (signed a - signed b).sign = -1) ∨
        (compareDown a b = .gt ∧ (signed a - signed b).sign = 1) ∨
        (compareDown a b = .eq ∧ (signed a - signed b).sign = 0) := by
    rw [compareDown_eq same, difference]
    rcases lt_trichotomy (value a) (value b) with less | equal | more
    · exact Or.inl ⟨if_pos less, below (by exact_mod_cast less)⟩
    · refine Or.inr (Or.inr ⟨?_, ?_⟩)
      · rw [if_neg equal.not_lt, if_neg equal.not_gt]
      · rw [equal, sub_self, Int.sign_zero]
    · refine Or.inr (Or.inl ⟨?_, above (by exact_mod_cast more)⟩)
      rw [if_neg more.not_gt, if_pos more]
  simp only [jsBigintCmp, sign_toNat ha.1, sign_toNat hb.1]
  by_cases negA : signed a < 0
  · by_cases negB : signed b < 0
    · rw [if_pos negA, if_pos negB, if_neg fun ne => ne rfl]
      rcases lt_trichotomy a.length b.length with shorter | same | longer
      · rw [if_pos shorter.ne, if_pos shorter, above ((longer_apart ha.1 hb shorter).1 negB)]
        rfl
      · rw [if_neg (not_not.mpr same)]
        have difference : signed a - signed b = value a - value b := by
          rw [signed_of_negative ((negative_iff a).mpr negA), signed_of_negative ((negative_iff b).mpr negB),
            same]
          ring
        rcases level same difference with ⟨order, sign⟩ | ⟨order, sign⟩ | ⟨order, sign⟩
        all_goals rw [order, sign]
      · rw [if_pos longer.ne', if_neg longer.not_gt, below ((longer_apart hb.1 ha longer).1 negA)]
        rfl
    · rw [if_pos negA, if_neg negB, if_pos one_ne_zero, below (by omega)]
      rfl
  · by_cases negB : signed b < 0
    · rw [if_neg negA, if_pos negB, if_pos zero_ne_one, above (by omega)]
      rfl
    · rw [if_neg negA, if_neg negB, if_neg fun ne => ne rfl]
      rcases lt_trichotomy a.length b.length with shorter | same | longer
      · rw [if_pos shorter.ne, if_pos shorter, below ((longer_apart ha.1 hb shorter).2 (not_lt.mp negB))]
        rfl
      · have posA : negative a = false := Bool.eq_false_iff.mpr (mt (negative_iff a).mp negA)
        have posB : negative b = false := Bool.eq_false_iff.mpr (mt (negative_iff b).mp negB)
        rw [if_neg (not_not.mpr same)]
        have difference : signed a - signed b = value a - value b := by
          rw [signed_of_nonneg posA, signed_of_nonneg posB]
        rcases level same difference with ⟨order, sign⟩ | ⟨order, sign⟩ | ⟨order, sign⟩
        all_goals rw [order, sign]
      · rw [if_pos longer.ne', if_neg longer.not_gt,
          above ((longer_apart hb.1 ha longer).2 (not_lt.mp negA))]
        rfl

/-- On normalized numbers the operations are those of the integers: sums, differences and
products come in normal form or throw when they ask for too many limbs, and the order is
found. -/
theorem arithmetic_exact {a b : List (BitVec w)} (ha : Normal a) (hb : Normal b) :
    Computes (jsBigintAdd a b false) (max a.length b.length) (signed a + signed b) ∧
    Computes (jsBigintAdd a b true) (max a.length b.length) (signed a - signed b) ∧
    Computes (jsBigintNeg a) a.length (-signed a) ∧
    Computes (jsBigintMul a b) (a.length + b.length) (signed a * signed b) ∧
    jsBigintCmp a b = (signed a - signed b).sign :=
  ⟨jsBigintAdd_exact ha.1 hb.1 false, jsBigintAdd_exact ha.1 hb.1 true, jsBigintNeg_exact ha.1,
    jsBigintMul_exact ha.1 hb.1, jsBigintCmp_exact ha hb⟩

theorem arithmetic_exact_limbs :
    Computes (jsBigintMul [5#64, -1#64] [3#64, 1#64]) 4 ((5 - 2 ^ 64) * (3 + 2 ^ 64)) ∧
      jsBigintCmp [5#64, -1#64] [3#64, 1#64] = -1 := by
  have first : Normal [5#64, -1#64] := by decide +kernel
  have second : Normal [3#64, 1#64] := by decide +kernel
  have numbers : signed [5#64, -1#64] = 5 - 2 ^ 64 ∧ signed [3#64, 1#64] = 3 + 2 ^ 64 := by
    decide +kernel
  obtain ⟨-, -, -, product, order⟩ := arithmetic_exact first second
  rw [numbers.1, numbers.2] at product order
  exact ⟨product, order⟩

end MorelloWorkloads.QuickJs
