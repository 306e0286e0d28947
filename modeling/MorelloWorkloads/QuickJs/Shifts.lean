import MorelloWorkloads.QuickJs.Arithmetic

/-! Shifts of integers of any size: to the left by a power of two, to the right by the
quotient rounded down. -/
namespace MorelloWorkloads.QuickJs

open Words

variable {w : ℕ}

def jsBigintShl (a : List (BitVec w)) (shift1 : ℕ) : Except String (List (BitVec w)) :=
  if a = [0#w] then return [0#w] else do
    let d := shift1 / w
    let shift := shift1 % w
    jsBigintNew w (a.length + d)
    if shift = 0 then return List.replicate d 0#w ++ a
    else
      let out := mpShl shift a 0#w
      let l := if jsBigintSign a ≠ 0#w then out.2 ||| ((-1#w) <<< shift) else out.2
      return jsBigintExtend (List.replicate d 0#w ++ out.1) l

def jsBigintShr (a : List (BitVec w)) (shift1 : ℕ) : Except String (List (BitVec w)) :=
  let d := shift1 / w
  let shift := shift1 % w
  let aSign := jsBigintSign a
  if d ≥ a.length then return [-aSign] else do
    jsBigintNew w (a.length - d)
    if shift = 0 then return a.drop d
    else return jsBigintNormalize (mpShr (a.drop d) shift (-aSign))

variable [NeZero w]

/-- Limbs below count for the power of the base. -/
theorem signed_append (l : List (BitVec w)) {k : List (BitVec w)} (some : k ≠ []) :
    signed (l ++ k) = value l + ((2 ^ w) ^ l.length : ℕ) * signed k := by
  obtain ⟨k, x, rfl⟩ := (List.eq_nil_or_concat' k).resolve_left some
  rw [← List.append_assoc, signed_concat, signed_concat, value_append, List.length_append, pow_add]
  push_cast
  ring

omit [NeZero w] in
theorem negative_append (l : List (BitVec w)) {k : List (BitVec w)} (some : k ≠ []) :
    negative (l ++ k) = negative k := by
  obtain ⟨k, x, rfl⟩ := (List.eq_nil_or_concat' k).resolve_left some
  rw [← List.append_assoc, negative_concat, negative_concat]

omit [NeZero w] in
theorem extension_append (l : List (BitVec w)) {k : List (BitVec w)} (some : k ≠ []) :
    extension (l ++ k) = extension k := by
  rw [extension, negative_append l some, ← extension]

omit [NeZero w] in
/-- The high limbs of a normal number are normal. -/
theorem normal_high {l k : List (BitVec w)} (normal : Normal (l ++ k)) (some : k ≠ []) : Normal k := by
  obtain ⟨k, x, rfl⟩ := (List.eq_nil_or_concat' k).resolve_left some
  by_cases front : k = []
  · rw [front]
    exact normal_singleton x
  · rw [← List.append_assoc, normal_concat (List.append_ne_nil_of_right_ne_nil l front),
      extension_append l front] at normal
    exact (normal_concat front).mpr normal

omit [NeZero w] in
/-- Zeros below a number other than zero leave it normal. -/
theorem normal_zeros {a : List (BitVec w)} (normal : Normal a) (nonzero : a ≠ [0#w]) (d : ℕ) :
    Normal (List.replicate d 0#w ++ a) := by
  obtain ⟨l, x, rfl⟩ := (List.eq_nil_or_concat' a).resolve_left normal.1
  rw [← List.append_assoc]
  by_cases front : l = []
  · subst front
    rw [List.append_nil]
    by_cases none : d = 0
    · rw [none]
      exact normal_singleton x
    · obtain ⟨n, rfl⟩ := Nat.exists_eq_add_one_of_ne_zero none
      rw [normal_concat (by simp), List.replicate_succ', extension, negative_concat]
      simp only [BitVec.msb_zero, Bool.false_eq_true, if_false]
      rintro rfl
      exact nonzero rfl
  · rw [normal_concat (List.append_ne_nil_of_right_ne_nil _ front), extension_append _ front]
    exact (normal_concat front).mp normal

theorem signed_zeros {k : List (BitVec w)} (some : k ≠ []) (d : ℕ) :
    signed (List.replicate d 0#w ++ k) = signed k * ((2 ^ w) ^ d : ℕ) := by
  rw [signed_append _ some, value_replicate_zero, List.length_replicate]
  push_cast
  ring

omit [NeZero w] in
theorem toNat_ones_shl {shift : ℕ} (small : shift ≤ w) :
    ((-1#w) <<< shift).toNat = (2 ^ (w - shift) - 1) <<< shift := by
  have whole := pow_sub_mul_pow_shift small
  have one : 1 ≤ 2 ^ shift := Nat.one_le_two_pow
  have room : (2 ^ (w - shift) - 1) * 2 ^ shift < 2 ^ w := by
    rw [← whole]
    exact Nat.mul_lt_mul_of_pos_right (Nat.sub_lt (Nat.two_pow_pos _) Nat.one_pos) (Nat.two_pow_pos _)
  have product : (2 ^ w - 1) * 2 ^ shift = (2 ^ (w - shift) - 1) * 2 ^ shift + 2 ^ w * (2 ^ shift - 1) := by
    have first : (2 ^ (w - shift) - 1) * 2 ^ shift + 2 ^ shift = 2 ^ w := by
      rw [← Nat.succ_mul, Nat.succ_eq_add_one, Nat.sub_add_cancel Nat.one_le_two_pow, whole]
    have second : 2 ^ w * (2 ^ shift - 1) + 2 ^ w = 2 ^ w * 2 ^ shift := by
      rw [← Nat.mul_succ, Nat.succ_eq_add_one, Nat.sub_add_cancel one]
    have third : (2 ^ w - 1) * 2 ^ shift + 2 ^ shift = 2 ^ w * 2 ^ shift := by
      rw [← Nat.succ_mul, Nat.succ_eq_add_one, Nat.sub_add_cancel Nat.one_le_two_pow]
    omega
  rw [BitVec.toNat_shiftLeft, BitVec.neg_one_eq_allOnes, BitVec.toNat_allOnes, Nat.shiftLeft_eq,
    Nat.shiftLeft_eq, product, Nat.add_mul_mod_self_left, Nat.mod_eq_of_lt room]

omit [NeZero w] in
/-- The limb above a number that has been shifted to the left goes on with its sign. -/
theorem shl_top {shift : ℕ} (small : shift < w) {l : BitVec w} (room : l.toNat < 2 ^ shift) (neg : Prop)
    [Decidable neg] : (if neg then l ||| ((-1#w) <<< shift) else l).toInt =
      if neg then (l.toNat : ℤ) - (2 ^ shift : ℕ) else l.toNat := by
  have half : 2 * 2 ^ shift ≤ 2 ^ w := by
    rw [← pow_succ']
    exact Nat.pow_le_pow_right (Nat.succ_pos 1) small
  split
  · have whole := pow_sub_mul_pow_shift small.le
    have ones : (l ||| ((-1#w) <<< shift)).toNat = (2 ^ (w - shift) - 1) * 2 ^ shift + l.toNat := by
      rw [BitVec.toNat_or, toNat_ones_shl small.le, Nat.or_comm, ← Nat.shiftLeft_add_eq_or_of_lt room,
        Nat.shiftLeft_eq]
    have first : (2 ^ (w - shift) - 1) * 2 ^ shift + 2 ^ shift = 2 ^ w := by
      rw [← Nat.succ_mul, Nat.succ_eq_add_one, Nat.sub_add_cancel Nat.one_le_two_pow, whole]
    rw [BitVec.toInt_eq_toNat_cond, ones, if_neg (by omega)]
    have first : (((2 ^ (w - shift) - 1) * 2 ^ shift : ℕ) : ℤ) + (2 ^ shift : ℕ) = (2 ^ w : ℕ) := by
      exact_mod_cast first
    rw [Nat.cast_add]
    linarith
  · rw [BitVec.toInt_eq_toNat_cond, if_pos (by omega)]

theorem jsBigintShl_exact {a : List (BitVec w)} (ha : Normal a) (n : ℕ) :
    Computes (jsBigintShl a n) (if signed a = 0 then 0 else a.length + n / w) (signed a * 2 ^ n) := by
  have zero := eq_zero_iff ha
  by_cases none : signed a = 0
  · rw [if_pos none, none, zero_mul, Computes, if_neg (Nat.not_lt_zero _), jsBigintShl,
      if_pos (zero.mpr none)]
    exact ⟨[0#w], rfl, normal_singleton _, (eq_zero_iff (normal_singleton _)).mp rfl⟩
  · have parts : (2 : ℤ) ^ n = ((2 ^ w) ^ (n / w) : ℕ) * (2 ^ (n % w) : ℕ) := by
      have exponent : n = w * (n / w) + n % w := (Nat.div_add_mod n w).symm
      rw [← Nat.cast_mul, ← pow_mul, ← pow_add, ← exponent]
      push_cast
      rfl
    rw [if_neg none]
    refine computes_of_new (by rw [jsBigintShl, if_neg (mt zero.mp none)]) ?_
    by_cases whole : n % w = 0
    · refine ⟨_, by rw [if_pos whole]; rfl, normal_zeros ha (mt zero.mp none) (n / w), ?_⟩
      rw [signed_zeros ha.1, parts, whole, pow_zero, Nat.cast_one, mul_one]
    · have small : n % w < w := Nat.mod_lt n (NeZero.pos w)
      have clear : (0#w).toNat < 2 ^ (n % w) := BitVec.toNat_zero.trans_lt (Nat.two_pow_pos _)
      obtain ⟨length, room, eq⟩ := mpShl_eq small.le a clear
      have front : List.replicate (n / w) 0#w ++ (mpShl (n % w) a 0#w).1 ≠ [] :=
        List.append_ne_nil_of_right_ne_nil _ (List.ne_nil_of_length_pos
          (length ▸ List.length_pos_of_ne_nil ha.1))
      obtain ⟨normal, same⟩ := extend_eq front (if jsBigintSign a ≠ 0#w then
        (mpShl (n % w) a 0#w).2 ||| ((-1#w) <<< (n % w)) else (mpShl (n % w) a 0#w).2)
      refine ⟨_, by rw [if_neg whole]; rfl, normal, same.trans ?_⟩
      rw [List.append_assoc, signed_zeros (List.append_ne_nil_of_right_ne_nil _ (List.cons_ne_nil _ [])),
        signed_concat, shl_top small room, length, parts]
      rw [BitVec.toNat_zero, add_zero] at eq
      have eq : (value (mpShl (n % w) a 0#w).1 : ℤ) + ((2 ^ w) ^ a.length : ℕ) *
          (mpShl (n % w) a 0#w).2.toNat = value a * (2 ^ (n % w) : ℕ) := by exact_mod_cast eq
      have sign := sign_ne_zero ha.1
      by_cases neg : negative a = true
      · rw [if_pos (sign.mpr neg), signed_of_negative neg]
        linear_combination ((2 ^ w) ^ (n / w) : ℕ) * eq
      · rw [if_neg (mt sign.mp neg), signed_of_nonneg (Bool.eq_false_iff.mpr neg)]
        linear_combination ((2 ^ w) ^ (n / w) : ℕ) * eq

/-- A quotient rounded down is no further from zero. -/
theorem ediv_bounds {x S P : ℤ} (positive : 1 ≤ S) (low : -P ≤ 2 * x) (high : 2 * x < P) :
    -P ≤ 2 * (x / S) ∧ 2 * (x / S) < P := by
  rcases lt_or_ge x 0 with neg | pos
  · have above : x ≤ x / S := (Int.le_ediv_iff_mul_le (by omega)).mpr (by nlinarith)
    have below : x / S < 0 := Int.ediv_neg_of_neg_of_pos neg (by omega)
    omega
  · have above : 0 ≤ x / S := Int.ediv_nonneg pos (by omega)
    have below : x / S ≤ x := Int.ediv_le_self S pos
    omega

theorem signed_shr {shift : ℕ} (small : shift ≤ w) (a : List (BitVec w)) :
    signed (mpShr a shift (extension a)) = signed a / (2 ^ shift : ℕ) := by
  obtain ⟨length, eq⟩ := shrLoop_eq small a (extension a)
  have lost : (shrLoop shift a (extension a)).2.toNat % 2 ^ shift < 2 ^ shift :=
    Nat.mod_lt _ (Nat.two_pow_pos _)
  have eq : ((2 ^ shift : ℕ) : ℤ) * value (mpShr a shift (extension a)) +
      ((shrLoop shift a (extension a)).2.toNat % 2 ^ shift : ℕ) =
        value a + ((2 ^ w) ^ a.length : ℕ) * ((extension a).toNat % 2 ^ shift : ℕ) := by exact_mod_cast eq
  generalize (shrLoop shift a (extension a)).2.toNat % 2 ^ shift = low at eq lost
  -- how often the power of the base is too much
  obtain ⟨k, whole⟩ : ∃ k : ℤ, signed a = (2 ^ shift : ℕ) *
      (value (mpShr a shift (extension a)) + ((2 ^ w) ^ a.length : ℕ) * k) + low := by
    cases sign : negative a with
    | true =>
      have ones : (extension a).toNat % 2 ^ shift = 2 ^ shift - 1 := by
        rw [extension, if_pos sign, BitVec.toNat_allOnes]
        have power := pow_sub_mul_pow_shift small
        have split : 2 ^ w - 1 = (2 ^ shift - 1) + 2 ^ shift * (2 ^ (w - shift) - 1) := by
          have one : 2 ^ shift * (2 ^ (w - shift) - 1) + 2 ^ shift = 2 ^ w := by
            rw [← Nat.mul_succ, Nat.succ_eq_add_one, Nat.sub_add_cancel Nat.one_le_two_pow, mul_comm, power]
          have positive := Nat.two_pow_pos shift
          omega
        rw [split, Nat.add_mul_mod_self_left, Nat.mod_eq_of_lt (Nat.sub_lt (Nat.two_pow_pos _) Nat.one_pos)]
      have ones : (((extension a).toNat % 2 ^ shift : ℕ) : ℤ) = (2 ^ shift : ℕ) - 1 := by
        rw [ones, Nat.cast_sub Nat.one_le_two_pow, Nat.cast_one]
      refine ⟨-1, ?_⟩
      rw [ones] at eq
      rw [signed_of_negative sign]
      linear_combination -eq
    | false =>
      have none : (extension a).toNat % 2 ^ shift = 0 := by
        rw [extension, if_neg (by rw [sign]; exact Bool.false_ne_true), BitVec.toNat_zero, Nat.zero_mod]
      refine ⟨0, ?_⟩
      rw [none, Nat.cast_zero, mul_zero, add_zero] at eq
      rw [signed_of_nonneg sign]
      linear_combination -eq
  have positive : (1 : ℤ) ≤ (2 ^ shift : ℕ) := by exact_mod_cast Nat.one_le_two_pow
  have quotient : signed a / (2 ^ shift : ℕ) =
      value (mpShr a shift (extension a)) + ((2 ^ w) ^ a.length : ℕ) * k := by
    refine (Int.ediv_eq_iff_of_pos (by omega)).mpr ⟨?_, ?_⟩
    · rw [whole]
      linarith [Int.natCast_nonneg low]
    · have lost : (low : ℤ) < (2 ^ shift : ℕ) := by exact_mod_cast lost
      rw [whole]
      linarith
  have range := signed_range a
  obtain ⟨below, above⟩ := ediv_bounds positive range.1 range.2
  have count : (mpShr a shift (extension a)).length = a.length := length
  refine signed_eq ?_ ?_ ?_
  · rw [count, quotient]
    exact (Int.add_mul_emod_self_left _ _ _).symm
  · rw [count]
    exact below
  · rw [count]
    exact above

/-- Whole limbs that are shifted out divide by the power of the base. -/
theorem signed_drop {a : List (BitVec w)} {k : ℕ} (some : k < a.length) :
    signed a / ((2 ^ w) ^ k : ℕ) = signed (a.drop k) ∧ extension a = extension (a.drop k) := by
  have rest : a.drop k ≠ [] := by
    refine List.ne_nil_of_length_pos ?_
    rw [List.length_drop]
    omega
  have split := List.take_append_drop k a
  have count : (a.take k).length = k := by
    rw [List.length_take]
    omega
  constructor
  · have room := value_lt (a.take k)
    rw [count] at room
    have room : (value (a.take k) : ℤ) < ((2 ^ w) ^ k : ℕ) := by exact_mod_cast room
    have whole := signed_append (a.take k) rest
    rw [split, count] at whole
    rw [whole, Int.add_mul_ediv_left _ _ (by positivity),
      Int.ediv_eq_zero_of_lt (Int.natCast_nonneg _) room, zero_add]
  · rw [← extension_append (a.take k) rest, split]

theorem signed_singleton (x : BitVec w) : signed [x] = x.toInt := by
  have single := signed_concat [] x
  rwa [List.nil_append, value_nil, Nat.cast_zero, zero_add, List.length_nil, pow_zero, Nat.cast_one,
    one_mul] at single

/-- A distance past the last limb leaves the sign alone. -/
theorem signed_sign {a : List (BitVec w)} {m : ℤ} (positive : 0 < m)
    (large : ((2 ^ w) ^ a.length : ℕ) ≤ m) : signed [extension a] = signed a / m := by
  have range := signed_range a
  rw [signed_singleton, toInt_extension]
  cases sign : negative a with
  | true =>
    have below := (negative_iff a).mp sign
    rw [if_pos rfl]
    exact ((Int.ediv_eq_iff_of_pos positive).mpr ⟨by linarith, by linarith⟩).symm
  | false =>
    have above := mt (negative_iff a).mpr (Bool.eq_false_iff.mp sign)
    rw [if_neg Bool.false_ne_true]
    exact (Int.ediv_eq_zero_of_lt (not_lt.mp above) (by linarith)).symm

theorem jsBigintShr_exact {a : List (BitVec w)} (ha : Normal a) (n : ℕ) :
    Computes (jsBigintShr a n) (a.length - n / w) (signed a / 2 ^ n) := by
  have parts : (2 : ℤ) ^ n = ((2 ^ w) ^ (n / w) : ℕ) * (2 ^ (n % w) : ℕ) := by
    have exponent : n = w * (n / w) + n % w := (Nat.div_add_mod n w).symm
    rw [← Nat.cast_mul, ← pow_mul, ← pow_add, ← exponent]
    push_cast
    rfl
  by_cases all : n / w ≥ a.length
  · have larger : (((2 ^ w) ^ a.length : ℕ) : ℤ) ≤ 2 ^ n := by
      have limbs : (2 ^ w) ^ a.length ≤ (2 ^ w) ^ (n / w) := Nat.pow_le_pow_right (Nat.two_pow_pos w) all
      rw [parts]
      exact (by exact_mod_cast limbs : (((2 ^ w) ^ a.length : ℕ) : ℤ) ≤ ((2 ^ w) ^ (n / w) : ℕ)).trans
        (le_mul_of_one_le_right (Int.natCast_nonneg _) (by exact_mod_cast Nat.one_le_two_pow))
    rw [Computes, if_neg (by omega), jsBigintShr, if_pos all, neg_sign ha.1]
    exact ⟨_, rfl, normal_singleton _, signed_sign (by positivity) larger⟩
  · have less : n / w < a.length := not_le.mp all
    obtain ⟨number, sign⟩ := signed_drop less
    have some : a.drop (n / w) ≠ [] := by
      refine List.ne_nil_of_length_pos ?_
      rw [List.length_drop]
      omega
    refine computes_of_new (by rw [jsBigintShr, if_neg all]) ?_
    -- whole limbs first
    rw [parts, ← Int.ediv_ediv_of_nonneg (Int.natCast_nonneg _), number]
    by_cases none : n % w = 0
    · have normal : Normal (a.drop (n / w)) :=
        normal_high ((List.take_append_drop (n / w) a).symm ▸ ha) some
      refine ⟨_, by rw [if_pos none]; rfl, normal, ?_⟩
      rw [none, pow_zero, Nat.cast_one, Int.ediv_one]
    · have small : n % w ≤ w := (Nat.mod_lt n (NeZero.pos w)).le
      have result := signed_shr small (a.drop (n / w))
      have front : mpShr (a.drop (n / w)) (n % w) (extension a) ≠ [] := by
        refine List.ne_nil_of_length_pos ?_
        rw [mpShr, (shrLoop_eq small _ _).1]
        exact List.length_pos_of_ne_nil some
      obtain ⟨normal, same⟩ := normalize_eq front
      refine ⟨_, by rw [if_neg none, neg_sign ha.1]; rfl, normal, same.trans ?_⟩
      rw [sign, result]

/-- A shift to the left multiplies by a power of two, one to the right divides by it and
rounds down, for a number of any length and any distance. -/
theorem shifts_exact {a : List (BitVec w)} (ha : Normal a) (n : ℕ) :
    Computes (jsBigintShl a n) (if signed a = 0 then 0 else a.length + n / w)
        (signed a * 2 ^ n) ∧
      Computes (jsBigintShr a n) (a.length - n / w) (signed a / 2 ^ n) :=
  ⟨jsBigintShl_exact ha n, jsBigintShr_exact ha n⟩

theorem shifts_exact_limbs :
    Computes (jsBigintShl [5#64, -1#64] 3) 2 ((5 - 2 ^ 64) * 2 ^ 3) ∧
      Computes (jsBigintShr [5#64, -1#64] 3) 2 ((5 - 2 ^ 64) / 2 ^ 3) := by
  have normal : Normal [5#64, -1#64] := by decide +kernel
  have number : signed [5#64, -1#64] = 5 - 2 ^ 64 := by decide +kernel
  have different : ((5 : ℤ) - 2 ^ 64) ≠ 0 := by norm_num
  obtain ⟨left, right⟩ := shifts_exact normal 3
  rw [number, if_neg different] at left
  rw [number] at right
  exact ⟨left, right⟩

end MorelloWorkloads.QuickJs
