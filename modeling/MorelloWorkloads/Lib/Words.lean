import Mathlib.Data.Int.ModEq
import Mathlib.Data.List.Basic
import Mathlib.Data.Nat.Digits.Defs
import Mathlib.Tactic.Linarith
import Mathlib.Tactic.LinearCombination
import Mathlib.Tactic.Ring

/-! Numbers in lists of machine words, the least significant word first: what a list is
worth without a sign and in two's complement, and the lists that are as short as they
can be. Every number has one of these. -/
namespace Words

variable {w : ℕ}

def value (l : List (BitVec w)) : ℕ := Nat.ofDigits (2 ^ w) (l.map BitVec.toNat)

@[simp] theorem value_nil : value ([] : List (BitVec w)) = 0 := rfl

@[simp] theorem value_cons (x : BitVec w) (l : List (BitVec w)) :
    value (x :: l) = x.toNat + 2 ^ w * value l := by
  rw [value, List.map_cons, Nat.ofDigits_cons, value]

theorem value_append (l k : List (BitVec w)) :
    value (l ++ k) = value l + (2 ^ w) ^ l.length * value k := by
  rw [value, List.map_append, Nat.ofDigits_append, List.length_map, value, value]

@[simp] theorem value_concat (l : List (BitVec w)) (x : BitVec w) :
    value (l ++ [x]) = value l + (2 ^ w) ^ l.length * x.toNat := by
  rw [value_append, value_cons, value_nil, mul_zero, add_zero]

theorem value_replicate_zero (n : ℕ) : value (List.replicate n 0#w) = 0 := by
  induction n with
  | zero => rfl
  | succ n ih => simp [List.replicate_succ, ih]

theorem value_lt (l : List (BitVec w)) : value l < (2 ^ w) ^ l.length := by
  induction l with
  | nil => exact Nat.one_pos
  | cons x l ih =>
    have small := x.isLt
    calc value (x :: l) = x.toNat + 2 ^ w * value l := value_cons x l
      _ < 2 ^ w + 2 ^ w * value l := by omega
      _ = 2 ^ w * (value l + 1) := by ring
      _ ≤ 2 ^ w * (2 ^ w) ^ l.length := Nat.mul_le_mul_left _ ih
      _ = (2 ^ w) ^ (x :: l).length := by rw [List.length_cons, pow_succ']

/-- Of two numbers with a digit below and a number above it, the one above decides first. -/
theorem digit_add_lt_iff {b x y m n : ℕ} (hx : x < b) (hy : y < b) :
    x + b * m < y + b * n ↔ m < n ∨ m = n ∧ x < y := by
  constructor
  · intro less
    rcases lt_trichotomy m n with below | same | above
    · exact Or.inl below
    · subst same
      exact Or.inr ⟨rfl, by omega⟩
    · have step : b * (n + 1) ≤ b * m := Nat.mul_le_mul_left b above
      rw [mul_add, mul_one] at step
      omega
  · rintro (below | ⟨rfl, less⟩)
    · have step : b * (m + 1) ≤ b * n := Nat.mul_le_mul_left b below
      rw [mul_add, mul_one] at step
      omega
    · omega

theorem value_inj {l k : List (BitVec w)} (same : l.length = k.length) (eq : value l = value k) :
    l = k := by
  induction l generalizing k with
  | nil => exact (List.length_eq_zero_iff.mp same.symm).symm
  | cons x l ih =>
    obtain ⟨y, k, rfl⟩ := List.exists_cons_of_length_eq_add_one same.symm
    simp only [value_cons] at eq
    have notless := mt (digit_add_lt_iff x.isLt y.isLt).mpr eq.not_lt
    have notmore := mt (digit_add_lt_iff y.isLt x.isLt).mpr eq.not_gt
    have high : value l = value k := by omega
    have low : x.toNat = y.toNat := by omega
    rw [BitVec.eq_of_toNat_eq low, ih (Nat.succ.inj same) high]

/-! ## Double words -/

def wide (x : BitVec w) : BitVec (w + w) := x.setWidth (w + w)

def low (t : BitVec (w + w)) : BitVec w := t.setWidth w

def high (t : BitVec (w + w)) : BitVec w := (t >>> w).setWidth w

/-- Two words side by side. -/
def join (upper lower : BitVec w) : BitVec (w + w) := (wide upper <<< w) ||| wide lower

theorem double_pow : 2 ^ (w + w) = 2 ^ w * 2 ^ w := pow_add 2 w w

@[simp] theorem toNat_wide (x : BitVec w) : (wide x).toNat = x.toNat :=
  BitVec.toNat_setWidth_of_le (Nat.le_add_right w w)

@[simp] theorem toNat_low (t : BitVec (w + w)) : (low t).toNat = t.toNat % 2 ^ w := BitVec.toNat_setWidth w t

@[simp] theorem toNat_high (t : BitVec (w + w)) : (high t).toNat = t.toNat / 2 ^ w := by
  have room : t.toNat / 2 ^ w < 2 ^ w := Nat.div_lt_of_lt_mul (double_pow ▸ t.isLt)
  rw [high, BitVec.toNat_setWidth, BitVec.toNat_ushiftRight, Nat.shiftRight_eq_div_pow,
    Nat.mod_eq_of_lt room]

theorem low_add_high (t : BitVec (w + w)) : (low t).toNat + 2 ^ w * (high t).toNat = t.toNat := by
  rw [toNat_low, toNat_high, Nat.mod_add_div]

@[simp] theorem toNat_join (upper lower : BitVec w) :
    (join upper lower).toNat = upper.toNat * 2 ^ w + lower.toNat := by
  have room : upper.toNat <<< w < 2 ^ (w + w) := by
    rw [Nat.shiftLeft_eq, double_pow]
    exact Nat.mul_lt_mul_of_pos_right upper.isLt (Nat.two_pow_pos w)
  rw [join, BitVec.toNat_or, BitVec.toNat_shiftLeft, toNat_wide, toNat_wide, Nat.mod_eq_of_lt room,
    ← Nat.shiftLeft_add_eq_or_of_lt lower.isLt, Nat.shiftLeft_eq]

/-- A product with a word added twice still has room. -/
theorem mul_add_lt {a b x y B : ℕ} (ha : a < B) (hb : b < B) (hx : x < B) (hy : y < B) :
    a * b + x + y < B * B := by
  obtain ⟨c, rfl⟩ := Nat.exists_eq_add_of_lt ha
  have product : a * b ≤ a * (a + c) := Nat.mul_le_mul_left a (by omega)
  nlinarith

theorem toNat_wide_mul (a b : BitVec w) : (wide a * wide b).toNat = a.toNat * b.toNat := by
  have room := mul_add_lt a.isLt b.isLt (Nat.two_pow_pos w) (Nat.two_pow_pos w)
  rw [BitVec.toNat_mul, toNat_wide, toNat_wide, Nat.mod_eq_of_lt (by rw [double_pow]; omega)]

/-! ## Two's complement -/

/-- The number a list stands for when the highest bit is the sign. -/
def signed (l : List (BitVec w)) : ℤ := Int.bmod (value l) ((2 ^ w) ^ l.length)

theorem signed_modEq (l : List (BitVec w)) : signed l ≡ value l [ZMOD ((2 ^ w) ^ l.length : ℕ)] :=
  Int.bmod_emod

theorem signed_range (l : List (BitVec w)) :
    -((2 ^ w) ^ l.length : ℕ) ≤ 2 * signed l ∧ 2 * signed l < ((2 ^ w) ^ l.length : ℕ) := by
  have positive : 0 < (2 ^ w) ^ l.length := (Nat.zero_le _).trans_lt (value_lt l)
  have low := @Int.le_bmod (value l) _ positive
  have high := @Int.bmod_lt (value l) _ positive
  rw [signed]
  omega

/-- A list stands for whatever number its value is congruent to and its length has room for. -/
theorem signed_eq {l : List (BitVec w)} {x : ℤ} (congr : value l ≡ x [ZMOD ((2 ^ w) ^ l.length : ℕ)])
    (low : -((2 ^ w) ^ l.length : ℕ) ≤ 2 * x) (high : 2 * x < ((2 ^ w) ^ l.length : ℕ)) :
    signed l = x := by
  have same : Int.bmod (value l) ((2 ^ w) ^ l.length) = Int.bmod x ((2 ^ w) ^ l.length) := by
    rw [← Int.emod_bmod, congr, Int.emod_bmod]
  rw [signed, same, Int.bmod_eq_of_le_mul_two]
  · linarith
  · linarith

theorem signed_inj {l k : List (BitVec w)} (same : l.length = k.length) (eq : signed l = signed k) :
    l = k := by
  have congr : (value l : ℤ) ≡ value k [ZMOD ((2 ^ w) ^ l.length : ℕ)] := by
    calc (value l : ℤ) ≡ signed l [ZMOD ((2 ^ w) ^ l.length : ℕ)] := (signed_modEq l).symm
      _ = signed k := eq
      _ ≡ value k [ZMOD ((2 ^ w) ^ l.length : ℕ)] := same ▸ signed_modEq k
  have close := Int.natCast_modEq_iff.mp congr
  exact value_inj same (close.eq_of_lt_of_lt (value_lt l) (same ▸ value_lt k))

/-- The list is the number without a sign, or falls short of it by one more word. -/
theorem signed_cases (l : List (BitVec w)) : (0 ≤ signed l ∧ signed l = value l) ∨
    (signed l < 0 ∧ signed l = value l - ((2 ^ w) ^ l.length : ℕ)) := by
  have room : (value l : ℤ) < ((2 ^ w) ^ l.length : ℕ) := by exact_mod_cast value_lt l
  have range := signed_range l
  have same : (value l : ℤ) % ((2 ^ w) ^ l.length : ℕ) = value l :=
    Int.emod_eq_of_lt (Int.natCast_nonneg _) room
  rw [signed, Int.bmod_eq_emod, same] at range ⊢
  split at range
  · refine Or.inr ⟨?_, by rw [if_pos ‹_›]⟩
    rw [if_pos ‹_›]
    omega
  · refine Or.inl ⟨?_, ?_⟩ <;> rw [if_neg ‹_›] <;> omega

/-- Whether the highest bit of the last word is set. -/
def negative (l : List (BitVec w)) : Bool := (l.getLast?.map BitVec.msb).getD false

theorem negative_concat (l : List (BitVec w)) (x : BitVec w) : negative (l ++ [x]) = x.msb := by
  rw [negative, List.getLast?_concat]
  rfl

/-- The word that goes on with the sign. -/
def extension (l : List (BitVec w)) : BitVec w := if negative l then BitVec.allOnes w else 0#w

/-- A list that is not empty and has no last word that only goes on with the sign. -/
def Normal (l : List (BitVec w)) : Prop :=
  l ≠ [] ∧ (l.dropLast = [] ∨ l ≠ l.dropLast ++ [extension l.dropLast])

instance (l : List (BitVec w)) : Decidable (Normal l) := inferInstanceAs (Decidable (_ ∧ _))

theorem normal_singleton (x : BitVec w) : Normal [x] := ⟨List.cons_ne_nil x [], Or.inl rfl⟩

theorem normal_concat {l : List (BitVec w)} {x : BitVec w} (some : l ≠ []) :
    Normal (l ++ [x]) ↔ x ≠ extension l := by
  simp [Normal, some]

variable [NeZero w]

theorem two_mul_half : 2 * 2 ^ (w - 1) = 2 ^ w := by
  rw [← pow_succ', Nat.sub_add_cancel (NeZero.one_le)]

theorem signed_concat (l : List (BitVec w)) (x : BitVec w) :
    signed (l ++ [x]) = value l + ((2 ^ w) ^ l.length : ℕ) * x.toInt := by
  have room : (value l : ℤ) < ((2 ^ w) ^ l.length : ℕ) := by exact_mod_cast value_lt l
  have half : 2 * 2 ^ (w - 1) = 2 ^ w := two_mul_half
  have length : (((2 ^ w) ^ (l ++ [x]).length : ℕ) : ℤ) = ((2 ^ w) ^ l.length : ℕ) * (2 ^ w : ℕ) := by
    rw [List.length_append, List.length_singleton, pow_succ, Nat.cast_mul]
  have digit : (x.toNat : ℤ) ≡ x.toInt [ZMOD (2 ^ w : ℕ)] := by
    rw [BitVec.toInt_eq_toNat_bmod]
    exact Int.bmod_emod.symm
  have congr : (value (l ++ [x]) : ℤ) ≡ value l + ((2 ^ w) ^ l.length : ℕ) * x.toInt
      [ZMOD ((2 ^ w) ^ (l ++ [x]).length : ℕ)] := by
    rw [length, value_concat, Nat.cast_add, Nat.cast_mul]
    exact digit.mul_left'.add_left _
  have low : -((2 ^ (w - 1) : ℕ) : ℤ) ≤ x.toInt := by exact_mod_cast BitVec.le_toInt x
  have high : x.toInt + 1 ≤ (2 ^ (w - 1) : ℕ) := by exact_mod_cast BitVec.toInt_lt
  have word : ((2 ^ w : ℕ) : ℤ) = 2 * (2 ^ (w - 1) : ℕ) := by rw [← half, Nat.cast_mul, Nat.cast_two]
  refine signed_eq congr ?_ ?_
  all_goals
    rw [length, word]
    generalize (2 ^ w) ^ l.length = P at room
    nlinarith

theorem negative_iff (l : List (BitVec w)) : negative l = true ↔ signed l < 0 := by
  rcases List.eq_nil_or_concat' l with rfl | ⟨l, x, rfl⟩
  · simp [negative, signed]
  · have room : (value l : ℤ) < ((2 ^ w) ^ l.length : ℕ) := by exact_mod_cast value_lt l
    rw [negative_concat, signed_concat, BitVec.msb_eq_toInt, decide_eq_true_iff]
    generalize (2 ^ w) ^ l.length = P at room
    constructor
    · intro below
      nlinarith
    · intro below
      by_contra above
      have whole : 0 ≤ (P : ℤ) * x.toInt := mul_nonneg (Int.natCast_nonneg P) (not_lt.mp above)
      linarith [Int.natCast_nonneg (value l)]

theorem signed_of_negative {l : List (BitVec w)} (neg : negative l = true) :
    signed l = value l - ((2 ^ w) ^ l.length : ℕ) := by
  have below := (negative_iff l).mp neg
  rcases signed_cases l with ⟨above, -⟩ | ⟨-, eq⟩
  · exact absurd below (not_lt.mpr above)
  · exact eq

theorem signed_of_nonneg {l : List (BitVec w)} (pos : negative l = false) : signed l = value l := by
  have above := mt (negative_iff l).mpr (Bool.eq_false_iff.mp pos)
  rcases signed_cases l with ⟨-, eq⟩ | ⟨below, -⟩
  · exact eq
  · exact absurd below above

@[simp] theorem toInt_extension (l : List (BitVec w)) :
    (extension l).toInt = if negative l then -1 else 0 := by
  rw [extension]
  split
  · rw [BitVec.toInt_allOnes, if_pos (NeZero.pos w)]
  · exact BitVec.toInt_zero

theorem signed_extend (l : List (BitVec w)) : signed (l ++ [extension l]) = signed l := by
  rw [signed_concat, toInt_extension]
  cases sign : negative l with
  | true =>
    rw [signed_of_negative sign, if_pos rfl]
    ring
  | false =>
    rw [signed_of_nonneg sign, if_neg Bool.false_ne_true]
    ring

/-! ## The shortest lists -/

/-- A shorter list has no room for what a normal list stands for. -/
theorem Normal.large {l : List (BitVec w)} {x : BitVec w} (normal : Normal (l ++ [x])) (some : l ≠ []) :
    2 * signed (l ++ [x]) < -((2 ^ w) ^ l.length : ℕ) ∨
      ((2 ^ w) ^ l.length : ℕ) ≤ 2 * signed (l ++ [x]) := by
  by_contra small
  rw [not_or, not_lt, not_le] at small
  have congr : (value l : ℤ) ≡ signed (l ++ [x]) [ZMOD ((2 ^ w) ^ l.length : ℕ)] := by
    rw [signed_concat]
    exact (Int.add_mul_emod_self_left _ _ _).symm
  have shorter : signed l = signed (l ++ [x]) := signed_eq congr small.1 small.2
  have same : l ++ [x] = l ++ [extension l] :=
    signed_inj (by simp) (shorter.symm.trans (signed_extend l).symm)
  exact (normal_concat some).mp normal (List.singleton_inj.mp (List.append_cancel_left same))

/-- There is one normal list for a number. -/
theorem Normal.unique {l k : List (BitVec w)} (hl : Normal l) (hk : Normal k)
    (eq : signed l = signed k) : l = k := by
  wlog shorter : l.length ≤ k.length generalizing l k
  · exact (this hk hl eq.symm (not_le.mp shorter).le).symm
  rcases shorter.eq_or_lt with same | less
  · exact signed_inj same eq
  · obtain ⟨k, x, rfl⟩ := (List.eq_nil_or_concat' k).resolve_left hk.1
    have fits : l.length ≤ k.length := by
      rw [List.length_append, List.length_singleton] at less
      exact Nat.lt_succ_iff.mp less
    have some : k ≠ [] := List.ne_nil_of_length_pos
      ((List.length_pos_of_ne_nil hl.1).trans_le fits)
    have room : (((2 ^ w) ^ l.length : ℕ) : ℤ) ≤ ((2 ^ w) ^ k.length : ℕ) := by
      exact_mod_cast Nat.pow_le_pow_right (Nat.two_pow_pos w) fits
    have range := signed_range l
    have large := hk.large some
    omega

/-! ## Longer and complemented lists -/

/-- There is one number more below zero than above. -/
theorem signed_lt {l : List (BitVec w)} (some : l ≠ []) :
    2 * signed l + 2 ≤ ((2 ^ w) ^ l.length : ℕ) := by
  obtain ⟨l, x, rfl⟩ := (List.eq_nil_or_concat' l).resolve_left some
  have high := (signed_range (l ++ [x])).2
  have even : (2 ^ w) ^ (l ++ [x]).length = 2 * ((2 ^ w) ^ l.length * 2 ^ (w - 1)) := by
    rw [List.length_append, List.length_singleton, pow_succ]
    nth_rewrite 2 [← two_mul_half]
    ring
  rw [even] at high ⊢
  omega

omit [NeZero w] in
theorem signed_bounds {l : List (BitVec w)} {n : ℕ} (room : l.length ≤ n) :
    -((2 ^ w) ^ n : ℕ) ≤ 2 * signed l ∧ 2 * signed l < ((2 ^ w) ^ n : ℕ) := by
  have range := signed_range l
  have larger : (((2 ^ w) ^ l.length : ℕ) : ℤ) ≤ ((2 ^ w) ^ n : ℕ) := by
    exact_mod_cast Nat.pow_le_pow_right (Nat.two_pow_pos w) room
  omega

theorem extension_extend (l : List (BitVec w)) : extension (l ++ [extension l]) = extension l := by
  have sign : negative (l ++ [extension l]) = negative l := by
    rw [Bool.eq_iff_iff, negative_iff, negative_iff, signed_extend]
  rw [extension, sign, ← extension]

theorem extend_replicate (l : List (BitVec w)) (n : ℕ) :
    signed (l ++ List.replicate n (extension l)) = signed l ∧
      extension (l ++ List.replicate n (extension l)) = extension l := by
  induction n generalizing l with
  | zero => simp
  | succ n ih =>
    obtain ⟨number, sign⟩ := ih (l ++ [extension l])
    have parts : l ++ List.replicate (n + 1) (extension l) =
        l ++ [extension l] ++ List.replicate n (extension (l ++ [extension l])) := by
      rw [extension_extend, List.replicate_succ, List.append_assoc, List.singleton_append]
    rw [parts, number, sign, signed_extend, extension_extend]
    exact ⟨rfl, rfl⟩

omit [NeZero w] in
theorem value_not (l : List (BitVec w)) : value (l.map (~~~·)) + value l + 1 = (2 ^ w) ^ l.length := by
  induction l with
  | nil => rfl
  | cons x l ih =>
    have digit : (~~~x).toNat + x.toNat + 1 = 2 ^ w := by
      have small := x.isLt
      rw [BitVec.toNat_not]
      omega
    rw [List.map_cons, value_cons, value_cons, List.length_cons, pow_succ']
    linear_combination digit + 2 ^ w * ih

theorem signed_not {l : List (BitVec w)} (some : l ≠ []) : signed (l.map (~~~·)) = -1 - signed l := by
  have total : (value (l.map (~~~·)) : ℤ) = ((2 ^ w) ^ l.length : ℕ) + (-1 - value l) := by
    have sum : (value (l.map (~~~·)) : ℤ) + value l + 1 = ((2 ^ w) ^ l.length : ℕ) := by
      exact_mod_cast value_not l
    linarith
  have low := (signed_range l).1
  have high := signed_lt some
  refine signed_eq ?_ ?_ ?_
  · rw [List.length_map, total]
    exact Int.add_modEq_left.trans ((signed_modEq l).symm.sub_left (-1))
  · rw [List.length_map]
    omega
  · rw [List.length_map]
    omega

end Words
