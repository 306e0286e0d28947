import MorelloWorkloads.Lib.QuotientDigits
import MorelloWorkloads.Lib.Words

/-! The loops over limbs. The limbs of a number come as a list, the least significant one
first, with as many elements as the loop has passes; `w` is `JS_LIMB_BITS`. -/
namespace MorelloWorkloads.QuickJs

open Words

variable {w : ℕ}

/-- What a comparison is worth in C. -/
def flag (p : Prop) [Decidable p] : BitVec w := if p then 1#w else 0#w

/-- `ADDC`: the sum and the carry. -/
def addc (op1 op2 carry : BitVec w) : BitVec w × BitVec w :=
  let a := op1 + op2
  let sum := a + carry
  (sum, flag (sum < carry) ||| flag (a < op1))

def mpAdd : List (BitVec w) → List (BitVec w) → BitVec w → List (BitVec w) × BitVec w
  | x :: op1, y :: op2, carry =>
      let sum := addc x y carry
      let rest := mpAdd op1 op2 sum.2
      (sum.1 :: rest.1, rest.2)
  | _, _, carry => ([], carry)

/-- A pass of `mp_sub`: the difference and the borrow. -/
def subc (op1 op2 k : BitVec w) : BitVec w × BitVec w :=
  let a := op1 - op2
  let v := a - k
  (v, flag (v > a) ||| flag (a > op1))

def mpSub : List (BitVec w) → List (BitVec w) → BitVec w → List (BitVec w) × BitVec w
  | x :: op1, y :: op2, k =>
      let difference := subc x y k
      let rest := mpSub op1 op2 difference.2
      (difference.1 :: rest.1, rest.2)
  | _, _, k => ([], k)

/-- The loop of `mp_neg`. -/
def negLoop : List (BitVec w) → BitVec w → List (BitVec w) × BitVec w
  | x :: op2, carry =>
      let v := ~~~x + carry
      let rest := negLoop op2 (flag (v < carry))
      (v :: rest.1, rest.2)
  | [], carry => ([], carry)

def mpNeg (op2 : List (BitVec w)) : List (BitVec w) := (negLoop op2 1).1

def mpSubMul1 : List (BitVec w) → List (BitVec w) → BitVec w → BitVec w → List (BitVec w) × BitVec w
  | x :: tabr, y :: taba, b, l =>
      let t := wide x - wide y * wide b - wide l
      let rest := mpSubMul1 tabr taba b (-high t)
      (low t :: rest.1, rest.2)
  | _, _, _, l => ([], l)

def mpMul1 : List (BitVec w) → BitVec w → BitVec w → List (BitVec w) × BitVec w
  | x :: taba, b, l =>
      let t := wide x * wide b + wide l
      let rest := mpMul1 taba b (high t)
      (low t :: rest.1, rest.2)
  | [], _, l => ([], l)

def mpAddMul1 : List (BitVec w) → List (BitVec w) → BitVec w → BitVec w → List (BitVec w) × BitVec w
  | x :: tabr, y :: taba, b, l =>
      let t := wide y * wide b + wide l + wide x
      let rest := mpAddMul1 tabr taba b (high t)
      (low t :: rest.1, rest.2)
  | _, _, _, l => ([], l)

/-- The rows of `mp_mul_basecase` after the first one. The list is what stands from
`result + i` on; its first limb is final after the row. -/
def mulRows (op1 : List (BitVec w)) : List (BitVec w) → List (BitVec w) → List (BitVec w)
  | y :: op2, result =>
      let r := mpAddMul1 result op1 y 0#w
      let row := r.1 ++ [r.2]
      row.take 1 ++ mulRows op1 op2 (row.drop 1)
  | [], result => result

def mpMulBasecase (op1 : List (BitVec w)) : List (BitVec w) → List (BitVec w)
  | y :: op2 =>
      let r := mpMul1 op1 y 0#w
      let row := r.1 ++ [r.2]
      row.take 1 ++ mulRows op1 op2 (row.drop 1)
  | [] => []

/-- The loop of `mp_shl`, with the bits that are shifted out of the limb below. -/
def mpShl (shift : ℕ) : List (BitVec w) → BitVec w → List (BitVec w) × BitVec w
  | v :: taba, l =>
      let rest := mpShl shift taba (v >>> (w - shift))
      (((v <<< shift) ||| l) :: rest.1, rest.2)
  | [], l => ([], l)

/-- The loop of `mp_shr` from the last limb down, with the limb above. -/
def shrLoop (shift : ℕ) : List (BitVec w) → BitVec w → List (BitVec w) × BitVec w
  | a :: tab, high =>
      let above := shrLoop shift tab high
      (((a >>> shift) ||| (above.2 <<< (w - shift))) :: above.1, a)
  | [], high => ([], high)

/-- The quotient of `mp_shr`; the remainder is not used by its callers. -/
def mpShr (tab : List (BitVec w)) (shift : ℕ) (high : BitVec w) : List (BitVec w) :=
  (shrLoop shift tab high).1

variable [NeZero w]

theorem toNat_flag (p : Prop) [Decidable p] : (flag p : BitVec w).toNat = if p then 1 else 0 := by
  rw [flag]
  split
  · exact BitVec.toNat_one (NeZero.pos w)
  · exact BitVec.toNat_zero

theorem toNat_flag_or (p q : Prop) [Decidable p] [Decidable q] :
    (flag p ||| flag q : BitVec w).toNat = if p ∨ q then 1 else 0 := by
  rw [BitVec.toNat_or, toNat_flag, toNat_flag]
  by_cases hp : p <;> by_cases hq : q <;> simp [hp, hq]

omit [NeZero w] in
/-- A sum of two words is what it should be or short of it by the base. -/
theorem toNat_add_cases (x y : BitVec w) :
    ((x + y).toNat = x.toNat + y.toNat ∧ x.toNat + y.toNat < 2 ^ w) ∨
      ((x + y).toNat + 2 ^ w = x.toNat + y.toNat ∧ 2 ^ w ≤ x.toNat + y.toNat) := by
  have hx := x.isLt
  have hy := y.isLt
  rw [BitVec.toNat_add]
  by_cases room : x.toNat + y.toNat < 2 ^ w
  · exact Or.inl ⟨Nat.mod_eq_of_lt room, room⟩
  · refine Or.inr ⟨?_, not_lt.mp room⟩
    rw [Nat.mod_eq_sub_mod (not_lt.mp room), Nat.mod_eq_of_lt (by omega)]
    omega

omit [NeZero w] in
theorem toNat_sub_cases (x y : BitVec w) :
    ((x - y).toNat + y.toNat = x.toNat ∧ y.toNat ≤ x.toNat) ∨
      ((x - y).toNat + y.toNat = x.toNat + 2 ^ w ∧ x.toNat < y.toNat) := by
  have back := toNat_add_cases (x - y) y
  rw [BitVec.sub_add_cancel] at back
  have hx := x.isLt
  have hxy := (x - y).isLt
  omega

theorem addc_eq (op1 op2 : BitVec w) {carry : BitVec w} (bit : carry.toNat ≤ 1) :
    (addc op1 op2 carry).1.toNat + 2 ^ w * (addc op1 op2 carry).2.toNat =
      op1.toNat + op2.toNat + carry.toNat ∧ (addc op1 op2 carry).2.toNat ≤ 1 := by
  have front := toNat_add_cases op1 op2
  have back := toNat_add_cases (op1 + op2) carry
  have h1 := op1.isLt
  have h2 := op2.isLt
  simp only [addc, toNat_flag_or, BitVec.lt_def]
  split <;> omega

/-- The sum of numbers of one length, together with the carry. -/
theorem mpAdd_eq {op1 op2 : List (BitVec w)} (same : op1.length = op2.length) {carry : BitVec w}
    (bit : carry.toNat ≤ 1) :
    (mpAdd op1 op2 carry).1.length = op1.length ∧ (mpAdd op1 op2 carry).2.toNat ≤ 1 ∧
    value (mpAdd op1 op2 carry).1 + (2 ^ w) ^ op1.length * (mpAdd op1 op2 carry).2.toNat =
      value op1 + value op2 + carry.toNat := by
  induction op1 generalizing op2 carry with
  | nil =>
    obtain rfl := List.length_eq_zero_iff.mp same.symm
    simp [mpAdd, bit]
  | cons x op1 ih =>
    obtain ⟨y, op2, rfl⟩ := List.exists_cons_of_length_eq_add_one same.symm
    obtain ⟨sum, next⟩ := addc_eq x y bit
    obtain ⟨length, last, rest⟩ := ih (Nat.succ.inj same) next
    refine ⟨congrArg Nat.succ length, last, ?_⟩
    simp only [mpAdd, value_cons, List.length_cons, pow_succ']
    linear_combination sum + 2 ^ w * rest

theorem subc_eq (op1 op2 : BitVec w) {k : BitVec w} (bit : k.toNat ≤ 1) :
    (subc op1 op2 k).1.toNat + op2.toNat + k.toNat = op1.toNat + 2 ^ w * (subc op1 op2 k).2.toNat ∧
      (subc op1 op2 k).2.toNat ≤ 1 := by
  have front := toNat_sub_cases op1 op2
  have back := toNat_sub_cases (op1 - op2) k
  have h1 := op1.isLt
  have h2 := op2.isLt
  have h3 := (op1 - op2).isLt
  simp only [subc, toNat_flag_or, gt_iff_lt, BitVec.lt_def]
  split <;> omega

theorem mpSub_eq {op1 op2 : List (BitVec w)} (same : op1.length = op2.length) {k : BitVec w}
    (bit : k.toNat ≤ 1) :
    (mpSub op1 op2 k).1.length = op1.length ∧ (mpSub op1 op2 k).2.toNat ≤ 1 ∧
    value (mpSub op1 op2 k).1 + value op2 + k.toNat =
      value op1 + (2 ^ w) ^ op1.length * (mpSub op1 op2 k).2.toNat := by
  induction op1 generalizing op2 k with
  | nil =>
    obtain rfl := List.length_eq_zero_iff.mp same.symm
    simp [mpSub, bit]
  | cons x op1 ih =>
    obtain ⟨y, op2, rfl⟩ := List.exists_cons_of_length_eq_add_one same.symm
    obtain ⟨difference, next⟩ := subc_eq x y bit
    obtain ⟨length, last, rest⟩ := ih (Nat.succ.inj same) next
    refine ⟨congrArg Nat.succ length, last, ?_⟩
    simp only [mpSub, value_cons, List.length_cons, pow_succ']
    linear_combination difference + 2 ^ w * rest

/-- With the carry that is left, the negated number completes the power of the base. -/
theorem negLoop_eq (op2 : List (BitVec w)) {carry : BitVec w} (bit : carry.toNat ≤ 1) :
    (negLoop op2 carry).1.length = op2.length ∧ (negLoop op2 carry).2.toNat ≤ 1 ∧
    value (negLoop op2 carry).1 + (2 ^ w) ^ op2.length * (negLoop op2 carry).2.toNat + value op2 + 1 =
      (2 ^ w) ^ op2.length + carry.toNat := by
  induction op2 generalizing carry with
  | nil => simp [negLoop, bit, add_comm]
  | cons x op2 ih =>
    have sum := toNat_add_cases (~~~x) carry
    have hx := x.isLt
    rw [BitVec.toNat_not] at sum
    have next : (flag (~~~x + carry < carry) : BitVec w).toNat ≤ 1 := by
      rw [toNat_flag]
      split <;> omega
    have digit : (~~~x + carry).toNat + 2 ^ w * (flag (~~~x + carry < carry) : BitVec w).toNat +
        x.toNat + 1 = 2 ^ w + carry.toNat := by
      simp only [toNat_flag, BitVec.lt_def]
      split <;> omega
    obtain ⟨length, last, rest⟩ := ih next
    refine ⟨congrArg Nat.succ length, last, ?_⟩
    simp only [negLoop, value_cons, List.length_cons, pow_succ']
    linear_combination digit + 2 ^ w * rest

theorem mpNeg_eq (op2 : List (BitVec w)) : (mpNeg op2).length = op2.length ∧
    (value (mpNeg op2) : ℤ) ≡ -value op2 [ZMOD ((2 ^ w) ^ op2.length : ℕ)] := by
  have one : (1 : BitVec w).toNat = 1 := BitVec.toNat_one (NeZero.pos w)
  obtain ⟨length, -, sum⟩ := negLoop_eq op2 one.le
  refine ⟨length, ?_⟩
  rw [one, Nat.add_right_cancel_iff] at sum
  refine (Int.modEq_iff_dvd.mpr ⟨(negLoop op2 1).2.toNat - 1, ?_⟩)
  rw [mpNeg]
  have whole : (((value (negLoop op2 1).1 + (2 ^ w) ^ op2.length * (negLoop op2 1).2.toNat +
    value op2 : ℕ)) : ℤ) = ((2 ^ w) ^ op2.length : ℕ) := congrArg Nat.cast sum
  rw [Nat.cast_add, Nat.cast_add, Nat.cast_mul] at whole
  linear_combination -whole

omit [NeZero w] in
/-- A pass of `mp_sub_mul1`: what is taken away is missing from the limbs above. -/
theorem subMul1_digit (x y b l : BitVec w) :
    (low (wide x - wide y * wide b - wide l)).toNat + y.toNat * b.toNat + l.toNat =
      x.toNat + 2 ^ w * (-high (wide x - wide y * wide b - wide l)).toNat := by
  have front := toNat_sub_cases (wide x) (wide y * wide b)
  have back := toNat_sub_cases (wide x - wide y * wide b) (wide l)
  generalize wide x - wide y * wide b - wide l = t at back
  have parts := low_add_high t
  have negated := toNat_sub_cases 0#w (high t)
  have room := mul_add_lt y.isLt b.isLt l.isLt (Nat.sub_lt (Nat.two_pow_pos w) Nat.one_pos)
  have hx := x.isLt
  have hlow := (low t).isLt
  rw [toNat_wide, toNat_wide_mul, double_pow] at front
  rw [toNat_wide, double_pow] at back
  rw [BitVec.zero_sub, BitVec.toNat_zero, zero_add] at negated
  rcases negated with ⟨zero, -⟩ | ⟨whole, -⟩
  · have none : (high t).toNat = 0 := by omega
    have same : (-high t).toNat = 0 := by omega
    rw [none, mul_zero] at parts
    rw [same, mul_zero]
    omega
  · have scaled : 2 ^ w * (-high t).toNat + 2 ^ w * (high t).toNat = 2 ^ w * 2 ^ w := by
      rw [← mul_add, whole]
    rcases Nat.eq_zero_or_pos (high t).toNat with none | some
    · rw [none, add_zero] at whole
      exact absurd (-high t).isLt (by omega)
    · have step : 2 ^ w ≤ 2 ^ w * (high t).toNat := Nat.le_mul_of_pos_right _ some
      omega

omit [NeZero w] in
theorem mpSubMul1_eq {tabr taba : List (BitVec w)} (same : tabr.length = taba.length) (b l : BitVec w) :
    (mpSubMul1 tabr taba b l).1.length = tabr.length ∧
    value (mpSubMul1 tabr taba b l).1 + value taba * b.toNat + l.toNat =
      value tabr + (2 ^ w) ^ tabr.length * (mpSubMul1 tabr taba b l).2.toNat := by
  induction tabr generalizing taba l with
  | nil =>
    obtain rfl := List.length_eq_zero_iff.mp same.symm
    simp [mpSubMul1]
  | cons x tabr ih =>
    obtain ⟨y, taba, rfl⟩ := List.exists_cons_of_length_eq_add_one same.symm
    have digit := subMul1_digit x y b l
    obtain ⟨length, rest⟩ := ih (Nat.succ.inj same) (-high (wide x - wide y * wide b - wide l))
    refine ⟨congrArg Nat.succ length, ?_⟩
    simp only [mpSubMul1, value_cons, List.length_cons, pow_succ']
    linear_combination digit + 2 ^ w * rest

omit [NeZero w] in
theorem mpMul1_eq (taba : List (BitVec w)) (b l : BitVec w) : (mpMul1 taba b l).1.length = taba.length ∧
    value (mpMul1 taba b l).1 + (2 ^ w) ^ taba.length * (mpMul1 taba b l).2.toNat =
      value taba * b.toNat + l.toNat := by
  induction taba generalizing l with
  | nil => simp [mpMul1]
  | cons x taba ih =>
    have room := mul_add_lt x.isLt b.isLt l.isLt (Nat.two_pow_pos w)
    have digit := low_add_high (wide x * wide b + wide l)
    rw [BitVec.toNat_add, toNat_wide_mul, toNat_wide,
      Nat.mod_eq_of_lt (by rw [double_pow]; exact room)] at digit
    obtain ⟨length, rest⟩ := ih (high (wide x * wide b + wide l))
    refine ⟨congrArg Nat.succ length, ?_⟩
    simp only [mpMul1, value_cons, List.length_cons, pow_succ']
    linear_combination digit + 2 ^ w * rest

omit [NeZero w] in
theorem mpAddMul1_eq {tabr taba : List (BitVec w)} (same : tabr.length = taba.length) (b l : BitVec w) :
    (mpAddMul1 tabr taba b l).1.length = taba.length ∧
    value (mpAddMul1 tabr taba b l).1 + (2 ^ w) ^ taba.length * (mpAddMul1 tabr taba b l).2.toNat =
      value tabr + value taba * b.toNat + l.toNat := by
  induction tabr generalizing taba l with
  | nil =>
    obtain rfl := List.length_eq_zero_iff.mp same.symm
    simp [mpAddMul1]
  | cons x tabr ih =>
    obtain ⟨y, taba, rfl⟩ := List.exists_cons_of_length_eq_add_one same.symm
    have room := mul_add_lt y.isLt b.isLt l.isLt x.isLt
    have sum : (wide y * wide b + wide l + wide x).toNat = y.toNat * b.toNat + l.toNat + x.toNat := by
      simp only [BitVec.toNat_add, toNat_wide_mul, toNat_wide, double_pow]
      rw [Nat.mod_eq_of_lt (by omega : y.toNat * b.toNat + l.toNat < 2 ^ w * 2 ^ w), Nat.mod_eq_of_lt room]
    have digit := low_add_high (wide y * wide b + wide l + wide x)
    obtain ⟨length, rest⟩ := ih (Nat.succ.inj same) (high (wide y * wide b + wide l + wide x))
    rw [sum] at digit
    refine ⟨congrArg Nat.succ length, ?_⟩
    simp only [mpAddMul1, value_cons, List.length_cons, pow_succ']
    linear_combination digit + 2 ^ w * rest

omit [NeZero w] in
/-- The first limb of a row and what is made of the others. -/
theorem value_row {row : List (BitVec w)} (some : row ≠ []) (rest : List (BitVec w)) (n : ℕ)
    (eq : value rest = value (row.drop 1) + n) :
    value (row.take 1 ++ rest) = value row + 2 ^ w * n := by
  obtain ⟨x, row, rfl⟩ := List.exists_cons_of_ne_nil some
  simp only [List.take_succ_cons, List.take_zero, List.singleton_append, value_cons, eq, List.drop_succ_cons,
    List.drop_zero]
  ring

omit [NeZero w] in
theorem mulRows_eq {op1 result : List (BitVec w)} (same : result.length = op1.length)
    (op2 : List (BitVec w)) : (mulRows op1 op2 result).length = op1.length + op2.length ∧
      value (mulRows op1 op2 result) = value result + value op1 * value op2 := by
  induction op2 generalizing result with
  | nil => simp [mulRows, same]
  | cons y op2 ih =>
    obtain ⟨length, sum⟩ := mpAddMul1_eq same y 0#w
    have next : (((mpAddMul1 result op1 y 0#w).1 ++ [(mpAddMul1 result op1 y 0#w).2]).drop 1).length =
        op1.length := by simp [length]
    obtain ⟨lengths, rest⟩ := ih next
    constructor
    · simp only [mulRows, List.length_append, lengths, List.length_take, List.length_cons, length,
        List.length_nil]
      omega
    · have row := value_row (List.append_ne_nil_of_right_ne_nil (mpAddMul1 result op1 y 0#w).1
        (List.cons_ne_nil (mpAddMul1 result op1 y 0#w).2 [])) _ _ rest
      rw [value_concat, length, sum] at row
      simp only [mulRows, row, value_cons]
      rw [BitVec.toNat_zero]
      ring

omit [NeZero w] in
/-- The limbs of the product of two numbers without sign. -/
theorem mpMulBasecase_eq (op1 : List (BitVec w)) {op2 : List (BitVec w)} (some : op2 ≠ []) :
    (mpMulBasecase op1 op2).length = op1.length + op2.length ∧
      value (mpMulBasecase op1 op2) = value op1 * value op2 := by
  obtain ⟨y, op2, rfl⟩ := List.exists_cons_of_ne_nil some
  obtain ⟨length, sum⟩ := mpMul1_eq op1 y 0#w
  have next : (((mpMul1 op1 y 0#w).1 ++ [(mpMul1 op1 y 0#w).2]).drop 1).length = op1.length := by
    simp [length]
  obtain ⟨lengths, rest⟩ := mulRows_eq next op2
  constructor
  · simp only [mpMulBasecase, List.length_append, lengths, List.length_take, List.length_cons, length,
      List.length_nil]
    omega
  · have row := value_row (List.append_ne_nil_of_right_ne_nil (mpMul1 op1 y 0#w).1
      (List.cons_ne_nil (mpMul1 op1 y 0#w).2 [])) _ _ rest
    rw [value_concat, length, sum] at row
    simp only [mpMulBasecase, row, value_cons]
    rw [BitVec.toNat_zero]
    ring

/-! ## Shifts -/

variable {shift : ℕ}

omit [NeZero w] in
theorem pow_sub_mul_pow_shift (small : shift ≤ w) : 2 ^ (w - shift) * 2 ^ shift = 2 ^ w := by
  rw [← pow_add, Nat.sub_add_cancel small]

omit [NeZero w] in
theorem shl_digit (small : shift ≤ w) (v : BitVec w) {l : BitVec w} (room : l.toNat < 2 ^ shift) :
    ((v <<< shift) ||| l).toNat + 2 ^ w * (v >>> (w - shift)).toNat = v.toNat * 2 ^ shift + l.toNat := by
  have whole := pow_sub_mul_pow_shift small
  have shifted : (v <<< shift).toNat = (v.toNat % 2 ^ (w - shift)) <<< shift := by
    rw [BitVec.toNat_shiftLeft, Nat.shiftLeft_eq, Nat.shiftLeft_eq]
    rw [← whole]
    exact Nat.mul_mod_mul_right _ _ _
  have parts := Nat.mod_add_div v.toNat (2 ^ (w - shift))
  rw [BitVec.toNat_or, shifted, ← Nat.shiftLeft_add_eq_or_of_lt room, Nat.shiftLeft_eq,
    BitVec.toNat_ushiftRight, Nat.shiftRight_eq_div_pow, ← whole]
  calc v.toNat % 2 ^ (w - shift) * 2 ^ shift + l.toNat +
        2 ^ (w - shift) * 2 ^ shift * (v.toNat / 2 ^ (w - shift))
      = (v.toNat % 2 ^ (w - shift) + 2 ^ (w - shift) * (v.toNat / 2 ^ (w - shift))) * 2 ^ shift +
          l.toNat := by ring
    _ = v.toNat * 2 ^ shift + l.toNat := by rw [parts]

omit [NeZero w] in
theorem mpShl_eq (small : shift ≤ w) (taba : List (BitVec w)) {l : BitVec w} (room : l.toNat < 2 ^ shift) :
    (mpShl shift taba l).1.length = taba.length ∧ (mpShl shift taba l).2.toNat < 2 ^ shift ∧
    value (mpShl shift taba l).1 + (2 ^ w) ^ taba.length * (mpShl shift taba l).2.toNat =
      value taba * 2 ^ shift + l.toNat := by
  induction taba generalizing l with
  | nil => simp [mpShl, room]
  | cons v taba ih =>
    have digit := shl_digit small v room
    have next : (v >>> (w - shift)).toNat < 2 ^ shift := by
      rw [BitVec.toNat_ushiftRight, Nat.shiftRight_eq_div_pow]
      exact Nat.div_lt_of_lt_mul (pow_sub_mul_pow_shift small ▸ v.isLt)
    obtain ⟨length, last, rest⟩ := ih next
    refine ⟨congrArg Nat.succ length, last, ?_⟩
    simp only [mpShl, value_cons, List.length_cons, pow_succ']
    linear_combination digit + 2 ^ w * rest

omit [NeZero w] in
theorem shr_digit (small : shift ≤ w) (a above : BitVec w) :
    2 ^ shift * ((a >>> shift) ||| (above <<< (w - shift))).toNat + a.toNat % 2 ^ shift =
      a.toNat + 2 ^ w * (above.toNat % 2 ^ shift) := by
  have whole := pow_sub_mul_pow_shift small
  have low : (a >>> shift).toNat < 2 ^ (w - shift) := BitVec.toNat_ushiftRight_lt a shift small
  have shifted : (above <<< (w - shift)).toNat = (above.toNat % 2 ^ shift) <<< (w - shift) := by
    rw [BitVec.toNat_shiftLeft, Nat.shiftLeft_eq, Nat.shiftLeft_eq]
    rw [← whole]
    rw [mul_comm, Nat.mul_mod_mul_left, mul_comm]
  have parts := Nat.mod_add_div a.toNat (2 ^ shift)
  rw [BitVec.toNat_or, shifted, Nat.or_comm, ← Nat.shiftLeft_add_eq_or_of_lt low, Nat.shiftLeft_eq,
    BitVec.toNat_ushiftRight, Nat.shiftRight_eq_div_pow, ← whole]
  linear_combination parts

omit [NeZero w] in
/-- The bits that are shifted out are those of the first limb. -/
theorem shrLoop_eq (small : shift ≤ w) (tab : List (BitVec w)) (high : BitVec w) :
    (shrLoop shift tab high).1.length = tab.length ∧
    2 ^ shift * value (shrLoop shift tab high).1 + (shrLoop shift tab high).2.toNat % 2 ^ shift =
      value tab + (2 ^ w) ^ tab.length * (high.toNat % 2 ^ shift) := by
  induction tab with
  | nil => simp [shrLoop]
  | cons a tab ih =>
    have digit := shr_digit small a (shrLoop shift tab high).2
    obtain ⟨length, rest⟩ := ih
    refine ⟨congrArg Nat.succ length, ?_⟩
    simp only [shrLoop, value_cons, List.length_cons, pow_succ']
    linear_combination digit + 2 ^ w * rest

end MorelloWorkloads.QuickJs
