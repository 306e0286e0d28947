import MorelloWorkloads.QuickJs.Divide

/-! Integers of any size, in two's complement and as short as they can be. A `JSBigInt` is
the list of its limbs; an operation that throws gives the message of the `RangeError`.
That `malloc` fails is left out. -/
namespace MorelloWorkloads.QuickJs

open Words

variable {w : ℕ}

/-- In limbs. -/
def JS_BIGINT_MAX_SIZE (w : ℕ) : ℕ := 1024 * 1024 / w

/-- What `js_bigint_new` checks. -/
def jsBigintNew (w len : ℕ) : Except String Unit :=
  if len > JS_BIGINT_MAX_SIZE w then throw "BigInt is too large to allocate" else pure ()

/-- The length without the redundant high order limbs, of the first `l` limbs. -/
def normalLength (tab : List (BitVec w)) : ℕ → ℕ
  | l + 2 =>
      let v := tab.getD (l + 1) 0#w
      if (v ≠ 0#w ∧ v ≠ -1#w) ∨ v &&& 1#w ≠ tab.getD l 0#w >>> (w - 1) then l + 2
      else normalLength tab (l + 1)
  | l => l

def jsBigintNormalize1 (a : List (BitVec w)) (l : ℕ) : List (BitVec w) := a.take (normalLength a l)

def jsBigintNormalize (a : List (BitVec w)) : List (BitVec w) := jsBigintNormalize1 a a.length

def jsBigintSign (a : List (BitVec w)) : BitVec w := a.getD (a.length - 1) 0#w >>> (w - 1)

/-- Adds the limb `op1` unless it only goes on with the sign. -/
def jsBigintExtend (r : List (BitVec w)) (op1 : BitVec w) : List (BitVec w) :=
  if (op1 ≠ 0#w ∧ op1 ≠ -1#w) ∨ op1 &&& 1#w ≠ jsBigintSign r then r ++ [op1]
  else jsBigintNormalize r

/-- `a + b`, or `a - b` when `bNeg` is set. The loops over `ADDC` are those of `mp_add`. -/
def jsBigintAdd (a b : List (BitVec w)) (bNeg : Bool) : Except String (List (BitVec w)) := do
  let n2 := max a.length b.length
  let n1 := min a.length b.length
  jsBigintNew w n2
  let mask := if bNeg then -1#w else 0#w
  let common := mpAdd (a.take n1) ((b.take n1).map (· ^^^ mask)) (if bNeg then 1#w else 0#w)
  let aSign := -jsBigintSign a
  let bSign := -jsBigintSign b ^^^ mask
  let rest :=
    if a.length > b.length then mpAdd (a.drop n1) (List.replicate (n2 - n1) bSign) common.2
    else if a.length < b.length then
      mpAdd (List.replicate (n2 - n1) aSign) ((b.drop n1).map (· ^^^ mask)) common.2
    else ([], common.2)
  return jsBigintExtend (common.1 ++ rest.1) (aSign + bSign + rest.2)

def jsBigintNeg (a : List (BitVec w)) : Except String (List (BitVec w)) := jsBigintAdd [0#w] a true

def jsBigintMul (a b : List (BitVec w)) : Except String (List (BitVec w)) := do
  jsBigintNew w (a.length + b.length)
  let r := mpMulBasecase a b
  -- no overflow is possible
  let r := if jsBigintSign a ≠ 0#w then r.take a.length ++ (mpSub (r.drop a.length) b 0#w).1 else r
  let r := if jsBigintSign b ≠ 0#w then r.take b.length ++ (mpSub (r.drop b.length) a 0#w).1 else r
  return jsBigintNormalize r

/-- Without the high limbs that are zero, but with one limb at least. -/
def trimLength (tab : List (BitVec w)) : ℕ → ℕ
  | l + 2 => if tab.getD (l + 1) 0#w = 0#w then trimLength tab (l + 1) else l + 2
  | l => l

/-- The limbs of the absolute value, as `js_bigint_divrem` copies them. -/
def absolute (a : List (BitVec w)) : List (BitVec w) :=
  let r := if jsBigintSign a ≠ 0#w then mpNeg a else a
  r.take (trimLength r a.length)

def jsLimbClz (a : BitVec w) : ℕ := w - 1 - a.toNat.log2

/-- The quotient, or the remainder when `isRem` is set. -/
def jsBigintDivrem (fuel : ℕ) (a b : List (BitVec w)) (isRem : Bool) :
    Option (Except String (List (BitVec w))) :=
  if b = [0#w] then some (throw "BigInt division by zero")
  else match jsBigintNew w (a.length + 2) with
  | .error e => some (.error e)
  | .ok _ =>
    let r := absolute a
    let tabb := absolute b
    if r.length < tabb.length then
      if isRem then some (do jsBigintNew w a.length; return a)
      else some (return [0#w])
    else
      let shift := jsLimbClz (tabb.getD (tabb.length - 1) 0#w)
      let tabb := if shift ≠ 0 then (mpShl shift tabb 0#w).1 else tabb
      let h := mpShl shift r 0#w
      let r := if shift ≠ 0 then (if h.2 ≠ 0#w then h.1 ++ [h.2] else h.1) else r
      match jsBigintNew w (r.length - tabb.length + 2) with
      | .error e => some (.error e)
      | .ok _ => do
        let out ← mpDivnorm fuel r tabb
        if isRem then
          let r := if shift ≠ 0 then mpShr out.2 shift 0#w else out.2
          let r := r ++ [0#w]
          let r := if jsBigintSign a ≠ 0#w then mpNeg r else r
          return .ok (jsBigintNormalize1 r r.length)
        else
          let q := out.1 ++ [0#w]
          let q := if jsBigintSign a ^^^ jsBigintSign b ≠ 0#w then mpNeg q else q
          return .ok (jsBigintNormalize q)

/-- `-1`, `0` or `1`. Only for normalized numbers. -/
def jsBigintCmp (a b : List (BitVec w)) : ℤ :=
  let aSign : ℤ := (jsBigintSign a).toNat
  let bSign : ℤ := (jsBigintSign b).toNat
  if aSign ≠ bSign then 1 - 2 * aSign
  else if a.length ≠ b.length then
    if a.length < b.length then 2 * aSign - 1 else 1 - 2 * aSign
  else match compareDown a b with
    | .lt => -1
    | .gt => 1
    | .eq => 0

variable [NeZero w]

/-! ## Normal form -/

theorem shift_sign (x : BitVec w) : x >>> (w - 1) = flag (x.msb = true) := by
  have size := x.isLt
  have half : 2 * 2 ^ (w - 1) = 2 ^ w := two_mul_half
  apply BitVec.eq_of_toNat_eq
  rw [BitVec.toNat_ushiftRight, Nat.shiftRight_eq_div_pow, toNat_flag]
  split
  · rename_i sign
    have large := BitVec.msb_eq_true_iff_two_mul_ge.mp sign
    exact Nat.div_eq_of_lt_le (by omega) (by omega)
  · rename_i sign
    have small := BitVec.msb_eq_false_iff_two_mul_lt.mp (Bool.eq_false_iff.mpr sign)
    exact Nat.div_eq_of_lt (by omega)

omit [NeZero w] in
theorem getD_last (l : List (BitVec w)) (x : BitVec w) :
    (l ++ [x]).getD ((l ++ [x]).length - 1) 0#w = x := by
  simp [List.getD]

theorem jsBigintSign_eq {a : List (BitVec w)} (some : a ≠ []) :
    jsBigintSign a = flag (negative a = true) := by
  obtain ⟨l, x, rfl⟩ := (List.eq_nil_or_concat' a).resolve_left some
  rw [jsBigintSign, getD_last, negative_concat, shift_sign]

theorem neg_sign {a : List (BitVec w)} (some : a ≠ []) : -jsBigintSign a = extension a := by
  rw [jsBigintSign_eq some, flag, extension]
  split
  · exact BitVec.neg_one_eq_allOnes
  · exact BitVec.neg_zero w

/-- The test for a redundant limb. -/
theorem redundant_iff {k : List (BitVec w)} (some : k ≠ []) (v : BitVec w) :
    ¬((v ≠ 0#w ∧ v ≠ -1#w) ∨ v &&& 1#w ≠ jsBigintSign k) ↔ v = extension k := by
  have one : (1#w) ≠ 0#w := one_ne_zero_limb
  have ends : -1#w ≠ 0#w := by
    intro eq
    have opposite := congrArg (- ·) eq
    simp only [BitVec.neg_neg, BitVec.neg_zero] at opposite
    exact one opposite
  rw [jsBigintSign_eq some, flag, extension, ← BitVec.neg_one_eq_allOnes, not_or, not_and_or, not_not,
    not_not, not_not]
  have masked : -1#w &&& 1#w = 1#w := by rw [BitVec.neg_one_eq_allOnes, BitVec.allOnes_and]
  by_cases sign : negative k = true
  · rw [if_pos sign, if_pos sign]
    constructor
    · rintro ⟨rfl | rfl, low⟩
      · rw [BitVec.zero_and] at low
        exact absurd low.symm one
      · rfl
    · rintro rfl
      exact ⟨Or.inr rfl, masked⟩
  · rw [if_neg sign, if_neg sign]
    constructor
    · rintro ⟨rfl | rfl, low⟩
      · rfl
      · rw [masked] at low
        exact absurd low one
    · rintro rfl
      exact ⟨Or.inl rfl, BitVec.zero_and⟩

/-- What is left is normal and stands for the same number. -/
theorem normalize1_eq (tab : List (BitVec w)) {l : ℕ} (some : 0 < l) (room : l ≤ tab.length) :
    Normal (jsBigintNormalize1 tab l) ∧ signed (jsBigintNormalize1 tab l) = signed (tab.take l) := by
  induction l with
  | zero => exact absurd some (Nat.lt_irrefl 0)
  | succ l ih =>
    cases l with
    | zero =>
      obtain ⟨x, tab, rfl⟩ := List.exists_cons_of_length_pos (some.trans_le room)
      exact ⟨normal_singleton x, rfl⟩
    | succ l =>
      have inside : l + 1 < tab.length := room
      have parts : tab.take (l + 2) = tab.take (l + 1) ++ [tab[l + 1]] := by
        rw [List.take_succ_eq_append_getElem inside]
      have front : tab.take (l + 1) ≠ [] := by
        refine List.ne_nil_of_length_pos ?_
        rw [List.length_take]
        omega
      have last : jsBigintSign (tab.take (l + 1)) = tab.getD l 0#w >>> (w - 1) := by
        have count : (tab.take (l + 1)).length = l + 1 := by
          rw [List.length_take]
          omega
        rw [jsBigintSign, count, Nat.add_sub_cancel]
        simp [List.getD]
      have limb : tab.getD (l + 1) 0#w = tab[l + 1] := by simp [List.getD, inside]
      have test := redundant_iff front (tab[l + 1])
      rw [last] at test
      rw [jsBigintNormalize1, normalLength, limb]
      split
      · rename_i needed
        rw [parts]
        exact ⟨(normal_concat front).mpr fun eq => absurd needed (test.mpr eq), rfl⟩
      · rename_i redundant
        obtain ⟨normal, number⟩ := ih (Nat.succ_pos l) inside.le
        refine ⟨normal, number.trans ?_⟩
        rw [parts, test.mp redundant, signed_extend]

theorem normalize_eq {tab : List (BitVec w)} (some : tab ≠ []) :
    Normal (jsBigintNormalize tab) ∧ signed (jsBigintNormalize tab) = signed tab := by
  have result := normalize1_eq tab (List.length_pos_of_ne_nil some) le_rfl
  rwa [List.take_length] at result

theorem extend_eq {r : List (BitVec w)} (some : r ≠ []) (op1 : BitVec w) :
    Normal (jsBigintExtend r op1) ∧ signed (jsBigintExtend r op1) = signed (r ++ [op1]) := by
  have test := redundant_iff some op1
  rw [jsBigintExtend]
  split
  · rename_i needed
    exact ⟨(normal_concat some).mpr fun eq => absurd needed (test.mpr eq), rfl⟩
  · rename_i redundant
    rw [test.mp redundant, signed_extend]
    exact normalize_eq some

theorem sign_ne_zero {a : List (BitVec w)} (some : a ≠ []) :
    jsBigintSign a ≠ 0#w ↔ negative a = true := by
  rw [jsBigintSign_eq some, flag]
  split
  · exact iff_of_true one_ne_zero_limb ‹_›
  · exact iff_of_false (fun ne => ne rfl) ‹_›

theorem sign_xor {a b : List (BitVec w)} (ha : a ≠ []) (hb : b ≠ []) :
    jsBigintSign a ^^^ jsBigintSign b ≠ 0#w ↔ negative a ≠ negative b := by
  rw [jsBigintSign_eq ha, jsBigintSign_eq hb, flag, flag]
  cases negative a <;> cases negative b <;> simp [NeZero.ne w]

/-- Negating a number that is not negative needs no more room. -/
theorem signed_mpNeg {l : List (BitVec w)} (pos : 0 ≤ signed l) : signed (mpNeg l) = -signed l := by
  obtain ⟨length, congr⟩ := mpNeg_eq l
  have range := signed_range l
  refine signed_eq ?_ ?_ ?_
  · rw [length]
    exact congr.trans (signed_modEq l).symm.neg
  · rw [length]
    omega
  · rw [length]
    omega

/-! ## Division -/

omit [NeZero w] in
theorem trim_eq (tab : List (BitVec w)) {l : ℕ} (some : 0 < l) (room : l ≤ tab.length) :
    value (tab.take (trimLength tab l)) = value (tab.take l) ∧ trimLength tab l ≤ l ∧
    ∃ lower top, tab.take (trimLength tab l) = lower ++ [top] ∧ (lower = [] ∨ top ≠ 0#w) := by
  induction l with
  | zero => exact absurd some (Nat.lt_irrefl 0)
  | succ l ih =>
    cases l with
    | zero =>
      obtain ⟨x, tab, rfl⟩ := List.exists_cons_of_length_pos (some.trans_le room)
      exact ⟨rfl, le_rfl, [], x, rfl, Or.inl rfl⟩
    | succ l =>
      have inside : l + 1 < tab.length := room
      have parts : tab.take (l + 2) = tab.take (l + 1) ++ [tab[l + 1]] := by
        rw [List.take_succ_eq_append_getElem inside]
      have limb : tab.getD (l + 1) 0#w = tab[l + 1] := by simp [List.getD, inside]
      rw [trimLength, limb]
      split
      · rename_i zero
        obtain ⟨number, shorter, shape⟩ := ih (Nat.succ_pos l) inside.le
        refine ⟨number.trans ?_, Nat.le_succ_of_le shorter, shape⟩
        rw [parts, zero, value_concat, BitVec.toNat_zero, mul_zero, add_zero]
      · rename_i needed
        exact ⟨rfl, le_rfl, _, _, parts, Or.inr needed⟩

/-- The absolute value, with a last limb that is not zero unless it is the only one. -/
theorem absolute_eq {a : List (BitVec w)} (some : a ≠ []) :
    value (absolute a) = (signed a).natAbs ∧ (absolute a).length ≤ a.length ∧
    ∃ lower top, absolute a = lower ++ [top] ∧ (lower = [] ∨ top ≠ 0#w) := by
  obtain ⟨length, congr⟩ := mpNeg_eq a
  have positive := List.length_pos_of_ne_nil some
  have copied : value (if jsBigintSign a ≠ 0#w then mpNeg a else a) = (signed a).natAbs ∧
      (if jsBigintSign a ≠ 0#w then mpNeg a else a).length = a.length := by
    cases sign : negative a with
    | true =>
      have below := (negative_iff a).mp sign
      have range := (signed_range a).1
      have room : (value (mpNeg a) : ℤ) < ((2 ^ w) ^ a.length : ℕ) := by
        exact_mod_cast length ▸ value_lt (mpNeg a)
      have same : (value (mpNeg a) : ℤ) ≡ -signed a [ZMOD ((2 ^ w) ^ a.length : ℕ)] :=
        congr.trans (signed_modEq a).symm.neg
      have equal : (value (mpNeg a) : ℤ) = -signed a := by
        rw [Int.ModEq, Int.emod_eq_of_lt (Int.natCast_nonneg _) room,
          Int.emod_eq_of_lt (by omega) (by omega)] at same
        exact same
      rw [if_pos ((sign_ne_zero some).mpr sign)]
      exact ⟨by omega, length⟩
    | false =>
      have equal := signed_of_nonneg sign
      rw [if_neg (mt (sign_ne_zero some).mp (by rw [sign]; exact Bool.false_ne_true))]
      exact ⟨by omega, rfl⟩
  rw [absolute]
  generalize (if jsBigintSign a ≠ 0#w then mpNeg a else a) = r at copied
  obtain ⟨number, shorter, shape⟩ := trim_eq r positive copied.2.ge
  rw [← copied.2, List.take_length, copied.1] at number
  refine ⟨by rw [← copied.2]; exact number, ?_, shape⟩
  rw [List.length_take]
  exact (Nat.min_le_left _ _).trans shorter

omit [NeZero w] in
/-- Shifting a limb by its leading zeros brings the highest bit to the top. -/
theorem clz_eq {top : BitVec w} (some : top ≠ 0#w) : jsLimbClz top < w ∧
    (top.toNat + 1) * 2 ^ jsLimbClz top ≤ 2 ^ w ∧ 2 ^ w ≤ 2 * (top.toNat * 2 ^ jsLimbClz top) := by
  have ne : top.toNat ≠ 0 := fun zero => some (BitVec.eq_of_toNat_eq (zero.trans BitVec.toNat_zero.symm))
  have low := Nat.log2_self_le ne
  have high := @Nat.lt_log2_self top.toNat
  have inside : top.toNat.log2 < w := (Nat.log2_lt ne).mpr top.isLt
  have whole : 2 ^ w = 2 ^ (top.toNat.log2 + 1) * 2 ^ jsLimbClz top := by
    rw [← pow_add, jsLimbClz]
    congr 1
    omega
  refine ⟨by rw [jsLimbClz]; omega, ?_, ?_⟩
  · rw [whole]
    exact Nat.mul_le_mul_right _ high
  · calc 2 ^ w = 2 * (2 ^ top.toNat.log2 * 2 ^ jsLimbClz top) := by rw [whole, pow_succ]; ring
      _ ≤ 2 * (top.toNat * 2 ^ jsLimbClz top) :=
          Nat.mul_le_mul_left 2 (Nat.mul_le_mul_right _ low)

/-- After the shift the highest bit of the divisor is set, and nothing has been lost. -/
theorem shifted_divisor (lower : List (BitVec w)) {top : BitVec w} (some : top ≠ 0#w) :
    ∃ front b1, (if jsLimbClz top ≠ 0 then (mpShl (jsLimbClz top) (lower ++ [top]) 0#w).1
        else lower ++ [top]) = front ++ [b1] ∧ front.length = lower.length ∧ 2 ^ w ≤ 2 * b1.toNat ∧
      value (front ++ [b1]) = value (lower ++ [top]) * 2 ^ jsLimbClz top := by
  obtain ⟨inside, below, above⟩ := clz_eq some
  split
  · have zero : (0#w).toNat < 2 ^ jsLimbClz top := by
      rw [BitVec.toNat_zero]
      exact Nat.two_pow_pos _
    obtain ⟨length, -, eq⟩ := mpShl_eq inside.le (lower ++ [top]) zero
    generalize mpShl (jsLimbClz top) (lower ++ [top]) 0#w = out at length eq
    have count : (lower ++ [top]).length = lower.length + 1 := by simp
    rw [BitVec.toNat_zero, add_zero, count] at eq
    -- the number stays below the power, so nothing is carried
    have room : value (lower ++ [top]) * 2 ^ jsLimbClz top < (2 ^ w) ^ (lower.length + 1) := by
      have front := value_lt lower
      calc value (lower ++ [top]) * 2 ^ jsLimbClz top
          < (2 ^ w) ^ lower.length * (top.toNat + 1) * 2 ^ jsLimbClz top := by
            refine Nat.mul_lt_mul_of_pos_right ?_ (Nat.two_pow_pos _)
            rw [value_concat, mul_add, mul_one]
            omega
        _ = (2 ^ w) ^ lower.length * ((top.toNat + 1) * 2 ^ jsLimbClz top) := by ring
        _ ≤ (2 ^ w) ^ lower.length * 2 ^ w := Nat.mul_le_mul_left _ below
        _ = (2 ^ w) ^ (lower.length + 1) := (pow_succ _ _).symm
    have carried : out.2.toNat = 0 := by
      by_contra more
      have step := Nat.le_mul_of_pos_right ((2 ^ w) ^ (lower.length + 1)) (Nat.pos_of_ne_zero more)
      omega
    rw [carried, mul_zero, add_zero] at eq
    obtain ⟨front, b1, parts⟩ := (List.eq_nil_or_concat' out.1).resolve_left
      (List.ne_nil_of_length_eq_add_one (length.trans count))
    have sizes : front.length = lower.length := by
      rw [parts] at length
      simpa using length
    refine ⟨front, b1, parts, sizes, ?_, parts ▸ eq⟩
    have large : (2 ^ w) ^ lower.length * 2 ^ w < (2 ^ w) ^ lower.length * (2 * (b1.toNat + 1)) := by
      have less := value_lt front
      rw [parts, value_concat, sizes] at eq
      rw [sizes] at less
      calc (2 ^ w) ^ lower.length * 2 ^ w
          ≤ (2 ^ w) ^ lower.length * (2 * (top.toNat * 2 ^ jsLimbClz top)) := Nat.mul_le_mul_left _ above
        _ = 2 * ((2 ^ w) ^ lower.length * top.toNat * 2 ^ jsLimbClz top) := by ring
        _ ≤ 2 * (value (lower ++ [top]) * 2 ^ jsLimbClz top) := by
            refine Nat.mul_le_mul_left 2 (Nat.mul_le_mul_right _ ?_)
            rw [value_concat]
            exact Nat.le_add_left _ _
        _ < (2 ^ w) ^ lower.length * (2 * (b1.toNat + 1)) := by
            rw [← eq]
            linarith
    have half : 2 * 2 ^ (w - 1) = 2 ^ w := two_mul_half
    have strict := lt_of_mul_lt_mul_left large (Nat.zero_le _)
    omega
  · rename_i none
    rw [not_not.mp none, pow_zero, mul_one] at above ⊢
    exact ⟨lower, top, rfl, rfl, above, rfl⟩

omit [NeZero w] in
theorem shifted_dividend {shift : ℕ} (small : shift ≤ w) (r : List (BitVec w)) :
    let h := mpShl shift r 0#w
    let out := if shift ≠ 0 then (if h.2 ≠ 0#w then h.1 ++ [h.2] else h.1) else r
    value out = value r * 2 ^ shift ∧ r.length ≤ out.length ∧ out.length ≤ r.length + 1 := by
  have zero : (0#w).toNat < 2 ^ shift := by
    rw [BitVec.toNat_zero]
    exact Nat.two_pow_pos _
  obtain ⟨length, -, eq⟩ := mpShl_eq small r zero
  intro h out
  rw [BitVec.toNat_zero, add_zero, ← length] at eq
  by_cases none : shift = 0
  · have same : out = r := if_neg (not_not.mpr none)
    rw [same, none, pow_zero, mul_one]
    exact ⟨rfl, le_rfl, Nat.le_succ _⟩
  · by_cases high : h.2 = 0#w
    · have same : out = h.1 := (if_pos none).trans (if_neg (not_not.mpr high))
      rw [show (mpShl shift r 0#w).2 = 0#w from high, BitVec.toNat_zero, mul_zero, add_zero] at eq
      rw [same]
      exact ⟨eq, length.ge, length.le.trans (Nat.le_succ _)⟩
    · have same : out = h.1 ++ [h.2] := (if_pos none).trans (if_pos high)
      have count : (h.1 ++ [h.2]).length = r.length + 1 := by
        rw [List.length_append, List.length_singleton]
        exact congrArg Nat.succ length
      rw [same, count, value_concat]
      exact ⟨eq, Nat.le_succ _, le_rfl⟩

omit [NeZero w] in
theorem unshifted {shift : ℕ} (small : shift ≤ w) {rem : List (BitVec w)} {m : ℕ}
    (eq : value rem = m * 2 ^ shift) :
    value (if shift ≠ 0 then mpShr rem shift 0#w else rem) = m := by
  split
  · obtain ⟨-, back⟩ := shrLoop_eq small rem 0#w
    have lost : (shrLoop shift rem 0#w).2.toNat % 2 ^ shift < 2 ^ shift := Nat.mod_lt _ (Nat.two_pow_pos _)
    rw [BitVec.toNat_zero, Nat.zero_mod, mul_zero, add_zero, eq] at back
    rw [mpShr]
    have quotient := congrArg (· / 2 ^ shift) back
    simp only [Nat.mul_add_div (Nat.two_pow_pos shift), Nat.div_eq_of_lt lost, add_zero,
      Nat.mul_div_cancel _ (Nat.two_pow_pos shift)] at quotient
    exact quotient
  · rename_i none
    rw [eq, not_not.mp none, pow_zero, mul_one]

theorem signed_zero_limb (l : List (BitVec w)) : signed (l ++ [0#w]) = value l := by
  rw [signed_concat, BitVec.toInt_zero, mul_zero, add_zero]

/-- What is returned for a number without sign, negated or not. -/
theorem signed_result (l : List (BitVec w)) (neg : Prop) [Decidable neg] :
    Normal (jsBigintNormalize (if neg then mpNeg (l ++ [0#w]) else l ++ [0#w])) ∧
    signed (jsBigintNormalize (if neg then mpNeg (l ++ [0#w]) else l ++ [0#w])) =
      if neg then -(value l : ℤ) else value l := by
  have number := signed_zero_limb l
  split
  · have some : mpNeg (l ++ [0#w]) ≠ [] := by
      refine List.ne_nil_of_length_pos ?_
      rw [(mpNeg_eq (l ++ [0#w])).1, List.length_append]
      exact Nat.succ_pos _
    obtain ⟨normal, same⟩ := normalize_eq some
    rw [same, signed_mpNeg (by rw [number]; exact Int.natCast_nonneg _), number]
    exact ⟨normal, rfl⟩
  · obtain ⟨normal, same⟩ := normalize_eq
      (List.append_ne_nil_of_right_ne_nil l (List.cons_ne_nil (0#w) []))
    rw [same, number]
    exact ⟨normal, rfl⟩

theorem tdiv_natAbs (x y : ℤ) : x.tdiv y =
    if x < 0 ↔ y < 0 then ((x.natAbs / y.natAbs : ℕ) : ℤ)
    else -((x.natAbs / y.natAbs : ℕ) : ℤ) := by
  have parts (z : ℤ) : (z < 0 ∧ z = -(z.natAbs : ℤ)) ∨ (¬ z < 0 ∧ z = z.natAbs) := by omega
  rcases parts x with ⟨hx, ex⟩ | ⟨hx, ex⟩ <;> rcases parts y with ⟨hy, ey⟩ | ⟨hy, ey⟩
  · rw [if_pos (iff_of_true hx hy), Int.natCast_ediv]
    conv_lhs => rw [ex, ey, Int.neg_tdiv, Int.tdiv_neg, neg_neg]
    exact Int.tdiv_eq_ediv_of_nonneg (Int.natCast_nonneg _)
  · rw [if_neg fun iff => hy (iff.mp hx), Int.natCast_ediv]
    conv_lhs => rw [ex, ey, Int.neg_tdiv]
    rw [Int.tdiv_eq_ediv_of_nonneg (Int.natCast_nonneg _)]
  · rw [if_neg fun iff => hx (iff.mpr hy), Int.natCast_ediv]
    conv_lhs => rw [ex, ey, Int.tdiv_neg]
    rw [Int.tdiv_eq_ediv_of_nonneg (Int.natCast_nonneg _)]
  · rw [if_pos (iff_of_false hx hy), Int.natCast_ediv]
    conv_lhs => rw [ex, ey]
    exact Int.tdiv_eq_ediv_of_nonneg (Int.natCast_nonneg _)

theorem tmod_natAbs (x y : ℤ) : x.tmod y =
    if x < 0 then -((x.natAbs % y.natAbs : ℕ) : ℤ) else ((x.natAbs % y.natAbs : ℕ) : ℤ) := by
  have parts (z : ℤ) : (z < 0 ∧ z = -(z.natAbs : ℤ)) ∨ (¬ z < 0 ∧ z = z.natAbs) := by omega
  have unsigned (z : ℤ) : z.tmod y = z.tmod y.natAbs := by
    rcases parts y with ⟨-, ey⟩ | ⟨-, ey⟩
    · conv_lhs => rw [ey, Int.tmod_neg]
    · rw [← ey]
  rw [unsigned, Int.natCast_emod]
  rcases parts x with ⟨hx, ex⟩ | ⟨hx, ex⟩
  · rw [if_pos hx]
    conv_lhs => rw [ex, Int.neg_tmod]
    rw [Int.tmod_eq_emod_of_nonneg (Int.natCast_nonneg _)]
  · rw [if_neg hx]
    conv_lhs => rw [ex]
    exact Int.tmod_eq_emod_of_nonneg (Int.natCast_nonneg _)

theorem eq_zero_iff {b : List (BitVec w)} (normal : Normal b) : b = [0#w] ↔ signed b = 0 := by
  have zero : signed [0#w] = 0 := (signed_zero_limb []).trans rfl
  constructor
  · rintro rfl
    exact zero
  · intro eq
    exact normal.unique (normal_singleton _) (eq.trans zero.symm)

omit [NeZero w] in
/-- A number of fewer limbs is smaller. -/
theorem value_lt_of_length {l k : List (BitVec w)} {top : BitVec w} (some : top ≠ 0#w)
    (shorter : l.length ≤ k.length) : value l < value (k ++ [top]) := by
  have positive : 1 ≤ top.toNat := Nat.pos_of_ne_zero fun zero =>
    some (BitVec.eq_of_toNat_eq (zero.trans BitVec.toNat_zero.symm))
  calc value l < (2 ^ w) ^ l.length := value_lt l
    _ ≤ (2 ^ w) ^ k.length := Nat.pow_le_pow_right (Nat.two_pow_pos w) shorter
    _ ≤ (2 ^ w) ^ k.length * top.toNat := Nat.le_mul_of_pos_right _ positive
    _ ≤ value (k ++ [top]) := by rw [value_concat]; exact Nat.le_add_left _ _

/-- Dividend and divisor shifted alike have the quotient of the numbers, and a remainder
shifted as they are. -/
theorem shifted_division {q r m n unit : ℕ} (positive : 0 < unit) (eq : q * (n * unit) + r = m * unit)
    (rest : r < n * unit) : q = m / n ∧ r = m % n * unit := by
  have total : r + n * unit * q = m * unit := by linarith
  constructor
  · calc q = (r + n * unit * q) / (n * unit) := by
          rw [Nat.add_mul_div_left _ _ (Nat.zero_lt_of_lt rest), Nat.div_eq_of_lt rest, zero_add]
      _ = m / n := by rw [total, Nat.mul_div_mul_right _ _ positive]
  · calc r = (r + n * unit * q) % (n * unit) := by
          rw [Nat.add_mul_mod_self_left, Nat.mod_eq_of_lt rest]
      _ = m % n * unit := by rw [total, Nat.mul_mod_mul_right]

/-- A divisor that is not zero has a highest limb. -/
theorem absolute_divisor {b : List (BitVec w)} (hb : b ≠ []) (some : signed b ≠ 0) :
    value (absolute b) = (signed b).natAbs ∧
      ∃ lower top, absolute b = lower ++ [top] ∧ top ≠ 0#w := by
  obtain ⟨divisor, -, lower, top, shape, full⟩ := absolute_eq hb
  refine ⟨divisor, lower, top, shape, ?_⟩
  rcases full with rfl | filled
  · rintro rfl
    rw [shape] at divisor
    simp only [List.nil_append, value_cons, value_nil, BitVec.toNat_zero, mul_zero, add_zero] at divisor
    exact Int.natAbs_ne_zero.mpr some divisor.symm
  · exact filled

/-- The division rounds toward zero, as the specification of the language has it: the
quotient and the remainder are those of the integers, and no other outcome is possible than
the two exceptions. -/
theorem jsBigintDivrem_exact {a b : List (BitVec w)} (ha : Normal a) (hb : Normal b) {fuel : ℕ}
    (enough : 2 ≤ fuel) (isRem : Bool) :
    (signed b = 0 → jsBigintDivrem fuel a b isRem = some (.error "BigInt division by zero")) ∧
    (signed b ≠ 0 → JS_BIGINT_MAX_SIZE w < a.length + 2 →
      jsBigintDivrem fuel a b isRem = some (.error "BigInt is too large to allocate")) ∧
    (signed b ≠ 0 → a.length + 2 ≤ JS_BIGINT_MAX_SIZE w → ∃ r,
      jsBigintDivrem fuel a b isRem = some (.ok r) ∧ Normal r ∧
      signed r = if isRem then (signed a).tmod (signed b) else (signed a).tdiv (signed b)) := by
  have zero := eq_zero_iff hb
  refine ⟨fun none => ?_, fun some large => ?_, fun some small => ?_⟩
  · rw [jsBigintDivrem, if_pos (zero.mpr none)]
    rfl
  · rw [jsBigintDivrem, if_neg (mt zero.mp some), jsBigintNew, if_pos large]
    rfl
  · have room : jsBigintNew w (a.length + 2) = .ok () := if_neg (not_lt.mpr small)
    obtain ⟨dividend, sizeA, lowerA, topA, shapeA, -⟩ := absolute_eq ha.1
    obtain ⟨divisor, lowerB, topB, shapeB, filled⟩ := absolute_divisor hb.1 some
    simp only [jsBigintDivrem, if_neg (mt zero.mp some), room]
    by_cases less : (absolute a).length < (absolute b).length
    · -- the dividend is smaller
      have below : (signed a).natAbs < (signed b).natAbs := by
        rw [← dividend, ← divisor, shapeB]
        refine value_lt_of_length filled ?_
        rw [shapeB, List.length_append, List.length_singleton] at less
        exact Nat.lt_succ_iff.mp less
      rw [if_pos less]
      cases isRem with
      | true =>
        have fits : jsBigintNew w a.length = .ok () := if_neg (by omega)
        refine ⟨a, by rw [if_pos rfl, fits]; rfl, ha, ?_⟩
        rw [if_pos rfl, tmod_natAbs, Nat.mod_eq_of_lt below]
        split <;> omega
      | false =>
        refine ⟨[0#w], rfl, normal_singleton _, ?_⟩
        rw [if_neg Bool.false_ne_true, tdiv_natAbs, Nat.div_eq_of_lt below,
          (eq_zero_iff (normal_singleton _)).mp rfl]
        simp
    · rw [if_neg less]
      obtain ⟨front, b1, parts, count, half, scaled⟩ := shifted_divisor lowerB filled
      have inside := (clz_eq filled).1.le
      obtain ⟨shifted, longer, most⟩ := shifted_dividend inside (absolute a)
      rw [shapeB] at less divisor
      rw [shapeB, getD_last, parts]
      generalize (if jsLimbClz topB ≠ 0 then (if (mpShl (jsLimbClz topB) (absolute a) 0#w).2 ≠ 0#w then
        (mpShl (jsLimbClz topB) (absolute a) 0#w).1 ++ [(mpShl (jsLimbClz topB) (absolute a) 0#w).2]
        else (mpShl (jsLimbClz topB) (absolute a) 0#w).1) else absolute a) = taba at shifted longer most
      have frontLength : (front ++ [b1]).length = front.length + 1 := by simp
      have lowerLength : (lowerB ++ [topB]).length = front.length + 1 := by simp [count]
      rw [lowerLength] at less
      have fits : jsBigintNew w (taba.length - (front ++ [b1]).length + 2) = .ok () := if_neg (by omega)
      obtain ⟨q, rem, run, -, -, eq, rest⟩ := @mpDivnorm_eq w _ front b1 half fuel enough taba (by omega)
      rw [scaled, shifted, dividend, divisor] at eq
      rw [scaled, divisor] at rest
      obtain ⟨quotient, remainder⟩ := shifted_division (Nat.two_pow_pos (jsLimbClz topB)) eq rest
      have signA := (sign_ne_zero ha.1).trans (negative_iff a)
      rw [fits, run]
      cases isRem with
      | true =>
        obtain ⟨normal, number⟩ := signed_result (if jsLimbClz topB ≠ 0 then
          mpShr rem (jsLimbClz topB) 0#w else rem) (jsBigintSign a ≠ 0#w)
        refine ⟨_, rfl, normal, number.trans ?_⟩
        rw [unshifted inside remainder, if_pos rfl, tmod_natAbs]
        simp only [signA]
      | false =>
        obtain ⟨normal, number⟩ := signed_result q (jsBigintSign a ^^^ jsBigintSign b ≠ 0#w)
        have signs : jsBigintSign a ^^^ jsBigintSign b ≠ 0#w ↔ ¬(signed a < 0 ↔ signed b < 0) := by
          rw [sign_xor ha.1 hb.1, ← negative_iff, ← negative_iff, ne_eq, Bool.eq_iff_iff]
        refine ⟨_, rfl, normal, number.trans ?_⟩
        rw [quotient, if_neg Bool.false_ne_true, tdiv_natAbs]
        simp only [signs, ite_not]

theorem jsBigintDivrem_exact_limbs : ∃ r,
    jsBigintDivrem 2 [5#64, 0#64, 1#64] [3#64, 1#64] false = some (.ok r) ∧ Normal r ∧
      signed r = 2 ^ 64 - 3 := by
  have dividend : Normal [5#64, 0#64, 1#64] := by decide +kernel
  have divisor : Normal [3#64, 1#64] := by decide +kernel
  have quotient : (signed [5#64, 0#64, 1#64]).tdiv (signed [3#64, 1#64]) = 2 ^ 64 - 3 := by decide +kernel
  obtain ⟨-, -, exact⟩ := jsBigintDivrem_exact dividend divisor le_rfl false
  have some : signed [3#64, 1#64] ≠ 0 := by decide +kernel
  have small : [5#64, 0#64, 1#64].length + 2 ≤ JS_BIGINT_MAX_SIZE 64 := by
    rw [JS_BIGINT_MAX_SIZE]
    decide
  obtain ⟨r, run, normal, number⟩ := exact some small
  rw [if_neg Bool.false_ne_true, quotient] at number
  exact ⟨r, run, normal, number⟩

end MorelloWorkloads.QuickJs
