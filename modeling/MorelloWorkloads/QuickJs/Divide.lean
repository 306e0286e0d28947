import MorelloWorkloads.QuickJs.Limbs

/-! The division of limbs by a number whose highest bit is set: by one limb, with a
reciprocal when there are enough limbs, and by several. -/
namespace MorelloWorkloads.QuickJs

open Words QuotientDigits

variable {w : ℕ}

/-- The reciprocal of `d`, whose highest bit must be set. -/
def udiv1normInit (d : BitVec w) : BitVec w :=
  let a1 := -d - 1#w
  let a0 := -1#w
  low (join a1 a0 / wide d)

/-- The quotient and the remainder of `a1` and `a0` side by side by `d`. -/
def udiv1norm (a1 a0 d dInv : BitVec w) : BitVec w × BitVec w :=
  let n1m := a0.sshiftRight (w - 1)
  let nAdj := a0 + (n1m &&& d)
  let q := high (wide dInv * wide (a1 - n1m) + wide nAdj) + a1
  -- the remainder between `-d` and `d - 1`, which tells whether `q` is one short
  let a := join a1 a0 - wide q * wide d - wide d
  let ah := high a
  (q + (1#w + ah), low a + (ah &&& d))

def UDIV1NORM_THRESHOLD : ℕ := 3

/-- The loop of `mp_div1norm` from the last limb down, with the step on `r` and a limb. -/
def divDown (step : BitVec w → BitVec w → BitVec w × BitVec w) :
    List (BitVec w) → BitVec w → List (BitVec w) × BitVec w
  | x :: taba, r =>
      let above := divDown step taba r
      let s := step above.2 x
      (s.1 :: above.1, s.2)
  | [], r => ([], r)

def mpDiv1norm (taba : List (BitVec w)) (b r : BitVec w) : List (BitVec w) × BitVec w :=
  if taba.length ≥ UDIV1NORM_THRESHOLD then
    let bInv := udiv1normInit b
    divDown (fun r x => udiv1norm r x b bInv) taba r
  else
    divDown (fun r x => (low (join r x / wide b), low (join r x % wide b))) taba r

/-- Subtracting has gone below zero: adds `tabb` until the limbs and `top` above them pass
zero again. -/
def addBack (tabb : List (BitVec w)) : ℕ → BitVec w → List (BitVec w) → BitVec w →
    Option (BitVec w × List (BitVec w))
  | 0, _, _, _ => none
  | fuel + 1, q, taba, top =>
      let sum := mpAdd taba tabb 0#w
      if sum.2 ≠ 0#w then
        if top + 1#w = 0#w then some (q - 1#w, sum.1)
        else addBack tabb fuel (q - 1#w) sum.1 (top + 1#w)
      else addBack tabb fuel (q - 1#w) sum.1 top

/-- A digit of the quotient. -/
def digit (u1 u0 b1 b1Inv : BitVec w) : BitVec w :=
  if u1 ≥ b1 then -1#w
  else if b1Inv ≠ 0#w then (udiv1norm u1 u0 b1 b1Inv).1
  else low (join u1 u0 / wide b1)

/-- A pass of the loop of `mp_divnorm`, on the `nb + 1` limbs from `taba + i` on. The last
of them is zero afterwards and is not looked at again. -/
def divStep (fuel : ℕ) (tabb : List (BitVec w)) (b1 b1Inv : BitVec w) (window : List (BitVec w)) :
    Option (BitVec w × List (BitVec w)) := do
  let u1 ← window[tabb.length]?
  let u0 ← window[tabb.length - 1]?
  let q := digit u1 u0 b1 b1Inv
  let r := mpSubMul1 (window.take tabb.length) tabb q 0#w
  let a := u1 - r.2
  if a > u1 then addBack tabb fuel q r.1 a else some (q, r.1)

/-- The loop of `mp_divnorm` over the limbs that are still to come, from the last one down. -/
def divLoop (fuel : ℕ) (tabb : List (BitVec w)) (b1 b1Inv : BitVec w) :
    List (BitVec w) → List (BitVec w) → Option (List (BitVec w) × List (BitVec w))
  | x :: taba, top => do
      let above ← divLoop fuel tabb b1 b1Inv taba top
      let s ← divStep fuel tabb b1 b1Inv (x :: above.2)
      return (s.1 :: above.1, s.2)
  | [], top => some ([], top)

/-- Compares numbers of one length from the last limb down. -/
def compareDown : List (BitVec w) → List (BitVec w) → Ordering
  | x :: a, y :: b =>
      (compareDown a b).then (if x ≠ y then (if x < y then .lt else .gt) else .eq)
  | _, _ => .eq

/-- The quotient and the `nb` limbs of the remainder. `fuel` bounds the inner loop. -/
def mpDivnorm (fuel : ℕ) (taba tabb : List (BitVec w)) : Option (List (BitVec w) × List (BitVec w)) := do
  let b1 ← tabb[tabb.length - 1]?
  if tabb.length = 1 then
    let r := mpDiv1norm taba b1 0#w
    return (r.1, [r.2])
  let n := taba.length - tabb.length
  let b1Inv := if n ≥ UDIV1NORM_THRESHOLD then udiv1normInit b1 else 0#w
  -- first iteration: the quotient is only 0 or 1
  let q := if compareDown (taba.drop n) tabb = .lt then 0#w else 1#w
  let top := if q ≠ 0#w then (mpSub (taba.drop n) tabb 0#w).1 else taba.drop n
  let rest ← divLoop fuel tabb b1 b1Inv (taba.take n) top
  return (rest.1 ++ [q], rest.2)

variable [NeZero w]

/-! ## One limb -/

section OneLimb
variable {d : BitVec w} (half : 2 ^ w ≤ 2 * d.toNat)
include half

omit [NeZero w] in
theorem udiv1normInit_eq : ∃ e < d.toNat,
    ((udiv1normInit d).toNat + 2 ^ w) * d.toNat + 1 + e = 2 ^ w * 2 ^ w := by
  have size := d.isLt
  have positive : 0 < d.toNat := by
    have base := Nat.two_pow_pos w
    omega
  have upper : (-d - 1#w).toNat = 2 ^ w - 1 - d.toNat := by
    rw [BitVec.neg_eq_not_add, BitVec.add_sub_cancel, BitVec.toNat_not]
  have lower : (-1#w).toNat = 2 ^ w - 1 := by
    rw [BitVec.neg_one_eq_allOnes, BitVec.toNat_allOnes]
  have whole : (2 ^ w - 1 - d.toNat) * 2 ^ w + (2 ^ w - 1) + 2 ^ w * d.toNat + 1 = 2 ^ w * 2 ^ w := by
    obtain ⟨k, hk⟩ := Nat.exists_eq_add_of_lt size
    have gap : 2 ^ w - 1 - d.toNat = k := by omega
    rw [gap]
    calc k * 2 ^ w + (2 ^ w - 1) + 2 ^ w * d.toNat + 1
        = k * 2 ^ w + 2 ^ w * d.toNat + ((2 ^ w - 1) + 1) := by ring
      _ = k * 2 ^ w + 2 ^ w * d.toNat + 2 ^ w := by rw [Nat.sub_add_cancel Nat.one_le_two_pow]
      _ = 2 ^ w * (d.toNat + k + 1) := by ring
      _ = 2 ^ w * 2 ^ w := by rw [← hk]
  have quotient : (udiv1normInit d).toNat =
      ((2 ^ w - 1 - d.toNat) * 2 ^ w + (2 ^ w - 1)) / d.toNat := by
    rw [udiv1normInit, toNat_low, BitVec.toNat_udiv, toNat_join, toNat_wide, upper, lower]
    refine Nat.mod_eq_of_lt (Nat.div_lt_of_lt_mul ?_)
    have twice : 2 ^ w * 2 ^ w ≤ 2 ^ w * (2 * d.toNat) := Nat.mul_le_mul_left _ half
    nlinarith
  refine ⟨((2 ^ w - 1 - d.toNat) * 2 ^ w + (2 ^ w - 1)) % d.toNat, Nat.mod_lt _ positive, ?_⟩
  have parts := Nat.div_add_mod ((2 ^ w - 1 - d.toNat) * 2 ^ w + (2 ^ w - 1)) d.toNat
  rw [quotient]
  linear_combination parts + whole

omit half in
theorem sign_mask (a : BitVec w) :
    a.sshiftRight (w - 1) = if a.msb then BitVec.allOnes w else 0#w := by
  apply BitVec.eq_of_toInt_eq
  have low := BitVec.le_toInt a
  have high := @BitVec.toInt_lt w a
  have positive : (0 : ℤ) < 2 ^ (w - 1) := by positivity
  rw [BitVec.toInt_sshiftRight, Int.shiftRight_eq_div_pow, BitVec.msb_eq_toInt]
  push_cast
  by_cases sign : a.toInt < 0
  · rw [decide_eq_true sign, if_pos rfl, BitVec.toInt_allOnes, if_pos (NeZero.pos w)]
    exact (Int.ediv_eq_iff_of_pos positive).mpr ⟨by linarith, by linarith⟩
  · rw [decide_eq_false sign, if_neg Bool.false_ne_true, BitVec.toInt_zero]
    exact Int.ediv_eq_zero_of_lt (not_lt.mp sign) high

omit [NeZero w] half in
/-- Two limbs whose upper one is less than `d` have a quotient of one limb. -/
theorem two_limbs_lt {a1 : BitVec w} (small : a1 < d) (a0 : BitVec w) :
    a1.toNat * 2 ^ w + a0.toNat < 2 ^ w * d.toNat := by
  have step : (a1.toNat + 1) * 2 ^ w ≤ d.toNat * 2 ^ w := Nat.mul_le_mul_right _ small
  have size := a0.isLt
  rw [add_mul, one_mul] at step
  linarith

omit half in
/-- The last part of `udiv1norm`: an estimate that is right or one short is put right. -/
theorem udiv1norm_correct {a1 a0 q : BitVec w} (small : a1 < d)
    (below : q.toNat * d.toNat ≤ a1.toNat * 2 ^ w + a0.toNat)
    (above : a1.toNat * 2 ^ w + a0.toNat < (q.toNat + 2) * d.toNat) :
    let a := join a1 a0 - wide q * wide d - wide d
    (q + (1#w + high a)).toNat * d.toNat + (low a + (high a &&& d)).toNat = a1.toNat * 2 ^ w + a0.toNat ∧
      (low a + (high a &&& d)).toNat < d.toNat := by
  have size := d.isLt
  have h0 := a0.isLt
  have front := toNat_sub_cases (join a1 a0) (wide q * wide d)
  have back := toNat_sub_cases (join a1 a0 - wide q * wide d) (wide d)
  rw [toNat_join, toNat_wide_mul] at front
  rw [toNat_wide, double_pow] at back
  have first : (join a1 a0 - wide q * wide d).toNat + q.toNat * d.toNat =
      a1.toNat * 2 ^ w + a0.toNat := by omega
  have room := two_limbs_lt small a0
  intro a
  have named : a = join a1 a0 - wide q * wide d - wide d := rfl
  rw [← named] at back
  have parts := low_add_high a
  rcases back with ⟨taken, enough⟩ | ⟨borrowed, short⟩
  · -- one more fits
    have rest : a.toNat < d.toNat := by
      rw [add_mul] at above
      omega
    have upper : high a = 0#w := by
      apply BitVec.eq_of_toNat_eq
      rw [toNat_high, BitVec.toNat_zero, Nat.div_eq_of_lt (rest.trans size)]
    have lower : (low a).toNat = a.toNat := by rw [toNat_low, Nat.mod_eq_of_lt (rest.trans size)]
    have next : (q.toNat + 1) * d.toNat ≤ a1.toNat * 2 ^ w + a0.toNat := by
      rw [add_mul, one_mul]
      omega
    have quotient : q.toNat + 1 < 2 ^ w := lt_of_mul_lt_mul_right (next.trans_lt room) (Nat.zero_le _)
    have one : (1#w).toNat = 1 := BitVec.toNat_one (NeZero.pos w)
    rw [upper, BitVec.add_zero, BitVec.zero_and, BitVec.add_zero, lower, BitVec.toNat_add, one,
      Nat.mod_eq_of_lt quotient, add_mul, one_mul]
    exact ⟨by omega, rest⟩
  · have gap : a.toNat + d.toNat = (join a1 a0 - wide q * wide d).toNat + 2 ^ w * 2 ^ w := borrowed
    have upper : high a = BitVec.allOnes w := by
      apply BitVec.eq_of_toNat_eq
      rw [toNat_high, BitVec.toNat_allOnes]
      have whole : 2 ^ w * 2 ^ w = (2 ^ w - 1) * 2 ^ w + 2 ^ w := by
        rw [← Nat.succ_mul, Nat.succ_eq_add_one, Nat.sub_add_cancel Nat.one_le_two_pow]
      refine Nat.div_eq_of_lt_le ?_ ?_
      · omega
      · rw [Nat.sub_add_cancel Nat.one_le_two_pow, ← double_pow]
        exact a.isLt
    have rest : (low a + d).toNat = (join a1 a0 - wide q * wide d).toNat := by
      have mod : (low a + d).toNat = ((join a1 a0 - wide q * wide d).toNat + 2 ^ w * 2 ^ w) % 2 ^ w := by
        rw [← gap, BitVec.toNat_add, toNat_low, Nat.mod_add_mod]
      rw [mod, Nat.add_mul_mod_self_left, Nat.mod_eq_of_lt (by omega)]
    have same : 1#w + BitVec.allOnes w = 0#w := by
      rw [← BitVec.neg_one_eq_allOnes, BitVec.add_right_neg]
    rw [upper, same, BitVec.add_zero, BitVec.allOnes_and, rest]
    exact ⟨by omega, short⟩

omit [NeZero w] half in
/-- An estimate that is not too large has room in a limb. -/
theorem estimate_fits {a1 a0 q : BitVec w} (small : a1 < d) {n : ℕ} (eq : q.toNat = n % 2 ^ w)
    (bounds : (n : ℤ) * d.toNat ≤ a1.toNat * (2 ^ w : ℕ) + a0.toNat ∧
      (a1.toNat * (2 ^ w : ℕ) + a0.toNat : ℤ) < (n + 2) * d.toNat) :
    q.toNat * d.toNat ≤ a1.toNat * 2 ^ w + a0.toNat ∧
      a1.toNat * 2 ^ w + a0.toNat < (q.toNat + 2) * d.toNat := by
  have below : n * d.toNat ≤ a1.toNat * 2 ^ w + a0.toNat := by exact_mod_cast bounds.1
  have room : n < 2 ^ w := lt_of_mul_lt_mul_right (below.trans_lt (two_limbs_lt small a0)) (Nat.zero_le _)
  rw [eq, Nat.mod_eq_of_lt room]
  exact ⟨below, by exact_mod_cast bounds.2⟩

/-- The estimate of `udiv1norm` is the quotient or one less. -/
theorem udiv1norm_estimate {a1 : BitVec w} (small : a1 < d) (a0 : BitVec w) :
    let n1m := a0.sshiftRight (w - 1)
    let q := high (wide (udiv1normInit d) * wide (a1 - n1m) + wide (a0 + (n1m &&& d))) + a1
    q.toNat * d.toNat ≤ a1.toNat * 2 ^ w + a0.toNat ∧
      a1.toNat * 2 ^ w + a0.toNat < (q.toNat + 2) * d.toNat := by
  obtain ⟨e, he, inverse⟩ := udiv1normInit_eq half
  have size := d.isLt
  have h0 := a0.isLt
  have hv := (udiv1normInit d).isLt
  have h1 : a1.toNat < d.toNat := small
  generalize udiv1normInit d = v at inverse hv
  have product (x y : BitVec w) : (wide v * wide x + wide y).toNat = v.toNat * x.toNat + y.toNat := by
    have room := mul_add_lt hv x.isLt y.isLt (Nat.two_pow_pos w)
    rw [BitVec.toNat_add, toNat_wide_mul, toNat_wide, Nat.mod_eq_of_lt (double_pow ▸ room)]
  have whole : ((v.toNat : ℤ) + (2 ^ w : ℕ)) * d.toNat + 1 + e = (2 ^ w : ℕ) * (2 ^ w : ℕ) := by
    exact_mod_cast inverse
  intro n1m q
  simp only [q, n1m, sign_mask]
  cases sign : a0.msb with
  | false =>
    have lowhalf := BitVec.msb_eq_false_iff_two_mul_lt.mp sign
    rw [if_neg Bool.false_ne_true, BitVec.sub_zero, BitVec.zero_and, BitVec.add_zero]
    have parts := Nat.div_add_mod (v.toNat * a1.toNat + a0.toNat) (2 ^ w)
    have rest := Nat.mod_lt (v.toNat * a1.toNat + a0.toNat) (Nat.two_pow_pos w)
    refine estimate_fits small (by rw [BitVec.toNat_add, toNat_high, product])
      (reciprocal_low whole ⟨by omega, by omega⟩ (by omega) (by omega) ⟨by omega, by omega⟩
        ⟨by omega, by omega⟩ ?_ ?_)
    · have exact : (2 ^ w * ((v.toNat * a1.toNat + a0.toNat) / 2 ^ w + a1.toNat) : ℕ) ≤
          (v.toNat + 2 ^ w) * a1.toNat + a0.toNat := by
        rw [mul_add, add_mul]
        omega
      exact_mod_cast exact
    · have exact : (v.toNat + 2 ^ w) * a1.toNat + a0.toNat <
          2 ^ w * ((v.toNat * a1.toNat + a0.toNat) / 2 ^ w + a1.toNat + 1) := by
        rw [mul_add, mul_add, mul_one, add_mul]
        omega
      exact_mod_cast exact
  | true =>
    have highhalf := BitVec.msb_eq_true_iff_two_mul_ge.mp sign
    have next : (a1 - BitVec.allOnes w).toNat = a1.toNat + 1 := by
      have one : (1#w).toNat = 1 := BitVec.toNat_one (NeZero.pos w)
      rw [← BitVec.neg_one_eq_allOnes, BitVec.sub_neg, BitVec.toNat_add, one, Nat.mod_eq_of_lt (by omega)]
    have adjusted : (a0 + d).toNat + 2 ^ w = a0.toNat + d.toNat := by
      have cases := toNat_add_cases a0 d
      omega
    rw [if_pos rfl, BitVec.allOnes_and]
    have parts := Nat.div_add_mod (v.toNat * (a1.toNat + 1) + (a0 + d).toNat) (2 ^ w)
    have rest := Nat.mod_lt (v.toNat * (a1.toNat + 1) + (a0 + d).toNat) (Nat.two_pow_pos w)
    have integral : ((a0 + d).toNat : ℤ) + (2 ^ w : ℕ) = a0.toNat + d.toNat := by exact_mod_cast adjusted
    refine estimate_fits small (by rw [BitVec.toNat_add, toNat_high, product, next])
      (reciprocal_high whole ⟨by omega, by omega⟩ (by omega) (by omega) ⟨by omega, by omega⟩
        ⟨by omega, by omega⟩ ?_ ?_)
    · have exact : ((2 ^ w : ℕ) * ((v.toNat * (a1.toNat + 1) + (a0 + d).toNat) / 2 ^ w : ℕ) : ℤ) ≤
          v.toNat * (a1.toNat + 1) + (a0 + d).toNat := by
        exact_mod_cast (by omega : 2 ^ w * ((v.toNat * (a1.toNat + 1) + (a0 + d).toNat) / 2 ^ w) ≤
          v.toNat * (a1.toNat + 1) + (a0 + d).toNat)
      rw [Nat.cast_add]
      linarith
    · have exact : (v.toNat * (a1.toNat + 1) + (a0 + d).toNat : ℤ) <
          (2 ^ w : ℕ) * (((v.toNat * (a1.toNat + 1) + (a0 + d).toNat) / 2 ^ w : ℕ) : ℤ) +
            (2 ^ w : ℕ) := by
        exact_mod_cast (by omega : v.toNat * (a1.toNat + 1) + (a0 + d).toNat <
          2 ^ w * ((v.toNat * (a1.toNat + 1) + (a0 + d).toNat) / 2 ^ w) + 2 ^ w)
      rw [Nat.cast_add]
      linarith

/-- A division of two limbs by one, through the reciprocal. -/
theorem udiv1norm_eq {a1 : BitVec w} (small : a1 < d) (a0 : BitVec w) :
    (udiv1norm a1 a0 d (udiv1normInit d)).1.toNat * d.toNat +
        (udiv1norm a1 a0 d (udiv1normInit d)).2.toNat = a1.toNat * 2 ^ w + a0.toNat ∧
      (udiv1norm a1 a0 d (udiv1normInit d)).2.toNat < d.toNat := by
  obtain ⟨below, above⟩ := udiv1norm_estimate half small a0
  rw [udiv1norm]
  exact udiv1norm_correct small below above

omit [NeZero w] half in
/-- A step that divides two limbs by one divides, limb after limb, the whole number. -/
theorem divDown_eq {step : BitVec w → BitVec w → BitVec w × BitVec w}
    (exact : ∀ r x, r < d → (step r x).1.toNat * d.toNat + (step r x).2.toNat =
      r.toNat * 2 ^ w + x.toNat ∧ (step r x).2 < d) (taba : List (BitVec w)) {r : BitVec w}
    (small : r < d) :
    (divDown step taba r).1.length = taba.length ∧ (divDown step taba r).2 < d ∧
    value (divDown step taba r).1 * d.toNat + (divDown step taba r).2.toNat =
      value taba + (2 ^ w) ^ taba.length * r.toNat := by
  induction taba with
  | nil => simp [divDown, small]
  | cons x taba ih =>
    obtain ⟨length, next, rest⟩ := ih
    obtain ⟨digit, last⟩ := exact (divDown step taba r).2 x next
    refine ⟨congrArg Nat.succ length, last, ?_⟩
    simp only [divDown, value_cons, List.length_cons, pow_succ']
    linear_combination digit + 2 ^ w * rest

omit [NeZero w] half in
theorem plain_digit {a1 b : BitVec w} (small : a1 < b) (a0 : BitVec w) :
    (low (join a1 a0 / wide b)).toNat * b.toNat + (low (join a1 a0 % wide b)).toNat =
      a1.toNat * 2 ^ w + a0.toNat ∧ low (join a1 a0 % wide b) < b := by
  have h0 := a0.isLt
  have size := b.isLt
  have h1 : a1.toNat < b.toNat := small
  have step : (a1.toNat + 1) * 2 ^ w ≤ b.toNat * 2 ^ w := Nat.mul_le_mul_right _ h1
  have quotient : (a1.toNat * 2 ^ w + a0.toNat) / b.toNat < 2 ^ w := by
    refine Nat.div_lt_of_lt_mul ?_
    rw [add_mul, one_mul] at step
    omega
  have rest : (a1.toNat * 2 ^ w + a0.toNat) % b.toNat < b.toNat := Nat.mod_lt _ (by omega)
  rw [BitVec.lt_def, toNat_low, toNat_low, BitVec.toNat_udiv, BitVec.toNat_umod, toNat_join, toNat_wide,
    Nat.mod_eq_of_lt quotient, Nat.mod_eq_of_lt (rest.trans size)]
  exact ⟨by rw [mul_comm, Nat.div_add_mod], rest⟩

/-- Both ways to divide by one limb give the quotient and the remainder. -/
theorem mpDiv1norm_eq (taba : List (BitVec w)) {r : BitVec w} (small : r < d) :
    (mpDiv1norm taba d r).1.length = taba.length ∧ (mpDiv1norm taba d r).2 < d ∧
    value (mpDiv1norm taba d r).1 * d.toNat + (mpDiv1norm taba d r).2.toNat =
      value taba + (2 ^ w) ^ taba.length * r.toNat := by
  rw [mpDiv1norm]
  split
  · exact divDown_eq (fun r x small => udiv1norm_eq half small x) taba small
  · exact divDown_eq (fun r x small => plain_digit small x) taba small

/-- A digit is the quotient of the first limbs, or the largest limb where that has no room. -/
theorem digit_eq {u1 : BitVec w} (u0 : BitVec w) {inv : BitVec w}
    (known : inv = 0#w ∨ inv = udiv1normInit d) :
    (digit u1 u0 d inv).toNat * d.toNat ≤ u1.toNat * 2 ^ w + u0.toNat ∧
      (u1.toNat * 2 ^ w + u0.toNat < ((digit u1 u0 d inv).toNat + 1) * d.toNat ∨
        (digit u1 u0 d inv).toNat = 2 ^ w - 1) := by
  have size := d.isLt
  rw [digit]
  split
  · rename_i large
    have last : (-1#w).toNat = 2 ^ w - 1 := by
      rw [BitVec.neg_one_eq_allOnes, BitVec.toNat_allOnes]
    rw [last]
    refine ⟨?_, Or.inr rfl⟩
    calc (2 ^ w - 1) * d.toNat ≤ 2 ^ w * u1.toNat := Nat.mul_le_mul (Nat.sub_le _ _) large
      _ ≤ u1.toNat * 2 ^ w + u0.toNat := by rw [mul_comm]; exact Nat.le_add_right _ _
  · rename_i small
    have small : u1 < d := BitVec.not_le.mp small
    have exact {q r : BitVec w} (eq : q.toNat * d.toNat + r.toNat = u1.toNat * 2 ^ w + u0.toNat)
        (rest : r.toNat < d.toNat) : q.toNat * d.toNat ≤ u1.toNat * 2 ^ w + u0.toNat ∧
          (u1.toNat * 2 ^ w + u0.toNat < (q.toNat + 1) * d.toNat ∨ q.toNat = 2 ^ w - 1) := by
      rw [add_mul, one_mul]
      exact ⟨by omega, Or.inl (by omega)⟩
    split
    · rename_i reciprocal
      rw [known.resolve_left reciprocal]
      obtain ⟨eq, rest⟩ := udiv1norm_eq half small u0
      exact exact eq rest
    · obtain ⟨eq, rest⟩ := plain_digit small u0
      exact exact eq rest

end OneLimb

/-! ## Several limbs -/

/-- A pass adds the divisor to the limbs, and the carry to the one above them. -/
theorem addBack_pass {tabb taba : List (BitVec w)} {top : BitVec w} {N : ℤ}
    (same : taba.length = tabb.length)
    (total : (value taba : ℤ) + ((2 ^ w) ^ tabb.length : ℕ) * top.toNat = N) :
    (mpAdd taba tabb 0#w).1.length = tabb.length ∧
      (value (mpAdd taba tabb 0#w).1 : ℤ) + ((2 ^ w) ^ tabb.length : ℕ) *
        (top.toNat + if (mpAdd taba tabb 0#w).2 ≠ 0#w then 1 else 0) = N + value tabb := by
  have zero : (0#w).toNat = 0 := BitVec.toNat_zero
  obtain ⟨length, bit, sum⟩ := mpAdd_eq same (zero ▸ Nat.zero_le 1 : (0#w).toNat ≤ 1)
  rw [same] at length sum
  rw [zero, add_zero] at sum
  have sum : (value (mpAdd taba tabb 0#w).1 : ℤ) + ((2 ^ w) ^ tabb.length : ℕ) *
      (mpAdd taba tabb 0#w).2.toNat = value taba + value tabb := by exact_mod_cast sum
  have carry : ((mpAdd taba tabb 0#w).2.toNat : ℤ) =
      if (mpAdd taba tabb 0#w).2 ≠ 0#w then 1 else 0 := by
    split
    · rename_i some
      have positive := mt (BitVec.eq_of_toNat_eq (y := 0#w)) some
      rw [zero] at positive
      omega
    · rename_i none
      rw [not_not.mp none, zero, Nat.cast_zero]
  refine ⟨length, ?_⟩
  rw [← carry, mul_add]
  linarith

/-- Adding the divisor back ends as soon as the number is not negative any more. -/
theorem addBack_eq {tabb : List (BitVec w)} (fuel : ℕ) (q : BitVec w) {taba : List (BitVec w)}
    {top : BitVec w} {R : ℤ} (same : taba.length = tabb.length) (neg : R < 0)
    (near : 0 ≤ R + fuel * value tabb)
    (total : (value taba : ℤ) + ((2 ^ w) ^ tabb.length : ℕ) * top.toNat =
      R + ((2 ^ w) ^ tabb.length : ℕ) * (2 ^ w : ℕ)) :
    ∃ j : ℕ, ∃ rem, addBack tabb fuel q taba top = some (q - BitVec.ofNat w j, rem) ∧
      rem.length = tabb.length ∧ (value rem : ℤ) = R + j * value tabb ∧ value rem < value tabb := by
  induction fuel generalizing q taba top R with
  | zero =>
    rw [Nat.cast_zero, zero_mul, add_zero] at near
    exact absurd neg (not_lt.mpr near)
  | succ fuel ih =>
    obtain ⟨length, sum⟩ := addBack_pass same total
    have closer : 0 ≤ R + value tabb + fuel * value tabb := by
      rw [Nat.cast_succ] at near
      linarith
    -- the pass that is not the last one
    have again (top : BitVec w) (total : (value (mpAdd taba tabb 0#w).1 : ℤ) +
        ((2 ^ w) ^ tabb.length : ℕ) * top.toNat =
          R + value tabb + ((2 ^ w) ^ tabb.length : ℕ) * (2 ^ w : ℕ)) :
        ∃ j : ℕ, ∃ rem, addBack tabb fuel (q - 1#w) (mpAdd taba tabb 0#w).1 top =
            some (q - BitVec.ofNat w j, rem) ∧ rem.length = tabb.length ∧
          (value rem : ℤ) = R + j * value tabb ∧ value rem < value tabb := by
      have still : R + value tabb < 0 := by
        have below : (top.toNat : ℤ) + 1 ≤ (2 ^ w : ℕ) := by exact_mod_cast top.isLt
        have bound := mul_le_mul_of_nonneg_left below (Int.natCast_nonneg ((2 ^ w) ^ tabb.length))
        have room : (value (mpAdd taba tabb 0#w).1 : ℤ) < ((2 ^ w) ^ tabb.length : ℕ) := by
          exact_mod_cast length ▸ value_lt (mpAdd taba tabb 0#w).1
        linarith
      obtain ⟨j, rem, run, lengths, eq, less⟩ := ih (q - 1#w) length still closer total
      refine ⟨j + 1, rem, ?_, lengths, ?_, less⟩
      · rw [run, BitVec.sub_sub, BitVec.ofNat_add, BitVec.add_comm]
      · rw [eq]
        push_cast
        ring
    rw [addBack]
    by_cases carry : (mpAdd taba tabb 0#w).2 = 0#w
    · rw [if_neg (not_not.mpr carry), add_zero] at sum
      rw [if_neg (not_not.mpr carry)]
      exact again top (by linarith)
    · rw [if_pos carry] at sum ⊢
      have next := toNat_add_cases top 1#w
      have below := top.isLt
      rw [BitVec.toNat_one (NeZero.pos w)] at next
      by_cases wrap : top + 1#w = 0#w
      · rw [if_pos wrap]
        rw [wrap, BitVec.toNat_zero] at next
        have whole : (top.toNat : ℤ) + 1 = (2 ^ w : ℕ) := by
          exact_mod_cast (by omega : top.toNat + 1 = 2 ^ w)
        rw [whole] at sum
        have exact : (value (mpAdd taba tabb 0#w).1 : ℤ) = R + value tabb := by linarith
        have less : (value (mpAdd taba tabb 0#w).1 : ℤ) < value tabb := by linarith
        refine ⟨1, _, rfl, length, ?_, by exact_mod_cast less⟩
        rw [exact, Nat.cast_one, one_mul]
      · rw [if_neg wrap]
        have some := mt (BitVec.eq_of_toNat_eq (y := 0#w)) wrap
        rw [BitVec.toNat_zero] at some
        have up : ((top + 1#w).toNat : ℤ) = top.toNat + 1 := by
          exact_mod_cast (by omega : (top + 1#w).toNat = top.toNat + 1)
        refine again (top + 1#w) ?_
        rw [up]
        linarith

/-- The digit was too large. Adding back makes it and the remainder right. -/
theorem addBack_correct {tabb : List (BitVec w)} {fuel : ℕ} {q : BitVec w} {taba : List (BitVec w)}
    {top : BitVec w} {N : ℕ} (same : taba.length = tabb.length) (large : N < q.toNat * value tabb)
    (near : q.toNat * value tabb ≤ N + fuel * value tabb)
    (total : (value taba : ℤ) + ((2 ^ w) ^ tabb.length : ℕ) * top.toNat =
      N - q.toNat * value tabb + ((2 ^ w) ^ tabb.length : ℕ) * (2 ^ w : ℕ)) :
    ∃ q' rem, addBack tabb fuel q taba top = some (q', rem) ∧ rem.length = tabb.length ∧
      q'.toNat * value tabb + value rem = N ∧ value rem < value tabb := by
  have large : (N : ℤ) < q.toNat * value tabb := by exact_mod_cast large
  have near : (q.toNat * value tabb : ℤ) ≤ N + fuel * value tabb := by exact_mod_cast near
  obtain ⟨j, rem, run, length, eq, less⟩ := addBack_eq fuel q same (by linarith) (by linarith) total
  have few : j ≤ q.toNat := by
    by_contra many
    have many : (q.toNat : ℤ) + 1 ≤ j := by exact_mod_cast not_le.mp many
    have scaled := mul_le_mul_of_nonneg_right many (Int.natCast_nonneg (value tabb))
    have less : (value rem : ℤ) < value tabb := by exact_mod_cast less
    linarith [Int.natCast_nonneg N]
  have count : (BitVec.ofNat w j).toNat = j := by
    rw [BitVec.toNat_ofNat, Nat.mod_eq_of_lt (few.trans_lt q.isLt)]
  have quotient : ((q - BitVec.ofNat w j).toNat : ℤ) = q.toNat - j := by
    have cases := toNat_sub_cases q (BitVec.ofNat w j)
    rw [count] at cases
    have eq : (q - BitVec.ofNat w j).toNat + j = q.toNat := by omega
    have eq : ((q - BitVec.ofNat w j).toNat : ℤ) + j = q.toNat := by exact_mod_cast eq
    linarith
  refine ⟨_, rem, run, length, ?_, less⟩
  have exact : ((q - BitVec.ofNat w j).toNat * value tabb + value rem : ℤ) = N := by
    rw [quotient, eq]
    ring
  exact_mod_cast exact

section Several
variable {lower : List (BitVec w)} {b1 inv : BitVec w} (half : 2 ^ w ≤ 2 * b1.toNat)
  (known : inv = 0#w ∨ inv = udiv1normInit b1) {fuel : ℕ}
include half known

/-- How far the digit can be off: it never falls short, and is at most two too large. -/
theorem digit_near {rest : List (BitVec w)} (same : rest.length = lower.length) (u0 u1 : BitVec w)
    (room : value (rest ++ [u0, u1]) < 2 ^ w * value (lower ++ [b1])) :
    (digit u1 u0 b1 inv).toNat * value (lower ++ [b1]) <
        value (rest ++ [u0, u1]) + 2 * value (lower ++ [b1]) ∧
      value (rest ++ [u0, u1]) <
        (digit u1 u0 b1 inv).toNat * value (lower ++ [b1]) + value (lower ++ [b1]) := by
  obtain ⟨below, above⟩ := @digit_eq w _ b1 half u1 u0 inv known
  generalize digit u1 u0 b1 inv = q at below above
  have parts : value (rest ++ [u0, u1]) =
      (u1.toNat * 2 ^ w + u0.toNat) * (2 ^ w) ^ lower.length + value rest := by
    rw [value_append, value_cons, value_cons, value_nil, same]
    ring
  have divisor : value (lower ++ [b1]) = b1.toNat * (2 ^ w) ^ lower.length + value lower := by
    rw [value_concat]
    ring
  obtain ⟨near, digit⟩ := estimate (B := (2 ^ w : ℕ)) (b := b1.toNat)
    (u := u1.toNat * (2 ^ w : ℕ) + u0.toNat) (P := ((2 ^ w) ^ lower.length : ℕ)) (q := q.toNat)
    (l := value lower) (r := value rest)
    (by exact_mod_cast half) ⟨Int.natCast_nonneg _, by exact_mod_cast value_lt lower⟩
    ⟨Int.natCast_nonneg _, by exact_mod_cast same ▸ value_lt rest⟩
    ⟨Int.natCast_nonneg _, by exact_mod_cast q.isLt⟩ (by exact_mod_cast below)
    (above.imp (fun less => by exact_mod_cast less) fun last => by
      rw [last, Nat.cast_sub Nat.one_le_two_pow, Nat.cast_one])
    (by rw [parts, divisor] at room; exact_mod_cast room)
  rw [← add_one_mul, parts, divisor]
  exact ⟨by exact_mod_cast near, by exact_mod_cast digit⟩

variable (enough : 2 ≤ fuel)
include enough

/-- A pass of the loop finds the digit and the remainder of its window. -/
theorem divStep_eq {rest : List (BitVec w)} (same : rest.length = lower.length) (u0 u1 : BitVec w)
    (room : value (rest ++ [u0, u1]) < 2 ^ w * value (lower ++ [b1])) :
    ∃ q rem, divStep fuel (lower ++ [b1]) b1 inv (rest ++ [u0, u1]) = some (q, rem) ∧
      rem.length = lower.length + 1 ∧
      q.toNat * value (lower ++ [b1]) + value rem = value (rest ++ [u0, u1]) ∧
      value rem < value (lower ++ [b1]) := by
  have length : (lower ++ [b1]).length = rest.length + 1 := by simp [same]
  have first : (rest ++ [u0, u1])[(lower ++ [b1]).length]? = some u1 := by simp [length]
  have second : (rest ++ [u0, u1])[(lower ++ [b1]).length - 1]? = some u0 := by simp [length]
  have front : (rest ++ [u0, u1]).take (lower ++ [b1]).length = rest ++ [u0] := by
    rw [length, List.take_append, List.take_of_length_le (Nat.le_succ _), Nat.add_sub_cancel_left]
    rfl
  have sizes : (rest ++ [u0]).length = (lower ++ [b1]).length := by simp [same]
  have split : value (rest ++ [u0, u1]) =
      value (rest ++ [u0]) + (2 ^ w) ^ (lower ++ [b1]).length * u1.toNat := by
    rw [← sizes, ← value_concat, List.append_assoc, List.singleton_append]
  obtain ⟨near, digit⟩ := digit_near half known same u0 u1 room
  simp only [divStep, first, second, front, Option.bind_eq_bind, Option.bind_some]
  generalize QuickJs.digit u1 u0 b1 inv = q at near digit
  -- what the subtraction leaves, and what it takes from the limb above
  obtain ⟨lengths, taken⟩ := mpSubMul1_eq sizes q 0#w
  generalize mpSubMul1 (rest ++ [u0]) (lower ++ [b1]) q 0#w = r at lengths taken
  have limbs := value_lt r.1
  rw [lengths, sizes] at limbs
  rw [BitVec.toNat_zero, add_zero, sizes] at taken
  have limit := value_lt (lower ++ [b1])
  have difference := toNat_sub_cases u1 r.2
  have hr := r.2.isLt
  generalize value (rest ++ [u0, u1]) = N at split near digit ⊢
  have balance : value r.1 + (2 ^ w) ^ (lower ++ [b1]).length * u1.toNat + q.toNat * value (lower ++ [b1]) =
      N + (2 ^ w) ^ (lower ++ [b1]).length * r.2.toNat := by linarith
  split
  · rename_i borrow
    have borrow : u1.toNat < (u1 - r.2).toNat := borrow
    have short : u1.toNat + 1 ≤ r.2.toNat := by omega
    have scaled := Nat.mul_le_mul_left ((2 ^ w) ^ (lower ++ [b1]).length) short
    have plenty := Nat.mul_le_mul_right (value (lower ++ [b1])) enough
    have total : (value r.1 : ℤ) + ((2 ^ w) ^ (lower ++ [b1]).length : ℕ) * (u1 - r.2).toNat =
        N - q.toNat * value (lower ++ [b1]) + ((2 ^ w) ^ (lower ++ [b1]).length : ℕ) * (2 ^ w : ℕ) := by
      have top : ((u1 - r.2).toNat : ℤ) = u1.toNat + (2 ^ w : ℕ) - r.2.toNat := by omega
      have balance : (value r.1 : ℤ) + ((2 ^ w) ^ (lower ++ [b1]).length : ℕ) * u1.toNat +
          q.toNat * value (lower ++ [b1]) = N + ((2 ^ w) ^ (lower ++ [b1]).length : ℕ) * r.2.toNat := by
        exact_mod_cast balance
      rw [top]
      linarith
    have large : N < q.toNat * value (lower ++ [b1]) := by linarith
    have enough : q.toNat * value (lower ++ [b1]) ≤ N + fuel * value (lower ++ [b1]) := by linarith
    obtain ⟨q', rem, run, length', exact, less⟩ :=
      addBack_correct (lengths.trans sizes) large enough total
    exact ⟨q', rem, run, by rw [length', length, same], exact, less⟩
  · rename_i borrow
    have borrow : ¬ u1.toNat < (u1 - r.2).toNat := borrow
    have level : r.2.toNat ≤ u1.toNat := by omega
    have equal : u1.toNat = r.2.toNat := by
      by_contra other
      have more : r.2.toNat + 1 ≤ u1.toNat := by omega
      have scaled := Nat.mul_le_mul_left ((2 ^ w) ^ (lower ++ [b1]).length) more
      linarith
    rw [equal] at balance
    exact ⟨q, r.1, rfl, by rw [lengths, sizes, length, same], by linarith, by linarith⟩

/-- The loop goes through the limbs like a long division. -/
theorem divLoop_eq (taba : List (BitVec w)) {top : List (BitVec w)} (same : top.length = lower.length + 1)
    (small : value top < value (lower ++ [b1])) :
    ∃ q rem, divLoop fuel (lower ++ [b1]) b1 inv taba top = some (q, rem) ∧ q.length = taba.length ∧
      rem.length = lower.length + 1 ∧ value rem < value (lower ++ [b1]) ∧
      value q * value (lower ++ [b1]) + value rem = value taba + (2 ^ w) ^ taba.length * value top := by
  induction taba with
  | nil => exact ⟨[], top, rfl, rfl, same, small, by simp⟩
  | cons x taba ih =>
    obtain ⟨q, window, run, length, lengths, less, eq⟩ := ih
    obtain ⟨front, u1, rfl⟩ := (List.eq_nil_or_concat' window).resolve_left
      (List.ne_nil_of_length_eq_add_one lengths)
    obtain ⟨rest, u0, parts⟩ := (List.eq_nil_or_concat' (x :: front)).resolve_left
      (List.cons_ne_nil x front)
    have sizes : rest.length = lower.length := by
      have total := congrArg List.length parts
      simp only [List.length_cons, List.length_append, List.length_nil] at total lengths
      omega
    have whole : x :: (front ++ [u1]) = rest ++ [u0, u1] := by
      rw [← List.cons_append, parts, List.append_assoc, List.singleton_append]
    have room : value (rest ++ [u0, u1]) < 2 ^ w * value (lower ++ [b1]) := by
      have step : 2 ^ w * (value (front ++ [u1]) + 1) ≤ 2 ^ w * value (lower ++ [b1]) :=
        Nat.mul_le_mul_left _ less
      have hx := x.isLt
      rw [← whole, value_cons]
      rw [mul_add, mul_one] at step
      omega
    obtain ⟨d, rem, step, length', digit, less'⟩ := divStep_eq half known enough sizes u0 u1 room
    refine ⟨d :: q, rem, ?_, congrArg Nat.succ length, length', less', ?_⟩
    · rw [divLoop, run]
      simp only [Option.bind_eq_bind, Option.bind_some, whole, step]
      rfl
    · rw [← whole, value_cons] at digit
      simp only [value_cons, List.length_cons, pow_succ']
      linear_combination digit + 2 ^ w * eq

end Several

omit [NeZero w] in
theorem compareDown_eq {a b : List (BitVec w)} (same : a.length = b.length) :
    compareDown a b = if value a < value b then .lt else if value b < value a then .gt else .eq := by
  induction a generalizing b with
  | nil =>
    obtain rfl := List.length_eq_zero_iff.mp same.symm
    simp [compareDown]
  | cons x a ih =>
    obtain ⟨y, b, rfl⟩ := List.exists_cons_of_length_eq_add_one same.symm
    have below := digit_add_lt_iff (m := value a) (n := value b) x.isLt y.isLt
    have above := digit_add_lt_iff (m := value b) (n := value a) y.isLt x.isLt
    simp only [compareDown, ih (Nat.succ.inj same), value_cons, below, above, ← BitVec.lt_def]
    rcases lt_trichotomy (value a) (value b) with less | equal | more
    · simp [less]
    · rcases lt_trichotomy x.toNat y.toNat with smaller | same | larger
      · have ne : x ≠ y := fun eq => smaller.ne (congrArg BitVec.toNat eq)
        simp [equal, BitVec.lt_def, smaller, ne]
      · simp [equal, BitVec.eq_of_toNat_eq same]
      · have ne : x ≠ y := fun eq => larger.ne (congrArg BitVec.toNat eq.symm)
        simp [equal, BitVec.lt_def, larger, larger.not_gt, ne]
    · simp [more, more.not_gt, more.ne']

theorem one_ne_zero_limb : (1#w) ≠ 0#w := fun eq => by
  have one : (1#w).toNat = 1 := BitVec.toNat_one (NeZero.pos w)
  rw [eq, BitVec.toNat_zero] at one
  exact absurd one (by decide)

section Normalized
variable {lower : List (BitVec w)} {b1 : BitVec w} (half : 2 ^ w ≤ 2 * b1.toNat)
include half

/-- The first digit of the quotient is 0 or 1, and what is left of the first limbs is below
the divisor. -/
theorem first_digit {top : List (BitVec w)} (same : top.length = (lower ++ [b1]).length) :
    let q := if compareDown top (lower ++ [b1]) = .lt then 0#w else 1#w
    let left := if q ≠ 0#w then (mpSub top (lower ++ [b1]) 0#w).1 else top
    left.length = lower.length + 1 ∧ value left < value (lower ++ [b1]) ∧
      q.toNat * value (lower ++ [b1]) + value left = value top := by
  have length : (lower ++ [b1]).length = lower.length + 1 := by simp
  rw [compareDown_eq same]
  by_cases less : value top < value (lower ++ [b1])
  · simp only [if_pos less, ne_eq, not_true_eq_false, if_false, if_true, BitVec.toNat_zero, zero_mul,
      zero_add]
    exact ⟨same.trans length, less, trivial⟩
  · have order : ¬ (if value top < value (lower ++ [b1]) then Ordering.lt
        else if value (lower ++ [b1]) < value top then .gt else .eq) = .lt := by
      rw [if_neg less]
      split <;> exact Ordering.noConfusion
    obtain ⟨sizes, bit, eq⟩ := mpSub_eq same (k := 0#w) (by rw [BitVec.toNat_zero]; exact Nat.zero_le 1)
    have room := value_lt (mpSub top (lower ++ [b1]) 0#w).1
    have full := value_lt top
    rw [sizes] at room
    rw [BitVec.toNat_zero, add_zero] at eq
    have one : (1#w).toNat = 1 := BitVec.toNat_one (NeZero.pos w)
    have none : (mpSub top (lower ++ [b1]) 0#w).2.toNat = 0 := by
      by_contra some
      have bit : (mpSub top (lower ++ [b1]) 0#w).2.toNat = 1 := by omega
      rw [bit, mul_one] at eq
      omega
    rw [none, mul_zero, add_zero] at eq
    have twice : (2 ^ w) ^ top.length ≤ 2 * value (lower ++ [b1]) := by
      rw [same, length, value_concat, pow_succ, mul_add]
      calc (2 ^ w) ^ lower.length * 2 ^ w ≤ (2 ^ w) ^ lower.length * (2 * b1.toNat) :=
            Nat.mul_le_mul_left _ half
        _ = 2 * ((2 ^ w) ^ lower.length * b1.toNat) := by ring
        _ ≤ 2 * value lower + 2 * ((2 ^ w) ^ lower.length * b1.toNat) := Nat.le_add_left _ _
    simp only [if_neg order, ne_eq, one_ne_zero_limb, not_false_eq_true, if_true, one, one_mul]
    exact ⟨sizes.trans (same.trans length), by omega, by omega⟩

/-- The division of two numbers without sign, the divisor's highest bit being set. -/
theorem mpDivnorm_eq {fuel : ℕ} (enough : 2 ≤ fuel) {taba : List (BitVec w)}
    (longer : lower.length + 1 ≤ taba.length) :
    ∃ q rem, mpDivnorm fuel taba (lower ++ [b1]) = some (q, rem) ∧
      q.length = taba.length - lower.length ∧ rem.length = lower.length + 1 ∧
      value q * value (lower ++ [b1]) + value rem = value taba ∧ value rem < value (lower ++ [b1]) := by
  have length : (lower ++ [b1]).length = lower.length + 1 := by simp
  have last : (lower ++ [b1])[(lower ++ [b1]).length - 1]? = some b1 := by simp
  simp only [mpDivnorm, last, Option.bind_eq_bind, Option.bind_some]
  by_cases single : (lower ++ [b1]).length = 1
  · have empty : lower = [] := List.length_eq_zero_iff.mp (by omega)
    subst empty
    have positive : 0#w < b1 := by
      have base := Nat.two_pow_pos w
      rw [BitVec.lt_def, BitVec.toNat_zero]
      omega
    obtain ⟨lengths, less, eq⟩ := mpDiv1norm_eq half taba positive
    rw [if_pos single]
    refine ⟨_, _, rfl, lengths, rfl, ?_, ?_⟩
    · rw [BitVec.toNat_zero, mul_zero, add_zero] at eq
      simpa using eq
    · simp only [List.nil_append, value_cons, value_nil, mul_zero, add_zero]
      exact less
  · rw [if_neg single]
    have room : taba.length - (lower ++ [b1]).length ≤ taba.length := Nat.sub_le _ _
    have same : (taba.drop (taba.length - (lower ++ [b1]).length)).length = (lower ++ [b1]).length := by
      rw [List.length_drop]
      omega
    obtain ⟨lengths, less, first⟩ := first_digit half same
    have known : (if taba.length - (lower ++ [b1]).length ≥ UDIV1NORM_THRESHOLD then udiv1normInit b1
        else 0#w) = 0#w ∨ (if taba.length - (lower ++ [b1]).length ≥ UDIV1NORM_THRESHOLD then
          udiv1normInit b1 else 0#w) = udiv1normInit b1 := by
      split
      · exact Or.inr rfl
      · exact Or.inl rfl
    obtain ⟨q, rem, run, count, sizes, small, eq⟩ := divLoop_eq half known enough
      (taba.take (taba.length - (lower ++ [b1]).length)) lengths less
    have whole := value_append (taba.take (taba.length - (lower ++ [b1]).length))
      (taba.drop (taba.length - (lower ++ [b1]).length))
    rw [List.take_append_drop] at whole
    rw [run]
    refine ⟨_, _, rfl, ?_, sizes, ?_, small⟩
    · rw [List.length_append, count, List.length_take, List.length_singleton, Nat.min_eq_left room]
      omega
    · rw [value_concat, count, whole]
      linear_combination eq + (2 ^ w) ^ (taba.take (taba.length - (lower ++ [b1]).length)).length * first

end Normalized

end MorelloWorkloads.QuickJs
