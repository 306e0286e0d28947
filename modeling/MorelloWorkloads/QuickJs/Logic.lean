import MorelloWorkloads.Lib.WordBits
import MorelloWorkloads.QuickJs.Arithmetic

/-! The bitwise operations on integers of any size are those of the integers, a negative one
with its sign repeated without end. -/
namespace MorelloWorkloads.QuickJs

open Words

variable {w : ℕ}

/-- The three opcodes that `js_bigint_logic` takes. It aborts on every other. -/
inductive OPCodeEnum where
  | opOr
  | opAnd
  | opXor

def OPCodeEnum.limb : OPCodeEnum → BitVec w → BitVec w → BitVec w
  | .opOr => fun x y => x ||| y
  | .opAnd => fun x y => x &&& y
  | .opXor => fun x y => x ^^^ y

/-- The limbs both have, and the sign of the shorter one against the rest. -/
def logicLoops (op : OPCodeEnum) (a b : List (BitVec w)) : List (BitVec w) :=
  let bSign := -jsBigintSign b
  List.zipWith op.limb (a.take b.length) b ++ (a.drop b.length).map (op.limb · bSign)

def jsBigintLogic (a b : List (BitVec w)) (op : OPCodeEnum) : Except String (List (BitVec w)) := do
  let (a, b) := if a.length < b.length then (b, a) else (a, b)
  jsBigintNew w a.length
  return jsBigintNormalize (logicLoops op a b)

def jsBigintNot (a : List (BitVec w)) : Except String (List (BitVec w)) := do
  jsBigintNew w a.length
  return a.map (~~~·)

/-! ## What the opcodes do to one bit -/

def OPCodeEnum.bit : OPCodeEnum → Bool → Bool → Bool
  | .opOr => or
  | .opAnd => and
  | .opXor => xor

def OPCodeEnum.number : OPCodeEnum → ℤ → ℤ → ℤ
  | .opOr => Int.lor
  | .opAnd => Int.land
  | .opXor => Int.xor

theorem limb_bit (op : OPCodeEnum) (x y : BitVec w) (k : ℕ) :
    (op.limb x y).getLsbD k = op.bit (x.getLsbD k) (y.getLsbD k) := by
  cases op with
  | opOr => exact BitVec.getLsbD_or
  | opAnd => exact BitVec.getLsbD_and
  | opXor => exact BitVec.getLsbD_xor

theorem number_bit (op : OPCodeEnum) (x y : ℤ) (k : ℕ) :
    (op.number x y).testBit k = op.bit (x.testBit k) (y.testBit k) := by
  cases op with
  | opOr => exact Int.testBit_lor x y k
  | opAnd => exact Int.testBit_land x y k
  | opXor => exact Int.testBit_lxor x y k

theorem bit_clear (op : OPCodeEnum) : op.bit false false = false := by
  cases op <;> rfl

theorem number_comm (op : OPCodeEnum) (x y : ℤ) : op.number x y = op.number y x := by
  refine eq_of_testBit fun k => ?_
  rw [number_bit, number_bit]
  cases op with
  | opOr => exact Bool.or_comm _ _
  | opAnd => exact Bool.and_comm _ _
  | opXor => exact Bool.xor_comm _ _

variable [NeZero w]

/-! ## The operations -/

/-- The loops run over the longer number and the shorter one with its sign repeated. -/
theorem logicLoops_eq (op : OPCodeEnum) {a b : List (BitVec w)} (some : b ≠ [])
    (longer : b.length ≤ a.length) : logicLoops op a b =
      List.zipWith op.limb a (b ++ List.replicate (a.length - b.length) (extension b)) := by
  have front : (a.take b.length).length = b.length := by
    rw [List.length_take]
    omega
  have rest : (a.drop b.length).map (op.limb · (extension b)) =
      List.zipWith op.limb (a.drop b.length) (List.replicate (a.length - b.length) (extension b)) := by
    rw [← List.length_drop, ← List.map_const', List.zipWith_map_right, List.zipWith_self]
  rw [logicLoops, neg_sign some, rest, ← List.zipWith_append front, List.take_append_drop]

theorem signed_logicLoops (op : OPCodeEnum) {a b : List (BitVec w)} (ha : a ≠ []) (hb : b ≠ [])
    (longer : b.length ≤ a.length) :
    signed (logicLoops op a b) = op.number (signed a) (signed b) := by
  have same : a.length = (b ++ List.replicate (a.length - b.length) (extension b)).length := by
    rw [List.length_append, List.length_replicate]
    omega
  refine eq_of_testBit fun k => ?_
  rw [logicLoops_eq op hb longer, number_bit,
    testBit_signed_zipWith (fun x y k _ => limb_bit op x y k) (bit_clear op) ha same,
    (extend_replicate b _).1]

theorem logicLoops_ne_nil (op : OPCodeEnum) {a b : List (BitVec w)} (ha : a ≠ []) (hb : b ≠ [])
    (longer : b.length ≤ a.length) : logicLoops op a b ≠ [] := by
  refine List.ne_nil_of_length_pos ?_
  have positive := List.length_pos_of_ne_nil ha
  rw [logicLoops_eq op hb longer, List.length_zipWith, List.length_append, List.length_replicate]
  omega

theorem jsBigintLogic_exact {a b : List (BitVec w)} (ha : a ≠ []) (hb : b ≠ []) (op : OPCodeEnum) :
    Computes (jsBigintLogic a b op) (max a.length b.length) (op.number (signed a) (signed b)) := by
  by_cases shorter : a.length < b.length
  · rw [max_eq_right shorter.le]
    refine computes_of_new (by simp only [jsBigintLogic, if_pos shorter]; rfl) ?_
    obtain ⟨normal, same⟩ := normalize_eq (logicLoops_ne_nil op hb ha shorter.le)
    refine ⟨_, rfl, normal, same.trans ?_⟩
    rw [signed_logicLoops op hb ha shorter.le, number_comm]
  · have longer := not_lt.mp shorter
    rw [max_eq_left longer]
    refine computes_of_new (by simp only [jsBigintLogic, if_neg shorter]; rfl) ?_
    obtain ⟨normal, same⟩ := normalize_eq (logicLoops_ne_nil op ha hb longer)
    exact ⟨_, rfl, normal, same.trans (signed_logicLoops op ha hb longer)⟩

/-- No normalization is needed: the complement is as short as the number. -/
theorem normal_not {a : List (BitVec w)} (normal : Normal a) : Normal (a.map (~~~·)) := by
  obtain ⟨l, x, rfl⟩ := (List.eq_nil_or_concat' a).resolve_left normal.1
  rw [List.map_append, List.map_singleton]
  by_cases some : l = []
  · subst some
    exact normal_singleton _
  · have other : l.map (~~~·) ≠ [] := List.map_eq_nil_iff.not.mpr some
    refine (normal_concat other).mpr fun eq => (normal_concat some).mp normal ?_
    have sign : negative (l.map (~~~·)) = !negative l := by
      rw [Bool.eq_iff_iff, negative_iff, signed_not some, Bool.not_eq_true', ← Bool.not_eq_true,
        negative_iff]
      omega
    rw [← BitVec.not_not (b := x), eq, extension, extension, sign]
    cases negative l with
    | true => exact BitVec.not_zero
    | false => exact BitVec.not_allOnes

theorem jsBigintNot_exact {a : List (BitVec w)} (normal : Normal a) :
    Computes (jsBigintNot a) a.length (-1 - signed a) :=
  computes_of_new rfl ⟨_, rfl, normal_not normal, signed_not normal.1⟩

/-- The bitwise operations are those of the integers in two's complement without end, for
numbers of any two lengths and signs. -/
theorem logic_exact {a b : List (BitVec w)} (ha : Normal a) (hb : Normal b) :
    Computes (jsBigintLogic a b .opOr) (max a.length b.length) (Int.lor (signed a) (signed b)) ∧
    Computes (jsBigintLogic a b .opAnd) (max a.length b.length) (Int.land (signed a) (signed b)) ∧
    Computes (jsBigintLogic a b .opXor) (max a.length b.length) (Int.xor (signed a) (signed b)) ∧
    Computes (jsBigintNot a) a.length (Int.lnot (signed a)) := by
  have complement : Int.lnot (signed a) = -1 - signed a := by
    cases signed a with
    | ofNat n =>
      rw [Int.lnot, Int.negSucc_eq, Int.ofNat_eq_natCast]
      ring
    | negSucc n =>
      rw [Int.lnot, Int.negSucc_eq]
      ring
  exact ⟨jsBigintLogic_exact ha.1 hb.1 .opOr, jsBigintLogic_exact ha.1 hb.1 .opAnd,
    jsBigintLogic_exact ha.1 hb.1 .opXor, complement ▸ jsBigintNot_exact ha⟩

theorem logic_exact_limbs :
    Computes (jsBigintLogic [5#64, -1#64] [6#64] .opAnd) 2 4 ∧
      Computes (jsBigintNot [5#64, -1#64]) 2 (2 ^ 64 - 6) := by
  have first : Normal [5#64, -1#64] := by decide +kernel
  have second : Normal [6#64] := by decide +kernel
  obtain ⟨-, meet, -, complement⟩ := logic_exact first second
  have number : Int.land (signed [5#64, -1#64]) (signed [6#64]) = 4 := by decide +kernel
  have other : Int.lnot (signed [5#64, -1#64]) = 2 ^ 64 - 6 := by decide +kernel
  rw [number] at meet
  rw [other] at complement
  exact ⟨meet, complement⟩

end MorelloWorkloads.QuickJs
