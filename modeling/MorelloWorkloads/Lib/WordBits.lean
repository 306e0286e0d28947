import Mathlib.Data.Int.Bitwise
import MorelloWorkloads.Lib.Words

/-! The bits of the numbers in lists of machine words: those of the words, and the sign
above them. -/
namespace Words

variable {w : ℕ}

/-- An integer is known by its bits. -/
theorem eq_of_testBit {x y : ℤ} (bits : ∀ k, x.testBit k = y.testBit k) : x = y := by
  -- of two numbers with different signs one has a bit clear above all others, the other has it set
  have apart (m n : ℕ) : ∃ k, m.testBit k ≠ !n.testBit k := by
    refine ⟨m + n, ?_⟩
    have below {i : ℕ} (small : i ≤ m + n) : i.testBit (m + n) = false :=
      Nat.testBit_lt_two_pow (Nat.lt_two_pow_self.trans_le (Nat.pow_le_pow_right two_pos small))
    rw [below (Nat.le_add_right m n), below (Nat.le_add_left n m)]
    exact Bool.false_ne_true
  cases x with
  | ofNat m =>
    cases y with
    | ofNat n => exact congrArg Int.ofNat (Nat.eq_of_testBit_eq bits)
    | negSucc n =>
      obtain ⟨k, ne⟩ := apart m n
      exact absurd (bits k) ne
  | negSucc m =>
    cases y with
    | ofNat n =>
      obtain ⟨k, ne⟩ := apart n m
      exact absurd (bits k).symm ne
    | negSucc n =>
      exact congrArg Int.negSucc (Nat.eq_of_testBit_eq fun k => Bool.not_inj (bits k))

theorem testBit_value_cons (x : BitVec w) (l : List (BitVec w)) (k : ℕ) :
    (value (x :: l)).testBit k = if k < w then x.getLsbD k else (value l).testBit (k - w) := by
  rw [value_cons, add_comm, Nat.testBit_two_pow_mul_add _ x.isLt]
  rfl

/-- Two lists combined word by word have their bits combined. -/
theorem testBit_zipWith {f : BitVec w → BitVec w → BitVec w} {g : Bool → Bool → Bool}
    (bits : ∀ x y k, k < w → (f x y).getLsbD k = g (x.getLsbD k) (y.getLsbD k))
    (clear : g false false = false) {l m : List (BitVec w)} (same : l.length = m.length) (k : ℕ) :
    (value (List.zipWith f l m)).testBit k = g ((value l).testBit k) ((value m).testBit k) := by
  induction l generalizing m k with
  | nil =>
    obtain rfl := List.length_eq_zero_iff.mp same.symm
    simp [clear]
  | cons x l ih =>
    obtain ⟨y, m, rfl⟩ := List.exists_cons_of_length_eq_add_one same.symm
    rw [List.zipWith_cons_cons, testBit_value_cons, testBit_value_cons, testBit_value_cons]
    by_cases first : k < w
    · rw [if_pos first, if_pos first, if_pos first, bits x y k first]
    · rw [if_neg first, if_neg first, if_neg first, ih (Nat.succ.inj same)]

variable [NeZero w]

/-- Above the words stands the sign. -/
theorem testBit_signed (l : List (BitVec w)) (k : ℕ) : (signed l).testBit k =
    if k < w * l.length then (value l).testBit k else negative l := by
  have room : value l < 2 ^ (w * l.length) := pow_mul 2 w l.length ▸ value_lt l
  cases sign : negative l with
  | false =>
    have bits : (signed l).testBit k = (value l).testBit k := by
      rw [signed_of_nonneg sign]
      rfl
    rw [bits]
    by_cases inside : k < w * l.length
    · rw [if_pos inside]
    · rw [if_neg inside]
      exact Nat.testBit_lt_two_pow (room.trans_le (Nat.pow_le_pow_right two_pos (not_lt.mp inside)))
  | true =>
    have number : signed l = Int.negSucc (2 ^ (w * l.length) - (value l + 1)) := by
      rw [signed_of_negative sign, ← pow_mul, Int.negSucc_eq]
      omega
    have bits : (signed l).testBit k = !(2 ^ (w * l.length) - (value l + 1)).testBit k := by
      rw [number]
      rfl
    rw [bits, Nat.testBit_two_pow_sub_succ room]
    by_cases inside : k < w * l.length
    · rw [if_pos inside, decide_eq_true inside, Bool.true_and, Bool.not_not]
    · rw [if_neg inside, decide_eq_false inside, Bool.false_and, Bool.not_false]

theorem negative_zipWith {f : BitVec w → BitVec w → BitVec w} {g : Bool → Bool → Bool}
    (bits : ∀ x y k, k < w → (f x y).getLsbD k = g (x.getLsbD k) (y.getLsbD k))
    {l m : List (BitVec w)} (some : l ≠ []) (same : l.length = m.length) :
    negative (List.zipWith f l m) = g (negative l) (negative m) := by
  have last : w - 1 < w := Nat.sub_lt (NeZero.pos w) one_pos
  have other : m ≠ [] := List.ne_nil_of_length_pos (same ▸ List.length_pos_of_ne_nil some)
  obtain ⟨l, x, rfl⟩ := (List.eq_nil_or_concat' l).resolve_left some
  obtain ⟨m, y, rfl⟩ := (List.eq_nil_or_concat' m).resolve_left other
  have lower : l.length = m.length := by
    simpa only [List.length_append, List.length_singleton, Nat.add_right_cancel_iff] using same
  rw [List.zipWith_append lower, List.zipWith_cons_cons, List.zipWith_nil_left, negative_concat,
    negative_concat, negative_concat, BitVec.msb_eq_getLsbD_last, BitVec.msb_eq_getLsbD_last,
    BitVec.msb_eq_getLsbD_last, bits x y _ last]

/-- The numbers of two lists combined word by word are combined bit by bit. -/
theorem testBit_signed_zipWith {f : BitVec w → BitVec w → BitVec w} {g : Bool → Bool → Bool}
    (bits : ∀ x y k, k < w → (f x y).getLsbD k = g (x.getLsbD k) (y.getLsbD k))
    (clear : g false false = false) {l m : List (BitVec w)} (some : l ≠ [])
    (same : l.length = m.length) (k : ℕ) :
    (signed (List.zipWith f l m)).testBit k = g ((signed l).testBit k) ((signed m).testBit k) := by
  have length : (List.zipWith f l m).length = l.length := by
    rw [List.length_zipWith, ← same, min_self]
  rw [testBit_signed, testBit_signed, testBit_signed, length, ← same]
  by_cases inside : k < w * l.length
  · rw [if_pos inside, if_pos inside, if_pos inside, testBit_zipWith bits clear same]
  · rw [if_neg inside, if_neg inside, if_neg inside, negative_zipWith bits some same]

end Words
