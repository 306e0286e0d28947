import Mathlib.Data.Nat.Size
import Mathlib.Data.List.Nodup
import Mathlib.Tactic.Common
import Mathlib.Tactic.NormNum

/-! The keys of the speed test: `swizzle` takes the numbers from one to the size of a
table apart, within the bits that `roundup_allones` has rounded the size up to. -/
namespace MorelloWorkloads.Speedtest

/-- The loop of `swizzle`, from `out` on. -/
def swizzleFrom (out x limit : BitVec 32) : BitVec 32 :=
  if limit = 0 then out
  else swizzleFrom ((out <<< 1) ||| (x &&& 1)) (x >>> 1) (limit >>> 1)
termination_by limit.toNat
decreasing_by
  have positive : limit.toNat ≠ 0 := fun zero => ‹¬ limit = 0› (BitVec.eq_of_toNat_eq zero)
  rw [BitVec.toNat_ushiftRight, Nat.shiftRight_eq_div_pow]
  omega

def swizzle (x limit : BitVec 32) : BitVec 32 := swizzleFrom 0 x limit

/-- The loop of `roundup_allones`. Without a result it has not ended. -/
def roundupFrom (limit : BitVec 32) : ℕ → BitVec 32 → Option (BitVec 32)
  | 0, _ => none
  | fuel + 1, m => if m < limit then roundupFrom limit fuel ((m <<< 1) + 1) else some m

def roundupAllones (fuel : ℕ) (limit : BitVec 32) : Option (BitVec 32) := roundupFrom limit fuel 1

/-- The values that `x1` takes in a fill of `testset_main`. -/
def fillKeys (n : ℕ) (maxb : BitVec 32) : List (BitVec 32) :=
  (List.range' 1 n).map fun i => swizzle (BitVec.ofNat 32 i) maxb

/-! ## Swizzling is a reversal of bits -/

/-- The number of passes. -/
def width (limit : BitVec 32) : ℕ := Nat.size limit.toNat

theorem width_le (limit : BitVec 32) : width limit ≤ 32 := Nat.size_le.mpr limit.isLt

theorem lt_width {x limit : BitVec 32} (le : x ≤ limit) : x.toNat < 2 ^ width limit :=
  (BitVec.le_def.mp le).trans_lt (Nat.lt_size_self _)

theorem width_shift {limit : BitVec 32} (nonzero : limit ≠ 0) : width limit = width (limit >>> 1) + 1 := by
  have positive : limit.toNat ≠ 0 := fun zero => nonzero (BitVec.eq_of_toNat_eq zero)
  have half : (limit >>> 1).toNat = limit.toNat / 2 := by
    rw [BitVec.toNat_ushiftRight, Nat.shiftRight_eq_div_pow, pow_one]
  rw [width, width, half]
  apply eq_of_forall_lt_iff
  intro k
  rw [Nat.lt_size]
  cases k with
  | zero =>
    rw [pow_zero]
    exact iff_of_true (Nat.pos_of_ne_zero positive) (Nat.succ_pos _)
  | succ k =>
    rw [Nat.add_lt_add_iff_right, Nat.lt_size, pow_succ]
    omega

/-- The bits that have been shifted out come back in the opposite order. -/
theorem getLsbD_swizzleFrom (out x limit : BitVec 32) {i : ℕ} (hi : i < 32) :
    (swizzleFrom out x limit).getLsbD i =
      if i < width limit then x.getLsbD (width limit - 1 - i) else out.getLsbD (i - width limit) := by
  induction out, x, limit using swizzleFrom.induct with
  | case1 out x =>
    rw [swizzleFrom, if_pos rfl]
    rfl
  | case2 out x limit nonzero ih =>
    rw [swizzleFrom, if_neg nonzero, ih, width_shift nonzero]
    have shifted (k : ℕ) : (x >>> 1).getLsbD k = x.getLsbD (k + 1) := by
      rw [BitVec.getLsbD_ushiftRight, add_comm]
    obtain below | here | above := lt_trichotomy i (width (limit >>> 1))
    · rw [if_pos below, if_pos (by omega), shifted]
      congr 1
      omega
    · rw [if_neg (by omega), if_pos (by omega), here]
      simp
    · rw [if_neg (by omega), if_neg (by omega)]
      have bit : i - width (limit >>> 1) = i - (width (limit >>> 1) + 1) + 1 := by omega
      have room : i - (width (limit >>> 1) + 1) + 1 < 32 := by omega
      rw [bit, BitVec.getLsbD_or, BitVec.getLsbD_shiftLeft]
      simp [room]

/-- Bit `i` of a swizzled number is the bit that lies as far from the top of the limit. -/
theorem getLsbD_swizzle (x limit : BitVec 32) (i : ℕ) :
    (swizzle x limit).getLsbD i =
      (decide (i < width limit) && x.getLsbD (width limit - 1 - i)) := by
  have short := width_le limit
  by_cases hi : i < 32
  · rw [swizzle, getLsbD_swizzleFrom 0 x limit hi]
    split
    · simp [*]
    · simp [*]
  · rw [BitVec.getLsbD_of_ge _ _ (by omega), decide_eq_false (by omega), Bool.false_and]

theorem getLsbD_above {x : BitVec 32} {w i : ℕ} (small : x.toNat < 2 ^ w) (above : w ≤ i) :
    x.getLsbD i = false := by
  rw [← BitVec.testBit_toNat]
  exact Nat.testBit_lt_two_pow (small.trans_le (Nat.pow_le_pow_right two_pos above))

theorem swizzle_lt (x limit : BitVec 32) : (swizzle x limit).toNat < 2 ^ width limit := by
  apply Nat.lt_pow_two_of_testBit
  intro i above
  rw [BitVec.testBit_toNat, getLsbD_swizzle, decide_eq_false (by omega), Bool.false_and]

/-- A number within the bits of the limit comes back when it is swizzled twice. -/
theorem swizzle_swizzle {x limit : BitVec 32} (small : x.toNat < 2 ^ width limit) :
    swizzle (swizzle x limit) limit = x := by
  apply BitVec.eq_of_getLsbD_eq
  intro i hi
  rw [getLsbD_swizzle]
  by_cases inside : i < width limit
  · rw [decide_eq_true inside, Bool.true_and, getLsbD_swizzle, decide_eq_true (by omega), Bool.true_and]
    congr 1
    omega
  · rw [decide_eq_false inside, Bool.false_and, getLsbD_above small (not_lt.mp inside)]

/-- The bits above the limit do not matter. -/
theorem swizzle_low (x limit : BitVec 32) :
    swizzle (BitVec.ofNat 32 (x.toNat % 2 ^ width limit)) limit = swizzle x limit := by
  apply BitVec.eq_of_getLsbD_eq
  intro i hi
  rw [getLsbD_swizzle, getLsbD_swizzle]
  by_cases inside : i < width limit
  · have short := width_le limit
    rw [BitVec.getLsbD_ofNat, Nat.testBit_mod_two_pow, BitVec.testBit_toNat,
      decide_eq_true (show width limit - 1 - i < 32 by omega),
      decide_eq_true (show width limit - 1 - i < width limit by omega), Bool.true_and, Bool.true_and]
  · rw [decide_eq_false inside, Bool.false_and, Bool.false_and]

/-- Two numbers are swizzled to the same exactly when they agree within the limit. -/
theorem swizzle_eq_iff (x y limit : BitVec 32) : swizzle x limit = swizzle y limit ↔
    x.toNat % 2 ^ width limit = y.toNat % 2 ^ width limit := by
  constructor
  · intro same
    have low (z : BitVec 32) : swizzle (swizzle z limit) limit = BitVec.ofNat 32 (z.toNat % 2 ^ width limit) ∧
        (BitVec.ofNat 32 (z.toNat % 2 ^ width limit)).toNat = z.toNat % 2 ^ width limit := by
      have residue : z.toNat % 2 ^ width limit < 2 ^ width limit := Nat.mod_lt _ (Nat.two_pow_pos _)
      have value : (BitVec.ofNat 32 (z.toNat % 2 ^ width limit)).toNat = z.toNat % 2 ^ width limit :=
        Nat.mod_eq_of_lt ((Nat.mod_le _ _).trans_lt z.isLt)
      refine ⟨?_, value⟩
      rw [← swizzle_low z, swizzle_swizzle (by rwa [value])]
    rw [← (low x).2, ← (low x).1, same, (low y).1, (low y).2]
  · intro same
    rw [← swizzle_low x, same, swizzle_low y]

theorem swizzle_zero (limit : BitVec 32) : swizzle 0 limit = 0 := by
  apply BitVec.eq_of_getLsbD_eq
  intro i hi
  rw [getLsbD_swizzle]
  simp

/-! ## The keys of a fill -/

/-- The number of `k` ones. -/
def allones (k : ℕ) : BitVec 32 := BitVec.ofNat 32 (2 ^ k - 1)

theorem toNat_allones {k : ℕ} (small : k ≤ 32) : (allones k).toNat = 2 ^ k - 1 := by
  have bound : 2 ^ k ≤ 2 ^ 32 := Nat.pow_le_pow_right two_pos small
  have positive : 0 < 2 ^ k := Nat.two_pow_pos k
  rw [allones, BitVec.toNat_ofNat, Nat.mod_eq_of_lt (by omega)]

theorem allones_lt_iff {k : ℕ} (small : k ≤ 32) (limit : BitVec 32) :
    allones k < limit ↔ k < width limit := by
  have positive : 0 < 2 ^ k := Nat.two_pow_pos k
  rw [BitVec.lt_def, toNat_allones small, width, Nat.lt_size]
  omega

theorem allones_succ {k : ℕ} (small : k < 32) : (allones k <<< 1) + 1 = allones (k + 1) := by
  apply BitVec.eq_of_toNat_eq
  have bound : 2 ^ (k + 1) ≤ 2 ^ 32 := Nat.pow_le_pow_right two_pos small
  have positive : 0 < 2 ^ k := Nat.two_pow_pos k
  rw [pow_succ] at bound
  rw [BitVec.toNat_add, BitVec.toNat_shiftLeft, toNat_allones small.le, toNat_allones small,
    Nat.shiftLeft_eq, pow_one, pow_succ]
  have one : (1 : BitVec 32).toNat = 1 := rfl
  omega

theorem width_allones {k : ℕ} (small : k ≤ 32) : width (allones k) = k := by
  have positive : 0 < 2 ^ k := Nat.two_pow_pos k
  apply eq_of_forall_lt_iff
  intro j
  rw [width, Nat.lt_size, toNat_allones small, Nat.le_sub_one_iff_lt positive,
    Nat.pow_lt_pow_iff_right Nat.one_lt_two]

theorem roundupFrom_allones (limit : BitVec 32) {k fuel : ℕ} (small : k ≤ 32) (enough : 33 ≤ k + fuel) :
    roundupFrom limit fuel (allones k) = some (allones (max k (width limit))) := by
  induction fuel generalizing k with
  | zero => omega
  | succ fuel ih =>
    rw [roundupFrom]
    split
    · rename_i more
      have wider := (allones_lt_iff small limit).mp more
      have bound := width_le limit
      rw [allones_succ (by omega), ih (by omega) (by omega), max_eq_right (by omega), max_eq_right (by omega)]
    · rename_i done
      rw [max_eq_left (not_lt.mp (mt (allones_lt_iff small limit).mpr done))]

/-- The limit is rounded up to the next number of all ones. -/
theorem roundupAllones_eq (limit : BitVec 32) :
    roundupAllones 32 limit = some (allones (max 1 (width limit))) :=
  roundupFrom_allones (k := 1) limit (by omega) (by omega)

theorem index_toNat {n i : ℕ} (few : n < 2 ^ 31) (member : i ∈ List.range' 1 n) :
    1 ≤ i ∧ i ≤ n ∧ (BitVec.ofNat 32 i).toNat = i := by
  obtain ⟨low, high⟩ := List.mem_range'_1.mp member
  exact ⟨low, by omega, by rw [BitVec.toNat_ofNat, Nat.mod_eq_of_lt (by omega)]⟩

/-- Swizzling takes the numbers up to one of all ones to themselves. -/
theorem swizzle_allones {w : ℕ} (small : w ≤ 32) {x : BitVec 32} (positive : 1 ≤ x) (le : x ≤ allones w) :
    1 ≤ swizzle x (allones w) ∧ swizzle x (allones w) ≤ allones w ∧
      swizzle (swizzle x (allones w)) (allones w) = x := by
  have back := swizzle_swizzle (lt_width le)
  have below := swizzle_lt x (allones w)
  rw [width_allones small] at below
  have one : (1 : BitVec 32).toNat = 1 := rfl
  refine ⟨?_, ?_, back⟩
  · rw [BitVec.le_def, one, Nat.one_le_iff_ne_zero]
    intro zero
    rw [BitVec.eq_of_toNat_eq (y := 0) zero, swizzle_zero] at back
    rw [← back] at positive
    exact absurd positive (by decide)
  · rw [BitVec.le_def, toNat_allones small]
    omega

/-- In a fill of `n` rows every row has a key of its own, between one and the rounded
number of rows, from which swizzling brings back the number of the row. A fill with
all the rows takes every key there is. -/
theorem fillKeys_distinct {n : ℕ} (few : n < 2 ^ 31) : ∃ maxb,
    roundupAllones 32 (BitVec.ofNat 32 n) = some maxb ∧ n ≤ maxb.toNat ∧ maxb.toNat < 2 ^ 31 ∧
    (fillKeys n maxb).Nodup ∧ (∀ key ∈ fillKeys n maxb, 1 ≤ key ∧ key ≤ maxb) ∧
    (fillKeys n maxb).map (fun key => (swizzle key maxb).toNat) = List.range' 1 n ∧
    (n = maxb.toNat → ∀ key, 1 ≤ key → key ≤ maxb → key ∈ fillKeys n maxb) := by
  have size : (BitVec.ofNat 32 n).toNat = n := by
    rw [BitVec.toNat_ofNat, Nat.mod_eq_of_lt (by omega)]
  obtain ⟨w, hw⟩ : ∃ w, w = max 1 (width (BitVec.ofNat 32 n)) := ⟨_, rfl⟩
  have short : width (BitVec.ofNat 32 n) ≤ 31 := by
    rw [width, size]
    exact Nat.size_le.mpr few
  have small : w ≤ 31 := by omega
  have value := toNat_allones (show w ≤ 32 by omega)
  have high : n < 2 ^ w := by
    rw [← Nat.size_le]
    have : width (BitVec.ofNat 32 n) = n.size := by rw [width, size]
    omega
  have bound : 2 ^ w ≤ 2 ^ 31 := Nat.pow_le_pow_right two_pos small
  have rows {i : ℕ} (member : i ∈ List.range' 1 n) :
      1 ≤ BitVec.ofNat 32 i ∧ BitVec.ofNat 32 i ≤ allones w ∧ (BitVec.ofNat 32 i).toNat = i := by
    obtain ⟨low, le, same⟩ := index_toNat few member
    have one : (1 : BitVec 32).toNat = 1 := rfl
    rw [BitVec.le_def, BitVec.le_def, same, one, value]
    omega
  have back : (fillKeys n (allones w)).map (fun key => (swizzle key (allones w)).toNat) =
      List.range' 1 n := by
    rw [fillKeys, List.map_map]
    refine (List.map_congr_left fun i row => ?_).trans (List.map_id _)
    obtain ⟨low, le, same⟩ := rows row
    rw [Function.comp_apply, (swizzle_allones (by omega) low le).2.2, same, id_eq]
  refine ⟨allones w, hw ▸ roundupAllones_eq _, by omega, by omega, ?_, ?_, back, ?_⟩
  · have distinct : ((fillKeys n (allones w)).map fun key => (swizzle key (allones w)).toNat).Nodup := by
      rw [back]
      exact List.nodup_range'
    exact List.Nodup.of_map _ distinct
  · intro key member
    obtain ⟨i, row, rfl⟩ := List.mem_map.mp member
    obtain ⟨low, le, -⟩ := rows row
    obtain ⟨positive, below, -⟩ := swizzle_allones (by omega) low le
    exact ⟨positive, below⟩
  · intro full key positive below
    obtain ⟨low, le, same⟩ := swizzle_allones (by omega) positive below
    refine List.mem_map.mpr ⟨(swizzle key (allones w)).toNat, ?_, ?_⟩
    · rw [List.mem_range'_1, full]
      have least := BitVec.le_def.mp low
      have one : (1 : BitVec 32).toNat = 1 := rfl
      exact ⟨by omega, by have := BitVec.le_def.mp le; omega⟩
    · rw [BitVec.ofNat_toNat, BitVec.setWidth_eq, same]

/-- The default size, a hundred times 500 rows. -/
theorem fillKeys_distinct_default : ∃ maxb,
    roundupAllones 32 50000 = some maxb ∧ 50000 ≤ maxb.toNat ∧ maxb.toNat < 2 ^ 31 ∧
    (fillKeys 50000 maxb).Nodup ∧ (∀ key ∈ fillKeys 50000 maxb, 1 ≤ key ∧ key ≤ maxb) ∧
    (fillKeys 50000 maxb).map (fun key => (swizzle key maxb).toNat) = List.range' 1 50000 ∧
    (50000 = maxb.toNat → ∀ key, 1 ≤ key → key ≤ maxb → key ∈ fillKeys 50000 maxb) :=
  fillKeys_distinct (by norm_num)

end MorelloWorkloads.Speedtest
