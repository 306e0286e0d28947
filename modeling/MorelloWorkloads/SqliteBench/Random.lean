import MorelloWorkloads.Lib.CountedLoop
import MorelloWorkloads.Lib.FlatMemory
import MorelloWorkloads.Lib.Rounding

/-! `random.c`, and the part of `benchmark_init` that fills the value generator.
Only the bytes of a block that `malloc` returned can be accessed. The tests of
`CHERI_CHECK_BOUNDS` compare sizes with the lengths of whole blocks; they hold on
every block that is not empty (`rawLength_bounds`), and for an empty one they come after the store
below it, so they are left out. -/
namespace MorelloWorkloads.SqliteBench
open CountedLoop FlatMemory Rounding

abbrev Byte := BitVec 8
abbrev Block := ℤ → Byte

/-- The addresses of a block of this length. -/
def InBlock (length i : ℤ) : Prop := 0 ≤ i ∧ i < length

instance (length : ℤ) : DecidablePred (InBlock length) := fun _ => inferInstanceAs (Decidable (_ ∧ _))

def setByte (i : ℤ) (b : Byte) : Edit ℤ Byte := ⟨i, fun _ => b⟩

/-- `memcpy(dst + pos, src, n)` between blocks of the given lengths. -/
def memcpy (dstLength srcLength : ℤ) (dst : Block) (pos : ℤ) (src : Block) (n : ℤ) : Option Block :=
  loopM 0 n 1 dst fun dst i => do
    let b ← load (InBlock srcLength) src i
    (setByte (pos + i) b).runIn (InBlock dstLength) dst

structure Random where
  seed : BitVec 32

def randInit (s : BitVec 32) : Random :=
  let seed := s &&& 0x7fffffff
  if seed = 0 ∨ seed = 2147483647 then ⟨1⟩ else ⟨seed⟩

/-- `rand_next`, which returns the seed that it stores. -/
def randNext (rand : Random) : BitVec 32 × Random :=
  let m : BitVec 32 := 2147483647
  let product : BitVec 64 := rand.seed.setWidth 64 * 16807
  let seed : BitVec 32 := ((product >>> 31) + (product &&& m.setWidth 64)).setWidth 32
  let seed := if seed > m then seed - m else seed
  (seed, ⟨seed⟩)

/-- `' ' + rand % 95` -/
def printable (x : BitVec 32) : Byte := (32 + x % 95).setWidth 8

structure RandomGenerator where
  data : Block
  dataSize : ℤ
  pos : ℤ

/-- The position is one of the data. -/
def RandomGenerator.Ready (gen : RandomGenerator) : Prop := InBlock gen.dataSize gen.pos

/-- The `double` next to a number. What is too small for its exponents is cut to 0 below. -/
def toDouble (x : ℚ) : ℚ := toFloat 53 x

/-- The length of the text that is repeated: a product of two `double`s, cut to an `int`, at
least 1. -/
def rawLength (compressedFraction : ℚ) (len : ℤ) : ℤ :=
  let raw := ⌊toDouble (toDouble len * compressedFraction)⌋
  if raw < 1 then 1 else raw

/-- `raw_data`, whose block held `fresh`. -/
def rawData (rnd : Random) (raw : ℤ) (fresh : Block) : Option (Block × Random) :=
  loopM 0 raw 1 (fresh, rnd) fun (data, rnd) i => do
    let (x, rnd) := randNext rnd
    let data ← (setByte i (printable x)).runIn (InBlock raw) data
    return (data, rnd)

/-- `while (pos < len) { memcpy(dst + pos, raw_data, raw); pos += raw; }` -/
def repeatRaw (raw len : ℤ) (data fresh : Block) : Option Block :=
  loopM 0 len raw fresh fun dst pos => memcpy len raw dst pos data raw

/-- Returns the string, `*raw_len` and the generator's next state; `some none` is
`NULL`, and `none` an access out of bounds. -/
def compressibleString (rnd : Random) (compressedFraction : ℚ) (len : ℤ) (freshRaw freshDst : Block) :
    Option (Option (Block × ℤ × Random)) :=
  if compressedFraction < 0 ∨ compressedFraction > 1 then some none
  else do
    let raw := rawLength compressedFraction len
    let (data, rnd) ← rawData rnd raw freshRaw
    let dst ← repeatRaw raw len data freshDst
    let dst ← (setByte (len - 1) 32).runIn (InBlock len) dst
    return some (dst, raw, rnd)

/-- Copies `dataSize` bytes of a block of `length` bytes. -/
def randGenInit (length : ℤ) (data : Block) (dataSize : ℤ) (fresh : Block) : Option RandomGenerator := do
  let copied ← memcpy dataSize length fresh 0 data dataSize
  return ⟨copied, dataSize, 0⟩

def RandomGenerator.advance (gen : RandomGenerator) : RandomGenerator :=
  { gen with pos := (gen.pos + 1) % gen.dataSize }

/-- `NULL` is `some none`; a read outside the data is `none`. -/
def randGenGenerate (gen : RandomGenerator) (len : ℤ) :
    Option (Option (List Byte) × RandomGenerator) :=
  if len < 0 then some (none, gen)
  else do
    let (substr, gen) ← loopM 0 len 1 ([], gen) fun (substr, gen) _ => do
      let c ← load (InBlock gen.dataSize) gen.data gen.pos
      return (substr ++ [c], gen.advance)
    return (some substr, gen)

/-- What `benchmark_init` does before it looks at the directory; `some none` is `exit(1)`. -/
def initGenerator (compressionRatio : ℚ) (valueSize : ℤ) (freshRaw freshDst freshGen : Block) :
    Option (Option (RandomGenerator × Random)) := do
  match ← compressibleString (randInit 301) compressionRatio valueSize freshRaw freshDst with
  | none => return none
  | some (data, rawLen, rnd) =>
    let gen ← randGenInit valueSize data rawLen freshGen
    return some (gen, rnd)

theorem rawLength_eq (compressedFraction : ℚ) (len : ℤ) :
    rawLength compressedFraction len = max 1 ⌊toDouble (toDouble len * compressedFraction)⌋ := by
  simp only [rawLength]
  split
  · rename_i small
    exact (max_eq_left small.le).symm
  · rename_i large
    exact (max_eq_right (not_lt.mp large)).symm

theorem rawLength_pos (compressedFraction : ℚ) (len : ℤ) : 0 < rawLength compressedFraction len := by
  rw [rawLength_eq]
  exact lt_of_lt_of_le one_pos (le_max_left _ _)

theorem toDouble_intCast {len : ℤ} (nonneg : 0 ≤ len) (few : len < 2 ^ 53) : toDouble len = len :=
  toFloat_intCast (abs_lt.mpr ⟨by omega, few⟩)

/-- Rounding does not take the text beyond the string. -/
theorem rawLength_bounds {compressedFraction : ℚ} (low : 0 ≤ compressedFraction)
    (high : compressedFraction ≤ 1) {len : ℤ} (nonneg : 0 ≤ len) (few : len < 2 ^ 53) :
    1 ≤ rawLength compressedFraction len ∧ rawLength compressedFraction len ≤ max 1 len := by
  have positive : (0 : ℚ) ≤ len := by exact_mod_cast nonneg
  have rounded : toDouble (toDouble len * compressedFraction) ≤ len := by
    rw [toDouble_intCast nonneg few]
    exact toFloat_le_intCast (mul_nonneg positive low) (mul_le_of_le_one_right positive high) few
  have floors := Int.floor_le_floor rounded
  rw [Int.floor_intCast] at floors
  rw [rawLength_eq]
  exact ⟨le_max_left _ _, max_le_max_left 1 floors⟩

/-- What `0.3` is as a `double`. -/
def threeTenths : ℚ := 5404319552844595 / 2 ^ 54

theorem threeTenths_range : 0 ≤ threeTenths ∧ threeTenths ≤ 1 := by norm_num [threeTenths]

theorem rawLength_half : rawLength (1 / 2) 100 = 50 := by
  have fifty : toDouble (50 : ℤ) = (50 : ℤ) := toDouble_intCast (by norm_num) (by norm_num)
  have product : toDouble (toDouble (100 : ℤ) * (1 / 2)) = (50 : ℤ) := by
    rw [toDouble_intCast (by norm_num) (by norm_num), ← fifty]
    norm_num
  rw [rawLength_eq, product, Int.floor_intCast]
  rfl

/-- The product is below 30 and is rounded to it. -/
theorem rawLength_threeTenths : rawLength threeTenths 100 = 30 := by
  have product : toDouble (toDouble (100 : ℤ) * threeTenths) = (30 : ℤ) := by
    rw [toDouble_intCast (by norm_num) (by norm_num), toDouble,
      toFloat_eq (k := 4) (n := 30 * 2 ^ 48)]
    all_goals norm_num [threeTenths, abs_of_pos, abs_of_neg]
  rw [rawLength_eq, product, Int.floor_intCast]
  rfl

theorem store_defined_iff (length i : ℤ) (b : Byte) (m : Block) :
    (∃ m', (setByte i b).runIn (InBlock length) m = some m') ↔ InBlock length i := by
  simp only [Edit.runIn, setByte]
  by_cases inside : InBlock length i
  · simp [inside]
  · simp [inside]

/-- Copying at least one byte takes room for all of them in both blocks. -/
theorem memcpy_defined_iff {n : ℤ} (some_byte : 0 < n) (dstLength srcLength : ℤ) (dst : Block)
    (pos : ℤ) (src : Block) :
    (∃ m, memcpy dstLength srcLength dst pos src n = some m) ↔
      n ≤ srcLength ∧ 0 ≤ pos ∧ pos + n ≤ dstLength := by
  have body (m : Block) (i : ℤ) :
      (∃ m', (do
        let b ← load (InBlock srcLength) src i
        (setByte (pos + i) b).runIn (InBlock dstLength) m) = some m') ↔
      InBlock srcLength i ∧ InBlock dstLength (pos + i) := by
    by_cases readable : InBlock srcLength i
    · simp only [load, readable, if_true, true_and]
      exact store_defined_iff dstLength (pos + i) (src i) m
    · simp [load, readable]
  rw [memcpy, loopM_defined_iff body]
  constructor
  · intro inside
    obtain ⟨-, first⟩ := inside 0 (mem_trips_one.mpr (by omega))
    obtain ⟨lastRead, lastStore⟩ := inside (n - 1) (mem_trips_one.mpr (by omega))
    simp only [InBlock] at first lastRead lastStore
    omega
  · intro room i hi
    have := mem_trips_one.mp hi
    simp only [InBlock]
    omega

theorem rawData_defined (rnd : Random) (raw : ℤ) (fresh : Block) :
    ∃ r, rawData rnd raw fresh = some r := by
  have body (s : Block × Random) (i : ℤ) :
      (∃ s', (do
        let data ← (setByte i (printable (randNext s.2).1)).runIn (InBlock raw) s.1
        return (data, (randNext s.2).2)) = some s') ↔ InBlock raw i := by
    rw [← store_defined_iff raw i (printable (randNext s.2).1) s.1]
    cases (setByte i (printable (randNext s.2).1)).runIn (InBlock raw) s.1 with
    | none => simp
    | some m => simp
  apply (loopM_defined_iff body (fresh, rnd)).mpr
  intro i hi
  exact mem_trips_one.mp hi

/-- The copies fill the string up and none of them passes its end exactly when
the text fits a whole number of times. -/
theorem repeatRaw_defined_iff {raw len : ℤ} (hraw : 0 < raw) (hlen : 0 ≤ len) (data fresh : Block) :
    (∃ m, repeatRaw raw len data fresh = some m) ↔ raw ∣ len := by
  rw [← strides_fit_iff hraw hlen, repeatRaw,
    loopM_defined_iff fun m pos => memcpy_defined_iff hraw len raw m pos data]
  constructor
  · intro fits pos hpos
    exact (fits pos hpos).2.2
  · intro fits pos hpos
    obtain ⟨k, rfl, -⟩ := (mem_trips hraw).mp hpos
    refine ⟨le_rfl, ?_, fits _ hpos⟩
    positivity

/-- The accesses of `compressible_string` that can miss its buffers. -/
theorem compressibleString_run {compressedFraction : ℚ} (low : 0 ≤ compressedFraction)
    (high : compressedFraction ≤ 1) (rnd : Random) (len : ℤ) (freshRaw freshDst : Block) :
    ∃ data next, compressibleString rnd compressedFraction len freshRaw freshDst = do
      let dst ← repeatRaw (rawLength compressedFraction len) len data freshDst
      let dst ← (setByte (len - 1) 32).runIn (InBlock len) dst
      return some (dst, rawLength compressedFraction len, next) := by
  obtain ⟨⟨data, next⟩, raw⟩ := rawData_defined rnd (rawLength compressedFraction len) freshRaw
  refine ⟨data, next, ?_⟩
  have accepted : ¬ (compressedFraction < 0 ∨ compressedFraction > 1) := by
    rintro (negative | large)
    · exact absurd low (not_le.mpr negative)
    · exact absurd high (not_le.mpr large)
  rw [compressibleString, if_neg accepted]
  simp only [raw, Option.bind_eq_bind, Option.bind_some]

theorem initGenerator_run {compressedFraction : ℚ} (low : 0 ≤ compressedFraction)
    (high : compressedFraction ≤ 1) {len : ℤ} (nonempty : 0 < len)
    (divides : rawLength compressedFraction len ∣ len) (freshRaw freshDst freshGen : Block) :
    ∃ gen rnd, initGenerator compressedFraction len freshRaw freshDst freshGen =
      some (some (gen, rnd)) ∧ gen.Ready := by
  obtain ⟨data, next, string⟩ :=
    compressibleString_run low high (randInit 301) len freshRaw freshDst
  have hraw := rawLength_pos compressedFraction len
  obtain ⟨dst, copies⟩ := (repeatRaw_defined_iff hraw nonempty.le data freshDst).mpr divides
  have inside : InBlock len (len - 1) := ⟨by omega, by omega⟩
  obtain ⟨last, store⟩ := (store_defined_iff len (len - 1) 32 dst).mpr inside
  have room := Int.le_of_dvd nonempty divides
  obtain ⟨copied, copy⟩ := (memcpy_defined_iff hraw (rawLength compressedFraction len) len freshGen
    0 last).mpr ⟨room, le_rfl, by omega⟩
  refine ⟨⟨copied, rawLength compressedFraction len, 0⟩, next, ?_, le_rfl, hraw⟩
  rw [initGenerator, string]
  simp only [copies, store, randGenInit, copy, Option.bind_eq_bind, Option.bind_some,
    Option.pure_def]

/-- The value generator is built inside its buffers exactly when the string is
not empty and a whole number of copies of the raw text fills it. -/
theorem generator_in_bounds_iff {compressedFraction : ℚ} (low : 0 ≤ compressedFraction)
    (high : compressedFraction ≤ 1) {len : ℤ} (hlen : 0 ≤ len) (freshRaw freshDst freshGen : Block) :
    (∃ r, initGenerator compressedFraction len freshRaw freshDst freshGen = some r) ↔
      0 < len ∧ max 1 ⌊toDouble (toDouble len * compressedFraction)⌋ ∣ len := by
  rw [← rawLength_eq]
  constructor
  · rintro ⟨r, run⟩
    obtain ⟨data, next, string⟩ :=
      compressibleString_run low high (randInit 301) len freshRaw freshDst
    rw [initGenerator, string] at run
    obtain ⟨made, string, -⟩ := Option.bind_eq_some_iff.mp run
    obtain ⟨dst, copies, ends⟩ := Option.bind_eq_some_iff.mp string
    obtain ⟨last, store, -⟩ := Option.bind_eq_some_iff.mp ends
    have inside := (store_defined_iff len (len - 1) 32 dst).mp ⟨last, store⟩
    have hraw := rawLength_pos compressedFraction len
    have divides := (repeatRaw_defined_iff hraw hlen data freshDst).mp ⟨dst, copies⟩
    simp only [InBlock] at inside
    exact ⟨by omega, divides⟩
  · rintro ⟨nonempty, divides⟩
    obtain ⟨gen, rnd, run, -⟩ :=
      initGenerator_run low high nonempty divides freshRaw freshDst freshGen
    exact ⟨_, run⟩

/-- The default settings: two copies of 50 bytes. -/
theorem generator_in_bounds_default :
    ∃ r, initGenerator (1 / 2) 100 (fun _ => 0) (fun _ => 0) (fun _ => 0) = some r :=
  (generator_in_bounds_iff (by norm_num) (by norm_num) (by norm_num) _ _ _).mpr
    ⟨by norm_num, by rw [← rawLength_eq, rawLength_half]; norm_num⟩

/-- At 0.3 the raw text has 30 bytes, and the fourth copy would write the bytes
from 90 to 119 of 100. -/
theorem generator_overrun : 0 ≤ threeTenths ∧ threeTenths ≤ 1 ∧ (0 : ℤ) ≤ 100 ∧
    initGenerator threeTenths 100 (fun _ => 0) (fun _ => 0) (fun _ => 0) = none := by
  obtain ⟨low, high⟩ := threeTenths_range
  obtain ⟨data, next, string⟩ := compressibleString_run low high (randInit 301) 100 (fun _ => 0)
    (fun _ => 0)
  have copies : repeatRaw 30 100 data (fun _ => 0) = none := by
    apply Option.eq_none_iff_forall_ne_some.mpr
    intro dst run
    have divides := (repeatRaw_defined_iff (by norm_num) (by norm_num) data _).mp ⟨dst, run⟩
    norm_num at divides
  refine ⟨low, high, by norm_num, ?_⟩
  rw [initGenerator, string, rawLength_threeTenths, copies]
  rfl

theorem RandomGenerator.Ready.advance {gen : RandomGenerator} (ready : gen.Ready) :
    gen.advance.Ready := by
  have size : 0 < gen.dataSize := lt_of_le_of_lt ready.1 ready.2
  exact ⟨Int.emod_nonneg _ size.ne', Int.emod_lt_of_pos _ size⟩

/-- Every call finds the generator ready and leaves it so. -/
theorem randGenGenerate_run {gen : RandomGenerator} (ready : gen.Ready) (len : ℤ) :
    ∃ value gen', randGenGenerate gen len = some (value, gen') ∧ gen'.Ready := by
  by_cases negative : len < 0
  · exact ⟨none, gen, by rw [randGenGenerate, if_pos negative], ready⟩
  · have pass (_ : List ℤ) (s : List Byte × RandomGenerator) (i : ℤ) (_ : i ∈ trips 0 len 1)
        (ready : s.2.Ready) : ∃ s' : List Byte × RandomGenerator, (do
          let c ← load (InBlock s.2.dataSize) s.2.data s.2.pos
          return (s.1 ++ [c], s.2.advance)) = some s' ∧ s'.2.Ready := by
      refine ⟨(s.1 ++ [s.2.data s.2.pos], s.2.advance), ?_, ready.advance⟩
      have inside : InBlock s.2.dataSize s.2.pos := ready
      rw [load, if_pos inside]
      rfl
    have start : (([] : List Byte), gen).2.Ready := ready
    obtain ⟨⟨substr, gen'⟩, run, ready'⟩ :=
      loopM_run (fun _ (s : List Byte × RandomGenerator) => s.2.Ready) pass start
    refine ⟨some substr, gen', ?_, ready'⟩
    rw [randGenGenerate, if_neg negative]
    exact congrArg (Option.bind · _) run

end MorelloWorkloads.SqliteBench
