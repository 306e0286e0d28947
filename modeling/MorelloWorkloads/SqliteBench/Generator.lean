import MorelloWorkloads.Lib.CheckedInt
import MorelloWorkloads.Lib.Mersenne
import MorelloWorkloads.SqliteBench.Random
import Mathlib.Algebra.Order.BigOperators.Group.List
import Mathlib.Tactic.NormNum.GCD

/-! The two generators of `random.c` over whole runs: the seed after any number
of calls, and the text that any sequence of calls takes from the data. -/
namespace MorelloWorkloads.SqliteBench
open CountedLoop FlatMemory CheckedInt

/-! ## `rand_next` -/

def Random.product (rand : Random) : BitVec 64 := rand.seed.setWidth 64 * 16807

/-- `(product >> 31) + (product & M)`, before the store to `seed_`. -/
def Random.fold (rand : Random) : BitVec 64 :=
  (rand.product >>> 31) + (rand.product &&& 2147483647)

/-- The state after `k` calls. -/
def randCalls (k : ℕ) (rand : Random) : Random := (fun rand => (randNext rand).2)^[k] rand

theorem randNext_eq (rand : Random) :
    (randNext rand).2.seed =
      let seed := rand.fold.setWidth 32
      if seed > 2147483647 then seed - 2147483647 else seed := rfl

theorem product_toNat (rand : Random) : rand.product.toNat = rand.seed.toNat * 16807 := by
  have seed := rand.seed.isLt
  have factor : (16807 : BitVec 64).toNat = 16807 := rfl
  rw [Random.product, BitVec.toNat_mul, BitVec.toNat_setWidth, factor]
  omega

/-- The 64 bits hold the sum. -/
theorem fold_toNat (rand : Random) : rand.fold.toNat = Mersenne.fold 31 (rand.seed.toNat * 16807) := by
  have seed := rand.seed.isLt
  have low : (rand.product &&& 2147483647).toNat = rand.product.toNat % 2 ^ 31 :=
    Nat.and_two_pow_sub_one_eq_mod rand.product.toNat 31
  rw [Random.fold, BitVec.toNat_add, BitVec.toNat_ushiftRight, low, product_toNat,
    Nat.shiftRight_eq_div_pow, Mersenne.fold]
  omega

theorem coprime_multiplier : Nat.Coprime 16807 (2 ^ 31 - 1) := by norm_num

/-- On a seed that is neither `0` nor the modulus, nothing is cut off and the
step multiplies. -/
theorem randNext_step {rand : Random} (pos : 0 < rand.seed.toNat)
    (lt : rand.seed.toNat < 2 ^ 31 - 1) :
    rand.fold.toNat < 2 ^ 32 ∧
      (randNext rand).2.seed.toNat = rand.seed.toNat * 16807 % (2 ^ 31 - 1) := by
  have room : Mersenne.fold 31 (rand.seed.toNat * 16807) < 2 * (2 ^ 31 - 1) := by
    apply Mersenne.fold_lt
    omega
  rw [← fold_toNat] at room
  have stored : (rand.fold.setWidth 32).toNat = rand.fold.toNat := by
    rw [BitVec.toNat_setWidth]
    omega
  refine ⟨by omega, ?_⟩
  rw [← Mersenne.reduce_mul (by norm_num) coprime_multiplier pos lt, Mersenne.reduce, ← fold_toNat,
    randNext_eq]
  have modulus : (2147483647 : BitVec 32).toNat = 2 ^ 31 - 1 := rfl
  simp only [gt_iff_lt, BitVec.lt_def, stored, modulus]
  by_cases above : 2 ^ 31 - 1 < rand.fold.toNat
  · have le : (2147483647 : BitVec 32) ≤ rand.fold.setWidth 32 := by
      rw [BitVec.le_def, stored, modulus]
      exact above.le
    rw [if_pos above, if_pos above, BitVec.toNat_sub_of_le le, stored, modulus]
  · rw [if_neg above, if_neg above, stored]

/-- The seed that `rand_init` stores: the low 31 bits, unless they are all equal. -/
theorem randInit_seed (s : BitVec 32) :
    (randInit s).seed.toNat =
      if s.toNat % 2 ^ 31 = 0 ∨ s.toNat % 2 ^ 31 = 2 ^ 31 - 1 then 1 else s.toNat % 2 ^ 31 := by
  have low : (s &&& 0x7fffffff).toNat = s.toNat % 2 ^ 31 := Nat.and_two_pow_sub_one_eq_mod s.toNat 31
  have zero : s &&& 0x7fffffff = 0 ↔ s.toNat % 2 ^ 31 = 0 := by
    rw [BitVec.toNat_eq, low]
    rfl
  have ones : s &&& 0x7fffffff = 2147483647 ↔ s.toNat % 2 ^ 31 = 2 ^ 31 - 1 := by
    rw [BitVec.toNat_eq, low]
    rfl
  by_cases bad : s.toNat % 2 ^ 31 = 0 ∨ s.toNat % 2 ^ 31 = 2 ^ 31 - 1
  · rw [if_pos bad, randInit, if_pos (bad.imp zero.mpr ones.mpr)]
    rfl
  · have good : ¬ (s &&& 0x7fffffff = 0 ∨ s &&& 0x7fffffff = 2147483647) := by
      rwa [zero, ones]
    rw [if_neg bad, randInit, if_neg good, low]

/-- `rand_init` avoids the seeds that a step would not leave. -/
theorem randInit_bounds (s : BitVec 32) :
    0 < (randInit s).seed.toNat ∧ (randInit s).seed.toNat < 2 ^ 31 - 1 := by
  have residue := Nat.mod_lt s.toNat (Nat.two_pow_pos 31)
  rw [randInit_seed]
  split
  · exact ⟨one_pos, by norm_num⟩
  · rename_i good
    rw [not_or] at good
    omega

/-- After any number of calls. -/
theorem randCalls_seed {rand : Random} (pos : 0 < rand.seed.toNat) (lt : rand.seed.toNat < 2 ^ 31 - 1)
    (k : ℕ) : (randCalls k rand).seed.toNat = rand.seed.toNat * 16807 ^ k % (2 ^ 31 - 1) := by
  induction k with
  | zero =>
    rw [pow_zero, mul_one, Nat.mod_eq_of_lt lt]
    rfl
  | succ k ih =>
    obtain ⟨above, below⟩ := Mersenne.power_seed coprime_multiplier pos lt k
    rw [← ih] at above below
    have step := (randNext_step above below).2
    rw [randCalls, Function.iterate_succ_apply', ← randCalls, step, ih, Nat.mod_mul_mod, mul_assoc,
      ← pow_succ]

/-- From any seed and after any number of calls, the seed is a power of the
multiplier modulo the prime, it is neither `0` nor the modulus, and the 32-bit
store of the next call cuts nothing off. -/
theorem randNext_multiplies (s : BitVec 32) (k : ℕ) :
    let start := (randInit s).seed.toNat
    let rand := randCalls k (randInit s)
    rand.seed.toNat = start * 16807 ^ k % (2 ^ 31 - 1) ∧
      1 ≤ rand.seed.toNat ∧ rand.seed.toNat ≤ 2 ^ 31 - 2 ∧
      (rand.fold.setWidth 32).toNat =
        rand.seed.toNat * 16807 / 2 ^ 31 + rand.seed.toNat * 16807 % 2 ^ 31 := by
  intro start rand
  obtain ⟨pos, lt⟩ := randInit_bounds s
  have seed : rand.seed.toNat = start * 16807 ^ k % (2 ^ 31 - 1) := randCalls_seed pos lt k
  obtain ⟨above, below⟩ := Mersenne.power_seed coprime_multiplier pos lt k
  rw [← seed] at above below
  refine ⟨seed, above, Nat.le_pred_of_lt below, ?_⟩
  rw [BitVec.toNat_setWidth, Nat.mod_eq_of_lt (randNext_step above below).1, fold_toNat]
  rfl

/-! ## `rand_gen_generate` -/

/-- `(pos_ + 1) % data_size_`: a sum of `int`, a remainder of `size_t`, and the store to an `int`. -/
def RandomGenerator.nextPos (gen : RandomGenerator) : Option ℤ := do
  let next ← int (gen.pos + 1)
  return ofSize (toSize next % gen.dataSize)

def generateByte (length : ℤ) (substr : Block) (gen : RandomGenerator) (i : ℤ) :
    Option (Block × RandomGenerator) := do
  let c ← load (InBlock gen.dataSize) gen.data gen.pos
  let substr ← (setByte i c).runIn (InBlock length) substr
  let pos ← gen.nextPos
  return (substr, { gen with pos })

/-- The bytes of a memory from `lo` up to `hi`. -/
def stretch (m : Block) (lo hi : ℤ) : List Byte := (trips lo hi 1).map m

/-- `rand_gen_generate` with its block and in `int` arithmetic. The block is
returned with its terminator; an overflow and an access out of bounds are `none`. -/
def generate (gen : RandomGenerator) (len : ℤ) (fresh : Block) :
    Option (Option (List Byte) × RandomGenerator) :=
  if len < 0 then some (none, gen)
  else do
    let length ← int (len + 1)
    let (substr, gen) ← loopM 0 len 1 (fresh, gen) fun (substr, gen) => generateByte length substr gen
    let substr ← (setByte len 0).runIn (InBlock length) substr
    return (some (stretch substr 0 length), gen)

/-- Calls in a row, each with the content of the block it is given. -/
def generateAll (gen : RandomGenerator) :
    List (ℤ × Block) → Option (List (Option (List Byte)) × RandomGenerator)
  | [] => some ([], gen)
  | (len, fresh) :: calls => do
    let (text, gen) ← generate gen len fresh
    let (texts, gen) ← generateAll gen calls
    return (text :: texts, gen)

/-- The infinite repetition of the data. -/
def RandomGenerator.cycle (gen : RandomGenerator) : Block := fun i => gen.data (i % gen.dataSize)

/-- The generator when it has given out `taken` bytes of the repetition. -/
def RandomGenerator.after (gen : RandomGenerator) (taken : ℤ) : RandomGenerator :=
  { gen with pos := taken % gen.dataSize }

theorem stretch_append (m : Block) {lo mid hi : ℤ} (h₁ : lo ≤ mid) (h₂ : mid ≤ hi) :
    stretch m lo mid ++ stretch m mid hi = stretch m lo hi := by
  rw [stretch, stretch, ← List.map_append, trips_append h₁ h₂, stretch]

theorem length_stretch (m : Block) (lo hi : ℤ) : (stretch m lo hi).length = (hi - lo).toNat := by
  rw [stretch, List.length_map, length_trips_one]

theorem stretch_one (m : Block) (lo : ℤ) : stretch m lo (lo + 1) = [m lo] := by
  rw [stretch, trips_cons one_pos (by omega), trips_nil one_pos le_rfl]
  rfl

theorem stretch_shift {m source : Block} {start n : ℤ}
    (same : ∀ i, 0 ≤ i → i < n → m i = source (start + i)) :
    stretch m 0 n = stretch source start (start + n) := by
  have moved := trips_map_add 0 n start
  rw [zero_add, add_comm n] at moved
  rw [stretch, stretch, ← moved, List.map_map]
  apply List.map_congr_left
  intro i hi
  have inside := mem_trips_one.mp hi
  rw [same i inside.1 inside.2, Function.comp_apply, add_comm]

theorem RandomGenerator.after_ready {gen : RandomGenerator} (size : 0 < gen.dataSize) (taken : ℤ) :
    (gen.after taken).Ready :=
  ⟨Int.emod_nonneg _ size.ne', Int.emod_lt_of_pos _ size⟩

/-- The position never reaches the end of the type, so the mixed arithmetic wraps
around the data and nowhere else. -/
theorem RandomGenerator.nextPos_after {gen : RandomGenerator} (size : 0 < gen.dataSize)
    (small : gen.dataSize ≤ intMax) (taken : ℤ) :
    (gen.after taken).nextPos = some ((taken + 1) % gen.dataSize) := by
  have low : 0 ≤ taken % gen.dataSize := Int.emod_nonneg _ size.ne'
  have high : taken % gen.dataSize < gen.dataSize := Int.emod_lt_of_pos _ size
  have low' := Int.emod_nonneg (taken + 1) size.ne'
  have high' := Int.emod_lt_of_pos (taken + 1) size
  have sum : int (taken % gen.dataSize + 1) = some (taken % gen.dataSize + 1) :=
    int_eq ⟨by omega, by omega⟩
  have wide : toSize (taken % gen.dataSize + 1) = taken % gen.dataSize + 1 := by
    simp only [intMax] at small
    exact toSize_eq (by omega) (by omega)
  simp only [nextPos, after, sum, Option.bind_eq_bind, Option.bind_some, wide, Int.emod_add_emod,
    ofSize_eq low' (by omega), Option.pure_def]

/-- One pass: the next byte of the repetition goes to the next place. -/
theorem generateByte_run {gen : RandomGenerator} (size : 0 < gen.dataSize)
    (small : gen.dataSize ≤ intMax) (taken : ℤ) {length i : ℤ} (inside : InBlock length i)
    (substr : Block) :
    generateByte length substr (gen.after taken) i =
      some ((setByte i (gen.cycle taken)).run substr, gen.after (taken + 1)) := by
  have readable : InBlock (gen.after taken).dataSize (gen.after taken).pos :=
    gen.after_ready size taken
  have storable : InBlock length (setByte i (gen.cycle taken)).addr := inside
  have read : (gen.after taken).data (gen.after taken).pos = gen.cycle taken := rfl
  rw [generateByte, load, if_pos readable, gen.nextPos_after size small, read]
  simp only [Option.bind_eq_bind, Option.bind_some, Edit.runIn, if_pos storable, Option.pure_def]
  rfl

/-- What one call returns and leaves, by the bytes given out before it. -/
theorem generate_run {gen : RandomGenerator} (size : 0 < gen.dataSize)
    (small : gen.dataSize ≤ intMax) (taken : ℤ) {len : ℤ} (nonneg : 0 ≤ len) (below : len < intMax)
    (fresh : Block) :
    generate (gen.after taken) len fresh =
      some (some (stretch gen.cycle taken (taken + len) ++ [0]), gen.after (taken + len)) := by
  have length : int (len + 1) = some (len + 1) := by
    apply int_eq
    simp only [InInt, intMax] at below ⊢
    omega
  let given (i : ℤ) (s : Block × RandomGenerator) : Prop :=
    s.2 = gen.after (taken + i) ∧ ∀ k, 0 ≤ k → k < i → s.1 k = gen.cycle (taken + k)
  have pass (i : ℤ) (s : Block × RandomGenerator) (first : 0 ≤ i) (last : i < len) (h : given i s) :
      ∃ s', generateByte (len + 1) s.1 s.2 i = some s' ∧ given (i + 1) s' := by
    obtain ⟨substr, gen'⟩ := s
    obtain ⟨rfl, text⟩ := h
    have inside : InBlock (len + 1) i := ⟨first, by omega⟩
    refine ⟨_, generateByte_run size small (taken + i) inside substr, by rw [add_assoc], ?_⟩
    intro k low high
    by_cases here : k = i
    · subst here
      exact run_self substr (setByte k (gen.cycle (taken + k)))
    · have other : (setByte i (gen.cycle (taken + i))).addr ≠ k := Ne.symm here
      have kept := text k low (by omega)
      exact (run_of_ne substr other).trans kept
  have start : given 0 (fresh, gen.after taken) := by
    refine ⟨by rw [add_zero], ?_⟩
    intro k low high
    omega
  obtain ⟨⟨substr, gen'⟩, loop, rfl, text⟩ := loopM_upto nonneg given pass start
  have room : InBlock (len + 1) (setByte len 0).addr := ⟨nonneg, lt_add_one len⟩
  have copied : ∀ i, 0 ≤ i → i < len → (setByte len 0).run substr i = gen.cycle (taken + i) := by
    intro i low high
    have other : (setByte len 0).addr ≠ i := high.ne'
    exact (run_of_ne substr other).trans (text i low high)
  have terminated : (setByte len 0).run substr len = 0 := run_self substr (setByte len 0)
  rw [generate, if_neg (not_lt.mpr nonneg), length]
  simp only [Option.bind_eq_bind, Option.bind_some, loop, Edit.runIn, if_pos room, Option.pure_def]
  rw [← stretch_append _ nonneg (lt_add_one len).le, stretch_one, terminated, stretch_shift copied]

theorem RandomGenerator.advance_after (gen : RandomGenerator) (taken : ℤ) :
    (gen.after taken).advance = gen.after (taken + 1) := by
  simp only [advance, after, Int.emod_add_emod]

/-- The call over the integers gives the same text. -/
theorem randGenGenerate_eq {gen : RandomGenerator} (size : 0 < gen.dataSize) (taken : ℤ) {len : ℤ}
    (nonneg : 0 ≤ len) :
    randGenGenerate (gen.after taken) len =
      some (some (stretch gen.cycle taken (taken + len)), gen.after (taken + len)) := by
  let given (i : ℤ) (s : List Byte × RandomGenerator) : Prop :=
    s = (stretch gen.cycle taken (taken + i), gen.after (taken + i))
  have pass (i : ℤ) (s : List Byte × RandomGenerator) (first : 0 ≤ i) (_ : i < len) (h : given i s) :
      ∃ s', (do
        let c ← load (InBlock s.2.dataSize) s.2.data s.2.pos
        return (s.1 ++ [c], s.2.advance)) = some s' ∧ given (i + 1) s' := by
    obtain rfl := h
    have readable : InBlock (gen.after (taken + i)).dataSize (gen.after (taken + i)).pos :=
      gen.after_ready size (taken + i)
    refine ⟨_, by rw [load, if_pos readable]; rfl, ?_⟩
    simp only [given, gen.advance_after]
    rw [← add_assoc, ← stretch_append gen.cycle (by omega : taken ≤ taken + i) (lt_add_one _).le,
      stretch_one]
    rfl
  have start : given 0 ([], gen.after taken) := by
    simp [given, stretch, trips_nil]
  obtain ⟨-, loop, rfl⟩ := loopM_upto nonneg given pass start
  rw [randGenGenerate, if_neg (not_lt.mpr nonneg)]
  exact congrArg (Option.bind · _) loop

/-- On a block of its own and below the largest `int`, the call computes what
`randGenGenerate` says. -/
theorem generate_refines {gen : RandomGenerator} (size : 0 < gen.dataSize)
    (small : gen.dataSize ≤ intMax) (taken : ℤ) {len : ℤ} (nonneg : 0 ≤ len) (below : len < intMax)
    (fresh : Block) :
    generate (gen.after taken) len fresh =
      (randGenGenerate (gen.after taken) len).map
        fun (text, gen') => (text.map (· ++ [0]), gen') := by
  rw [generate_run size small taken nonneg below, randGenGenerate_eq size taken nonneg]
  rfl

theorem generate_overflow (gen : RandomGenerator) (fresh : Block) : generate gen intMax fresh = none := by
  have overflow : int (intMax + 1) = none := int_eq_none (by simp [InInt])
  have nonneg : ¬ intMax < 0 := by simp [intMax]
  rw [generate, if_neg nonneg, overflow]
  rfl

/-- What a row of calls returns and leaves. -/
theorem generateAll_run {gen : RandomGenerator} (size : 0 < gen.dataSize)
    (small : gen.dataSize ≤ intMax) {calls : List (ℤ × Block)}
    (lens : ∀ call ∈ calls, 0 ≤ call.1 ∧ call.1 < intMax) (taken : ℤ) :
    ∃ texts : List (List Byte),
      generateAll (gen.after taken) calls =
        some (texts.map fun text => some (text ++ [0]), gen.after (taken + (calls.map Prod.fst).sum)) ∧
      texts.map (fun text => (text.length : ℤ)) = calls.map Prod.fst ∧
      texts.flatten = stretch gen.cycle taken (taken + (calls.map Prod.fst).sum) := by
  induction calls generalizing taken with
  | nil => exact ⟨[], by simp [generateAll], rfl, by simp [stretch, trips_nil]⟩
  | cons call calls ih =>
    obtain ⟨len, fresh⟩ := call
    obtain ⟨⟨nonneg, below⟩, rest⟩ := List.forall_mem_cons.mp lens
    obtain ⟨texts, run, lengths, flat⟩ := ih rest (taken + len)
    have total : 0 ≤ (calls.map Prod.fst).sum := by
      apply List.sum_nonneg
      intro len h
      obtain ⟨call, hc, rfl⟩ := List.mem_map.mp h
      exact (rest call hc).1
    have text : (stretch gen.cycle taken (taken + len)).length = len.toNat := by
      rw [length_stretch, add_sub_cancel_left]
    refine ⟨stretch gen.cycle taken (taken + len) :: texts, ?_, ?_, ?_⟩
    · rw [generateAll, generate_run size small taken nonneg below]
      simp only [Option.bind_eq_bind, Option.bind_some, run, Option.pure_def, List.map_cons,
        List.sum_cons, add_assoc]
    · rw [List.map_cons, List.map_cons, lengths, text, Int.toNat_of_nonneg nonneg]
    · rw [List.flatten_cons, flat, List.map_cons, List.sum_cons, ← add_assoc]
      exact stretch_append _ (by omega) (by omega)

theorem generateAll_overflow {gen : RandomGenerator} (size : 0 < gen.dataSize)
    (small : gen.dataSize ≤ intMax) {calls : List (ℤ × Block)}
    (lens : ∀ call ∈ calls, 0 ≤ call.1 ∧ call.1 ≤ intMax) (largest : ∃ call ∈ calls, call.1 = intMax)
    (taken : ℤ) : generateAll (gen.after taken) calls = none := by
  induction calls generalizing taken with
  | nil => simp at largest
  | cons call calls ih =>
    obtain ⟨len, fresh⟩ := call
    obtain ⟨⟨nonneg, le⟩, rest⟩ := List.forall_mem_cons.mp lens
    by_cases here : len = intMax
    · rw [here, generateAll, generate_overflow]
      rfl
    · have later : ∃ call ∈ calls, call.1 = intMax := by
        obtain ⟨call, member, eq⟩ := largest
        cases member with
        | head =>
          exact absurd eq here
        | tail _ member =>
          exact ⟨call, member, eq⟩
      rw [generateAll, generate_run size small taken nonneg (lt_of_le_of_ne le here)]
      simp only [Option.bind_eq_bind, Option.bind_some, ih rest later]
      rfl

theorem randGenInit_eq {length dataSize : ℤ} {data fresh : Block} {gen : RandomGenerator}
    (setup : randGenInit length data dataSize fresh = some gen) :
    gen.dataSize = dataSize ∧ gen = gen.after 0 := by
  obtain ⟨copied, -, made⟩ := Option.bind_eq_some_iff.mp setup
  obtain rfl := Option.some.inj made
  exact ⟨rfl, by simp [RandomGenerator.after]⟩

/-- A generator gives out consecutive pieces of the repetition of its data, of
the lengths asked for, exactly as long as no call asks for the largest `int`:
the length of the block for it overflows. -/
theorem generate_stream_iff {length dataSize : ℤ} {data freshData : Block} {gen : RandomGenerator}
    (setup : randGenInit length data dataSize freshData = some gen) (size : 1 ≤ dataSize)
    (small : dataSize ≤ intMax) {calls : List (ℤ × Block)}
    (lens : ∀ call ∈ calls, 0 ≤ call.1 ∧ call.1 ≤ intMax) :
    (∃ (texts : List (List Byte)) (gen' : RandomGenerator),
      generateAll gen calls = some (texts.map fun text => some (text ++ [0]), gen') ∧
      texts.map (fun text => (text.length : ℤ)) = calls.map Prod.fst ∧
      texts.flatten = stretch gen.cycle 0 (calls.map Prod.fst).sum ∧
      gen' = { gen with pos := (calls.map Prod.fst).sum % dataSize } ∧ gen'.Ready) ↔
    ∀ call ∈ calls, call.1 < intMax := by
  obtain ⟨rfl, start⟩ := randGenInit_eq setup
  constructor
  · rintro ⟨texts, gen', run, -⟩ call member
    by_contra large
    have largest : call.1 = intMax := le_antisymm (lens call member).2 (not_lt.mp large)
    rw [start, generateAll_overflow size small lens ⟨call, member, largest⟩] at run
    cases run
  · intro below
    obtain ⟨texts, run, lengths, flat⟩ := generateAll_run size small
      (fun call member => ⟨(lens call member).1, below call member⟩) 0
    rw [zero_add] at run flat
    rw [← start] at run
    exact ⟨texts, _, run, lengths, flat, rfl, gen.after_ready size _⟩

/-- Three calls that wrap around two bytes, one of them for no byte. -/
theorem generate_stream_wrapping :
    let calls : List (ℤ × Block) := [(3, fun _ => 0), (0, fun _ => 1), (2, fun _ => 2)]
    ∃ gen, randGenInit 2 (fun i => BitVec.ofInt 8 (97 + i)) 2 (fun _ => 0) = some gen ∧
      ∃ (texts : List (List Byte)) (gen' : RandomGenerator),
        generateAll gen calls = some (texts.map fun text => some (text ++ [0]), gen') ∧
        texts.map (fun text => (text.length : ℤ)) = calls.map Prod.fst ∧
        texts.flatten = stretch gen.cycle 0 (calls.map Prod.fst).sum ∧
        gen' = { gen with pos := (calls.map Prod.fst).sum % 2 } ∧ gen'.Ready := by
  intro calls
  obtain ⟨copied, copy⟩ := (memcpy_defined_iff (by norm_num : (0 : ℤ) < 2) 2 2 (fun _ => 0) 0
    fun i => BitVec.ofInt 8 (97 + i)).mpr (by norm_num)
  have setup : randGenInit 2 (fun i => BitVec.ofInt 8 (97 + i)) 2 (fun _ => 0) =
      some ⟨copied, 2, 0⟩ := by
    rw [randGenInit, copy]
    rfl
  refine ⟨_, setup, (generate_stream_iff setup (by norm_num) (by decide) ?_).mpr ?_⟩
  · simp [calls, intMax]
  · simp [calls, intMax]

/-- One byte of data, and a call for the largest `int`. -/
theorem generate_stream_overflow :
    (∃ gen, randGenInit 1 (fun _ => 32) 1 (fun _ => 0) = some gen ∧
      generateAll gen [(intMax, fun _ => 0)] = none) ∧ 0 ≤ intMax := by
  refine ⟨⟨_, rfl, ?_⟩, by decide⟩
  rw [generateAll, generate_overflow]
  rfl

end MorelloWorkloads.SqliteBench
