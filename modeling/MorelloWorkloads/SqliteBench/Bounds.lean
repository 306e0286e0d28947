import MorelloWorkloads.SqliteBench.Random
import MorelloWorkloads.SqliteBench.Raw
import Mathlib.Data.List.TakeWhile

/-! `CHERI_CHECK_BOUNDS` of `bench.h` where the program uses it. The check compares
with the extent of the bounds, wherever in them the pointer stands. -/
namespace MorelloWorkloads.SqliteBench
open CountedLoop CheckedInt

structure Capability where
  tag : Bool
  base : ℤ
  length : ℤ
  address : ℤ

namespace Capability

/-- `p + k`, in bytes. -/
def offset (p : Capability) (k : ℤ) : Capability := { p with address := p.address + k }

/-- `CHERI_CHECK_BOUNDS(p, size)` does not exit. -/
def Passes (p : Capability) (size : ℤ) : Prop := ¬ (p.tag = false ∨ p.length < size)

instance (p : Capability) : DecidablePred p.Passes := fun _ => inferInstanceAs (Decidable (¬ _))

/-- The `size` bytes at `p` lie within its bounds. -/
def Inside (p : Capability) (size : ℤ) : Prop :=
  p.base ≤ p.address ∧ p.address + size ≤ p.base + p.length

/-- What an allocation of `size` bytes returns. The bounds may be wider. -/
structure Covers (p : Capability) (size : ℤ) : Prop where
  tag : p.tag = true
  start : p.address = p.base
  room : size ≤ p.length

end Capability

/-- A checked pointer, and the bytes that are then accessed. -/
structure Access where
  pointer : Capability
  size : ℤ

def Access.Passes (a : Access) : Prop := a.pointer.Passes a.size
def Access.Inside (a : Access) : Prop := a.pointer.Inside a.size

instance : DecidablePred Access.Passes := fun a => inferInstanceAs (Decidable (a.pointer.Passes a.size))

/-- The accesses that are made: those before the first check that exits. -/
def reached (accesses : List Access) : List Access := accesses.takeWhile fun a => a.Passes

def sizeofRandom : ℤ := 32
def sizeofRandomGenerator : ℤ := 32
def sizeofRaw : ℤ := 32

/-! ## The accesses of each function -/

/-- A call of `compressible_string` with its pointers. Of the length of the text only the
bounds count that it has for every fraction (`rawLength_bounds`). -/
structure StringCall where
  len : ℤ
  raw : ℤ
  nonneg : 0 ≤ len
  low : 1 ≤ raw
  high : raw ≤ max 1 len
  rnd : Capability
  rawData : Capability
  dst : Capability
  rnd_covers : rnd.Covers sizeofRandom
  rawData_covers : rawData.Covers raw
  dst_covers : dst.Covers len

/-- The accesses before the copying loop. -/
def StringCall.opening (call : StringCall) : List Access :=
  [⟨call.rnd, sizeofRandom⟩, ⟨call.rawData, call.raw⟩] ++
    (trips 0 call.raw 1).map (fun i => ⟨call.rawData.offset i, 1⟩) ++ [⟨call.dst, call.len⟩]

/-- One pass of the copying loop. -/
def StringCall.copy (call : StringCall) (pos : ℤ) : List Access :=
  [⟨call.rawData, call.raw⟩, ⟨call.dst.offset pos, call.raw⟩]

def StringCall.accesses (call : StringCall) : List Access :=
  call.opening ++ (trips 0 call.len call.raw).flatMap call.copy

/-- A call of `rand_gen_generate` on a generator in any state that it reaches. -/
structure GenerateCall where
  gen : RandomGenerator
  len : ℤ
  ready : gen.Ready
  nonneg : 0 ≤ len
  self : Capability
  data : Capability
  substr : Capability
  self_covers : self.Covers sizeofRandomGenerator
  data_covers : data.Covers gen.dataSize
  substr_covers : substr.Covers (len + 1)

/-- One pass of the loop: the accesses so far, and the generator. -/
def GenerateCall.byte (call : GenerateCall) (s : List Access × RandomGenerator) (i : ℤ) :
    List Access × RandomGenerator :=
  (s.1 ++ [⟨call.data.offset s.2.pos, 1⟩, ⟨call.substr.offset i, 1⟩], s.2.advance)

def GenerateCall.accesses (call : GenerateCall) : List Access :=
  [⟨call.self, sizeofRandomGenerator⟩, ⟨call.data, call.gen.dataSize⟩,
    ⟨call.substr, call.len + 1⟩] ++ (loop 0 call.len 1 ([], call.gen) call.byte).1

/-- A call of `raw_add` in any state that recording reaches; `data` is where
`data_` points, and `fresh` and `grown` are what the allocations return. -/
structure AddCall (α : Type) where
  raw : Raw α
  values : List α
  state : raw.data = none ∨ raw.Records values
  few : values.length < 2 ^ 31
  self : Capability
  data : Capability
  fresh : Capability
  grown : Capability
  self_covers : self.Covers sizeofRaw
  data_covers : data.Covers (8 * raw.dataSize)
  fresh_covers : fresh.Covers (8 * kNumData)
  grown_covers : grown.Covers (8 * (raw.dataSize * 2))

variable {α : Type}

/-- The accesses so far, and the fields that `raw_add` goes on with. -/
structure Held where
  accesses : List Access
  dataSize : ℤ
  pos : ℤ
  data : Capability

/-- After `if (!raw_->data_) raw_calloc(raw_)`. -/
def AddCall.allocated (call : AddCall α) : Held :=
  if call.raw.data.isNone then
    ⟨[⟨call.self, sizeofRaw⟩, ⟨call.fresh, 8 * kNumData⟩], kNumData, 0, call.fresh⟩
  else ⟨[], call.raw.dataSize, call.raw.pos, call.data⟩

/-- After `if (raw_->data_size_ <= raw_->pos_) raw_realloc(raw_)`. -/
def AddCall.reserved (call : AddCall α) : Held :=
  let held := call.allocated
  if held.dataSize ≤ toSize held.pos then
    { held with
      accesses := held.accesses ++ [⟨call.self, sizeofRaw⟩, ⟨held.data, held.dataSize * 8⟩,
        ⟨call.grown, 8 * (held.dataSize * 2)⟩]
      dataSize := held.dataSize * 2
      data := call.grown }
  else held

def AddCall.accesses (call : AddCall α) : List Access :=
  ⟨call.self, sizeofRaw⟩ :: call.reserved.accesses ++
    [⟨call.reserved.data.offset (8 * call.reserved.pos), 8⟩]

/-! ## What the checks give -/

theorem reached_eq {accesses : List Access} (pass : ∀ a ∈ accesses, a.Passes) :
    reached accesses = accesses := by
  apply List.takeWhile_eq_self_iff.mpr
  intro a member
  simpa using pass a member

/-- An access that is checked for and lies inside. -/
def Access.Sound (a : Access) : Prop := a.Passes ∧ a.Inside

section Covers
variable {p : Capability} {size : ℤ} (covers : p.Covers size)
include covers

theorem Capability.Covers.passes {n : ℤ} (le : n ≤ size) (k : ℤ) : (p.offset k).Passes n := by
  rintro (untagged | short)
  · rw [Capability.offset, covers.tag] at untagged
    cases untagged
  · have room := covers.room
    simp only [Capability.offset] at short
    omega

theorem Capability.Covers.sound {n k : ℤ} (low : 0 ≤ k) (high : k + n ≤ size) :
    Access.Sound ⟨p.offset k, n⟩ := by
  have start := covers.start
  have room := covers.room
  have le : n ≤ size := by omega
  refine ⟨covers.passes le k, ?_⟩
  simp only [Access.Inside, Capability.Inside, Capability.offset]
  omega

theorem Capability.Covers.sound_whole {n : ℤ} (le : n ≤ size) : Access.Sound ⟨p, n⟩ := by
  have here : p.offset 0 = p := by simp [Capability.offset]
  rw [← here]
  apply covers.sound le_rfl
  rwa [zero_add]

end Covers

theorem reached_of_sound {accesses : List Access} (sound : ∀ a ∈ accesses, a.Sound) :
    ∀ a ∈ reached accesses, a.Inside := by
  intro a member
  rw [reached_eq fun a ha => (sound a ha).1] at member
  exact (sound a member).2

/-! ## `rand_gen_generate` and `raw_add` -/

theorem forall_append {l k : List Access} (first : ∀ a ∈ l, a.Sound) (second : ∀ a ∈ k, a.Sound) :
    ∀ a ∈ l ++ k, a.Sound := List.forall_mem_append.mpr ⟨first, second⟩

theorem GenerateCall.sound (call : GenerateCall) : ∀ a ∈ call.accesses, a.Sound := by
  have bytes : (loop 0 call.len 1 ([], call.gen) call.byte).2.Ready ∧
      (loop 0 call.len 1 ([], call.gen) call.byte).2.dataSize = call.gen.dataSize ∧
      ∀ a ∈ (loop 0 call.len 1 ([], call.gen) call.byte).1, a.Sound := by
    apply loop_run fun _ (s : List Access × RandomGenerator) =>
      s.2.Ready ∧ s.2.dataSize = call.gen.dataSize ∧ ∀ a ∈ s.1, a.Sound
    · rintro taken ⟨accesses, gen⟩ i hi ⟨stays, size, sound⟩
      obtain ⟨low, high⟩ := mem_trips_one.mp hi
      have room : gen.pos + 1 ≤ call.gen.dataSize := size ▸ stays.2
      refine ⟨stays.advance, size, forall_append sound ?_⟩
      simp only [List.forall_mem_cons]
      exact ⟨call.data_covers.sound stays.1 room, call.substr_covers.sound low (by omega), by simp⟩
    · exact ⟨call.ready, rfl, by simp⟩
  apply forall_append _ bytes.2.2
  simp only [List.forall_mem_cons]
  exact ⟨call.self_covers.sound_whole le_rfl, call.data_covers.sound_whole le_rfl,
    call.substr_covers.sound_whole le_rfl, by simp⟩

/-- The accesses so far are sound, and `data` covers the array. -/
structure Held.Holds (held : Held) : Prop where
  sound : ∀ a ∈ held.accesses, a.Sound
  low : 0 ≤ held.pos
  few : held.pos < 2 ^ 31
  room : held.pos ≤ held.dataSize
  positive : 0 < held.dataSize
  covers : held.data.Covers (8 * held.dataSize)

theorem AddCall.allocated_holds (call : AddCall α) : call.allocated.Holds := by
  unfold AddCall.allocated
  split
  · refine ⟨?_, le_rfl, by norm_num, by simp [kNumData], by simp [kNumData], call.fresh_covers⟩
    simp only [List.forall_mem_cons]
    exact ⟨call.self_covers.sound_whole le_rfl, call.fresh_covers.sound_whole le_rfl, by simp⟩
  · rename_i kept
    have records : call.raw.Records call.values := by
      cases call.state with
      | inl null =>
        simp [null] at kept
      | inr records =>
        exact records
    have pos := records.pos
    have few := call.few
    exact ⟨by simp, by simp only; omega, by simp only; omega, records.room, records.size_pos,
      call.data_covers⟩

/-- After the growth there is room for one more value. -/
theorem AddCall.reserved_holds (call : AddCall α) :
    call.reserved.Holds ∧ call.reserved.pos < call.reserved.dataSize := by
  obtain ⟨sound, low, few, room, positive, covers⟩ := call.allocated_holds
  have wide : toSize call.allocated.pos = call.allocated.pos := toSize_eq low (by omega)
  unfold AddCall.reserved
  simp only [wide]
  split
  · rename_i full
    have kept : call.raw.data.isNone = false := by
      by_contra null
      have unused : call.allocated.pos = 0 ∧ call.allocated.dataSize = kNumData := by
        simp [AddCall.allocated, eq_true_of_ne_false null]
      simp [unused, kNumData] at full
    have size : call.allocated.dataSize = call.raw.dataSize := by simp [AddCall.allocated, kept]
    have grown := call.grown_covers
    rw [← size] at grown
    refine ⟨⟨?_, low, few, by simp only; omega, by simp only; omega, grown⟩, by simp only; omega⟩
    simp only [List.forall_mem_append, List.forall_mem_cons]
    exact ⟨sound, call.self_covers.sound_whole le_rfl, covers.sound_whole (by omega),
      grown.sound_whole le_rfl, by simp⟩
  · rename_i space
    exact ⟨call.allocated_holds, not_le.mp space⟩

/-- The fields are those that the faithful `raw_add` stores with. -/
theorem AddCall.reserved_eq [Zero α] (call : AddCall α) (fresh : ℤ → α) :
    call.reserved.pos = (rawReserve call.raw fresh).pos ∧
      call.reserved.dataSize = (rawReserve call.raw fresh).dataSize := by
  cases call.state with
  | inl null =>
    have room : ¬ kNumData ≤ toSize 0 := by simp [kNumData, toSize]
    rw [rawReserve_null null]
    simp [AddCall.reserved, AddCall.allocated, null, room, rawClear, rawCalloc]
  | inr records =>
    obtain ⟨cell, data, -⟩ := records.data
    have small := records.small
    have doubled : toSize (call.raw.dataSize * 2) = call.raw.dataSize * 2 :=
      toSize_eq (by have := records.size_pos; omega) (by omega)
    by_cases full : call.raw.dataSize ≤ toSize call.raw.pos
    · simp [AddCall.reserved, AddCall.allocated, rawReserve, rawRealloc, data, full, doubled]
    · simp [AddCall.reserved, AddCall.allocated, rawReserve, data, full]

theorem AddCall.sound (call : AddCall α) : ∀ a ∈ call.accesses, a.Sound := by
  obtain ⟨holds, space⟩ := call.reserved_holds
  have low := holds.low
  apply forall_append
  · exact List.forall_mem_cons.mpr ⟨call.self_covers.sound_whole le_rfl, holds.sound⟩
  · exact List.forall_mem_singleton.mpr (holds.covers.sound (by omega) (by omega))

/-! ## `compressible_string` -/

theorem StringCall.raw_pos (call : StringCall) : 0 < call.raw := call.low

theorem StringCall.opening_sound (call : StringCall) : ∀ a ∈ call.opening, a.Sound := by
  apply forall_append _ (List.forall_mem_singleton.mpr (call.dst_covers.sound_whole le_rfl))
  apply forall_append
  · simp only [List.forall_mem_cons]
    exact ⟨call.rnd_covers.sound_whole le_rfl, call.rawData_covers.sound_whole le_rfl, by simp⟩
  · intro a member
    obtain ⟨i, hi, rfl⟩ := List.mem_map.mp member
    obtain ⟨low, high⟩ := mem_trips_one.mp hi
    exact call.rawData_covers.sound low high

/-- All checks pass, since each compares with a whole block. -/
theorem StringCall.passes (call : StringCall) : ∀ a ∈ call.accesses, a.Passes := by
  intro a member
  cases List.mem_append.mp member with
  | inl opening =>
    exact (call.opening_sound a opening).1
  | inr copies =>
    obtain ⟨pos, hpos, copy⟩ := List.mem_flatMap.mp copies
    have nonempty : 0 < call.len := by
      obtain ⟨k, rfl, lt⟩ := (mem_trips call.raw_pos).mp hpos
      have start : 0 ≤ call.raw * (k : ℤ) := mul_nonneg call.raw_pos.le (Int.natCast_nonneg k)
      omega
    have short : call.raw ≤ call.len := call.high.trans (max_le nonempty le_rfl)
    cases copy with
    | head =>
      exact (call.rawData_covers.sound_whole le_rfl).1
    | tail _ copy =>
      rw [List.mem_singleton.mp copy]
      exact call.dst_covers.passes short pos

/-- Every copy ends no later than the whole row of them. -/
theorem StringCall.copy_ends (call : StringCall) {pos : ℤ} (pass : pos ∈ trips 0 call.len call.raw) :
    0 ≤ pos ∧ pos + call.raw ≤ call.raw * ((call.len + call.raw - 1) / call.raw) := by
  have raw := call.raw_pos
  have nonneg := call.nonneg
  have copies : 0 ≤ (call.len + call.raw - 1) / call.raw := Int.ediv_nonneg (by omega) raw.le
  constructor
  · obtain ⟨k, rfl, -⟩ := (mem_trips raw).mp pass
    positivity
  · rw [trips_covered raw] at pass
    exact (strides_fit_iff raw (mul_nonneg raw.le copies)).mpr (dvd_mul_right _ _) pos pass

/-- The last copy, if there is any. -/
theorem StringCall.last_copy_mem (call : StringCall)
    (some_made : 0 < (call.len + call.raw - 1) / call.raw) :
    ⟨call.dst.offset (call.raw * ((call.len + call.raw - 1) / call.raw - 1)), call.raw⟩ ∈
      call.accesses := by
  have raw := call.raw_pos
  have last : call.raw * ((call.len + call.raw - 1) / call.raw - 1) ∈ trips 0 call.len call.raw := by
    rw [trips_covered raw, mem_trips raw]
    refine ⟨((call.len + call.raw - 1) / call.raw - 1).toNat, ?_, ?_⟩
    · rw [Int.toNat_of_nonneg (by omega), zero_add]
    · exact mul_lt_mul_of_pos_left (by omega) raw
  apply List.mem_append_right
  exact List.mem_flatMap.mpr ⟨_, last, by simp [StringCall.copy]⟩

/-- The copies stay inside exactly when the last of them ends within the bounds. -/
theorem StringCall.inside_iff (call : StringCall) :
    (∀ a ∈ reached call.accesses, a.Inside) ↔
      call.raw * ((call.len + call.raw - 1) / call.raw) ≤ call.dst.length := by
  have nonneg := call.nonneg
  have room := call.dst_covers.room
  have start := call.dst_covers.start
  have copies : 0 ≤ (call.len + call.raw - 1) / call.raw :=
    Int.ediv_nonneg (by have := call.raw_pos; omega) call.raw_pos.le
  rw [reached_eq call.passes]
  constructor
  · intro inside
    cases copies.eq_or_lt with
    | inl none_made =>
      rw [← none_made, mul_zero]
      exact nonneg.trans room
    | inr some_made =>
      have ends := (inside _ (call.last_copy_mem some_made)).2
      simp only [Capability.offset, mul_sub, mul_one] at ends
      omega
  · intro fits a member
    cases List.mem_append.mp member with
    | inl opening => exact (call.opening_sound a opening).2
    | inr copied =>
      obtain ⟨pos, hpos, copy⟩ := List.mem_flatMap.mp copied
      obtain ⟨low, ends⟩ := call.copy_ends hpos
      cases copy with
      | head => exact (call.rawData_covers.sound_whole le_rfl).2
      | tail _ copy =>
        rw [List.mem_singleton.mp copy]
        exact ⟨by simp only [Capability.offset]; omega, by simp only [Capability.offset]; omega⟩

/-- The checks of the three functions make their accesses safe exactly when the
copies of `compressible_string` end within the bounds of its string. -/
theorem checks_suffice_iff (string : StringCall) (generate : GenerateCall) (add : AddCall α) :
    ((∀ a ∈ reached string.accesses, a.Inside) ∧ (∀ a ∈ reached generate.accesses, a.Inside) ∧
      ∀ a ∈ reached add.accesses, a.Inside) ↔
    string.raw * ((string.len + string.raw - 1) / string.raw) ≤ string.dst.length := by
  constructor
  · intro inside
    exact string.inside_iff.mp inside.1
  · intro fits
    exact ⟨string.inside_iff.mpr fits, reached_of_sound generate.sound, reached_of_sound add.sound⟩

/-- A pointer to a block with bounds of its own. -/
def block (base size : ℤ) : Capability := ⟨true, base, size, base⟩

theorem block_covers (base size : ℤ) : (block base size).Covers size := ⟨rfl, rfl, le_rfl⟩

/-- A string of 100 bytes and this ratio, in bounds of just the sizes asked for. -/
def stringCall (compressedFraction : ℚ) (low : 0 ≤ compressedFraction) (high : compressedFraction ≤ 1) :
    StringCall where
  len := 100
  raw := rawLength compressedFraction 100
  nonneg := by norm_num
  low := (rawLength_bounds low high (by norm_num) (by norm_num)).1
  high := (rawLength_bounds low high (by norm_num) (by norm_num)).2
  rnd := block 0 sizeofRandom
  rawData := block 4096 (rawLength compressedFraction 100)
  dst := block 8192 100
  rnd_covers := block_covers _ _
  rawData_covers := block_covers _ _
  dst_covers := block_covers _ _

def generateCall : GenerateCall where
  gen := ⟨fun _ => 32, 50, 49⟩
  len := 100
  ready := ⟨by norm_num, by norm_num⟩
  nonneg := by norm_num
  self := block 0 sizeofRandomGenerator
  data := block 4096 50
  substr := block 8192 101
  self_covers := block_covers _ _
  data_covers := block_covers _ _
  substr_covers := block_covers _ _

def addCall : AddCall ℚ where
  raw := ⟨none, 0, 0⟩
  values := []
  state := Or.inl rfl
  few := by norm_num
  self := block 0 sizeofRaw
  data := block 4096 0
  fresh := block 8192 (8 * kNumData)
  grown := block 4096 0
  self_covers := block_covers _ _
  data_covers := block_covers _ _
  fresh_covers := block_covers _ _
  grown_covers := block_covers _ _

/-- The default ratio: two copies of 50 bytes. -/
theorem checks_suffice_default :
    let string := stringCall (1 / 2) (by norm_num) (by norm_num)
    (∀ a ∈ reached string.accesses, a.Inside) ∧ (∀ a ∈ reached generateCall.accesses, a.Inside) ∧
      ∀ a ∈ reached addCall.accesses, a.Inside := by
  intro string
  have raw : string.raw = 50 := rawLength_half
  apply (checks_suffice_iff string generateCall addCall).mpr
  rw [raw]
  simp [string, stringCall, block]

/-- At 0.3 the check of the fourth copy passes, and the copy takes the bytes from
90 to 119 of 100. -/
theorem checks_insufficient :
    let string := stringCall threeTenths threeTenths_range.1 threeTenths_range.2
    ∃ a ∈ reached string.accesses, a.Passes ∧ ¬ a.Inside := by
  intro string
  have raw : string.raw = 30 := rawLength_threeTenths
  have pass : 90 ∈ trips 0 string.len string.raw := by
    rw [raw]
    decide
  have member : (⟨string.dst.offset 90, string.raw⟩ : Access) ∈ string.accesses := by
    apply List.mem_append_right
    exact List.mem_flatMap.mpr ⟨90, pass, by simp [StringCall.copy]⟩
  refine ⟨_, by rwa [reached_eq string.passes], string.passes _ member, ?_⟩
  rw [raw]
  simp [Access.Inside, Capability.Inside, Capability.offset, string, stringCall, block]

/-- With bounds of the length of the string, that is when the copying of the
faithful program is defined. -/
theorem checks_suffice_iff_copies (string : StringCall) (tight : string.dst.length = string.len)
    (data fresh : Block) :
    (∀ a ∈ reached string.accesses, a.Inside) ↔
      ∃ dst, repeatRaw string.raw string.len data fresh = some dst := by
  have least : string.len ≤ string.raw * ((string.len + string.raw - 1) / string.raw) := by
    have parts := Int.emod_add_mul_ediv (string.len + string.raw - 1) string.raw
    have small := Int.emod_lt_of_pos (string.len + string.raw - 1) string.raw_pos
    omega
  rw [string.inside_iff, tight, repeatRaw_defined_iff string.raw_pos string.nonneg,
    ← covered_eq_iff string.raw_pos]
  exact ⟨fun le => le_antisymm le least, le_of_eq⟩

end MorelloWorkloads.SqliteBench
