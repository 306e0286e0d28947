import MorelloWorkloads.Lib.CheckedInt
import MorelloWorkloads.Lib.FlatMemory

/-! `raw.c`: the array of latencies, which doubles when it is full. Allocations
succeed; what a grown block holds beyond the old values is arbitrary. -/
namespace MorelloWorkloads.SqliteBench
open CheckedInt FlatMemory

variable {α : Type}

/-- A block of `double`s: the bytes that were asked for, and the values. -/
structure Values (α : Type) where
  bytes : ℤ
  cell : ℤ → α

def Values.Holds (data : Values α) (i : ℤ) : Prop := 0 ≤ i ∧ 8 * (i + 1) ≤ data.bytes

instance (data : Values α) : DecidablePred data.Holds :=
  fun _ => inferInstanceAs (Decidable (_ ∧ _))

/-- `data_` is `none` when it is `NULL`. -/
structure Raw (α : Type) where
  data : Option (Values α)
  dataSize : ℤ
  pos : ℤ

def kNumData : ℤ := 1000000

def rawCalloc [Zero α] (_ : Raw α) : Raw α := ⟨some ⟨8 * kNumData, fun _ => 0⟩, kNumData, 0⟩

def rawRealloc (raw : Raw α) (fresh : ℤ → α) : Raw α :=
  match raw.data with
  | none => raw
  | some data =>
    let newSize := toSize (raw.dataSize * 2)
    let newData := ⟨toSize (8 * newSize), fun i => if data.Holds i then data.cell i else fresh i⟩
    { raw with data := some newData, dataSize := newSize }

/-- The old block is freed. -/
def rawClear [Zero α] (raw : Raw α) : Raw α := rawCalloc raw

/-- `raw_add` up to its store. -/
def rawReserve [Zero α] (raw : Raw α) (fresh : ℤ → α) : Raw α :=
  let raw := if raw.data.isNone then rawCalloc raw else raw
  if raw.dataSize ≤ toSize raw.pos then rawRealloc raw fresh else raw

/-- The store of `raw_add`. One outside the block and an overflow of the position are `none`. -/
def rawStore (raw : Raw α) (value : α) : Option (Raw α) :=
  match raw.data with
  | none => some raw
  | some data => do
    let cell ← (⟨raw.pos, fun _ => value⟩ : Edit ℤ α).runIn data.Holds data.cell
    let pos ← int (raw.pos + 1)
    return { raw with data := some { data with cell }, pos }

def rawAdd [Zero α] (raw : Raw α) (value : α) (fresh : ℤ → α) : Option (Raw α) :=
  rawStore (rawReserve raw fresh) value

/-- Calls in a row, each with what its block would hold if it grew. -/
def rawAddAll [Zero α] (raw : Raw α) (calls : List (α × (ℤ → α))) : Option (Raw α) :=
  calls.foldlM (fun raw call => rawAdd raw call.1 call.2) raw

/-- The array holds these values, in this order, in a block of its size. -/
structure Raw.Records (raw : Raw α) (values : List α) : Prop where
  data : ∃ cell, raw.data = some ⟨8 * raw.dataSize, cell⟩ ∧
    ∀ (i : ℕ) (h : i < values.length), cell i = values[i]
  pos : raw.pos = values.length
  room : raw.pos ≤ raw.dataSize
  size : ∃ j : ℕ, raw.dataSize = kNumData * 2 ^ j
  small : raw.dataSize < 2 ^ 32

variable {raw : Raw α} {values : List α}

theorem Raw.Records.size_pos (holds : raw.Records values) : 0 < raw.dataSize := by
  obtain ⟨j, size⟩ := holds.size
  rw [size]
  simp only [kNumData]
  positivity

/-- A full block is copied into one of twice its size. -/
theorem rawRealloc_records (holds : raw.Records values) (full : raw.pos = raw.dataSize)
    (few : values.length < 2 ^ 31) (fresh : ℤ → α) :
    (rawRealloc raw fresh).Records values ∧ (rawRealloc raw fresh).dataSize = raw.dataSize * 2 := by
  obtain ⟨cell, data, kept⟩ := holds.data
  obtain ⟨j, size⟩ := holds.size
  have pos := holds.pos
  have positive := holds.size_pos
  have doubled : toSize (raw.dataSize * 2) = raw.dataSize * 2 := toSize_eq (by omega) (by omega)
  have bytes : toSize (8 * (raw.dataSize * 2)) = 8 * (raw.dataSize * 2) :=
    toSize_eq (by omega) (by omega)
  have grown : rawRealloc raw fresh = ⟨some ⟨8 * (raw.dataSize * 2), fun i =>
      if (⟨8 * raw.dataSize, cell⟩ : Values α).Holds i then cell i else fresh i⟩,
      raw.dataSize * 2, raw.pos⟩ := by
    simp only [rawRealloc, data, doubled, bytes]
  rw [grown]
  refine ⟨⟨⟨_, rfl, ?_⟩, pos, ?_, ⟨j + 1, ?_⟩, ?_⟩, rfl⟩
  · intro i h
    have old : (⟨8 * raw.dataSize, cell⟩ : Values α).Holds i := by
      simp only [Values.Holds]
      omega
    rw [if_pos old, kept i h]
  · show raw.pos ≤ raw.dataSize * 2
    omega
  · show raw.dataSize * 2 = kNumData * 2 ^ (j + 1)
    rw [size, pow_succ, mul_assoc]
  · show raw.dataSize * 2 < 2 ^ 32
    omega

/-- Where there is room, the value goes after the others. -/
theorem rawStore_records (holds : raw.Records values) (space : raw.pos < raw.dataSize)
    (few : values.length + 1 < 2 ^ 31) (value : α) :
    ∃ raw', rawStore raw value = some raw' ∧ raw'.Records (values ++ [value]) := by
  obtain ⟨cell, data, kept⟩ := holds.data
  have pos := holds.pos
  have inside : (⟨8 * raw.dataSize, cell⟩ : Values α).Holds raw.pos := by
    simp only [Values.Holds]
    omega
  have next : int (raw.pos + 1) = some (raw.pos + 1) :=
    int_eq ⟨by omega, by simp only [intMax]; omega⟩
  let stored : ℤ → α := Function.update cell raw.pos value
  have run : rawStore raw value =
      some ⟨some ⟨8 * raw.dataSize, stored⟩, raw.dataSize, raw.pos + 1⟩ := by
    simp only [rawStore, data, Edit.runIn, if_pos inside, next, Option.bind_eq_bind,
      Option.bind_some, Option.pure_def]
    rfl
  refine ⟨_, run, ⟨stored, rfl, ?_⟩, ?_, space, holds.size, holds.small⟩
  · intro i h
    rw [List.length_append, List.length_singleton] at h
    rw [List.getElem_append]
    split
    · rename_i before
      have other : (i : ℤ) ≠ raw.pos := by omega
      exact (Function.update_of_ne other value cell).trans (kept i before)
    · rename_i last
      have here : (i : ℤ) = raw.pos := by omega
      rw [here, List.getElem_singleton]
      exact Function.update_self raw.pos value cell
  · show raw.pos + 1 = ((values ++ [value]).length : ℤ)
    rw [pos, List.length_append]
    rfl

variable [Zero α]

theorem rawClear_records (raw : Raw α) : (rawClear raw).Records [] where
  data := ⟨fun _ => 0, rfl, by simp⟩
  pos := rfl
  room := by simp [rawClear, rawCalloc, kNumData]
  size := ⟨0, by simp [rawClear, rawCalloc]⟩
  small := by simp [rawClear, rawCalloc, kNumData]

/-- A `NULL` array is allocated as a clear does it. -/
theorem rawReserve_null {raw : Raw α} (null : raw.data = none) (fresh : ℤ → α) :
    rawReserve raw fresh = rawClear raw := by
  have room : ¬ kNumData ≤ toSize 0 := by simp [kNumData, toSize]
  simp only [rawReserve, null, Option.isNone_none, if_true, rawCalloc, if_neg room, rawClear]

/-- Before the store there is room for one more value. -/
theorem rawReserve_records (holds : raw.Records values) (few : values.length < 2 ^ 31) (fresh : ℤ → α) :
    (rawReserve raw fresh).Records values ∧
      (rawReserve raw fresh).pos < (rawReserve raw fresh).dataSize := by
  obtain ⟨cell, data, -⟩ := holds.data
  have pos := holds.pos
  have room := holds.room
  have positive := holds.size_pos
  have wide : toSize raw.pos = raw.pos := toSize_eq (by omega) (by omega)
  by_cases full : raw.dataSize ≤ raw.pos
  · have grown : rawReserve raw fresh = rawRealloc raw fresh := by
      simp [rawReserve, data, wide, full]
    obtain ⟨records, size⟩ := rawRealloc_records holds (le_antisymm room full) few fresh
    rw [grown]
    refine ⟨records, ?_⟩
    rw [records.pos, size]
    omega
  · have kept : rawReserve raw fresh = raw := by
      simp [rawReserve, data, wide, full]
    rw [kept]
    exact ⟨holds, not_le.mp full⟩

theorem rawAdd_records (holds : raw.Records values) (few : values.length + 1 < 2 ^ 31) (value : α)
    (fresh : ℤ → α) :
    ∃ raw', rawAdd raw value fresh = some raw' ∧ raw'.Records (values ++ [value]) := by
  obtain ⟨reserved, space⟩ := rawReserve_records holds (by omega) fresh
  exact rawStore_records reserved space few value

theorem rawAddAll_records (holds : raw.Records values) (calls : List (α × (ℤ → α)))
    (few : values.length + calls.length < 2 ^ 31) :
    ∃ raw', rawAddAll raw calls = some raw' ∧ raw'.Records (values ++ calls.map Prod.fst) := by
  induction calls generalizing raw values with
  | nil => exact ⟨raw, rfl, by simpa using holds⟩
  | cons call calls ih =>
    obtain ⟨value, fresh⟩ := call
    rw [List.length_cons] at few
    obtain ⟨mid, here, kept⟩ := rawAdd_records holds (by omega) value fresh
    obtain ⟨raw', rest, final⟩ := ih kept (by simp; omega)
    refine ⟨raw', ?_, by simpa using final⟩
    rw [rawAddAll, List.foldlM_cons, here]
    exact rest

/-- After a clear, whatever was there before, every sequence of values is
recorded in order: each store finds room, and the size is a doubling of the first. -/
theorem raw_records_all (raw : Raw α) {calls : List (α × (ℤ → α))} (few : calls.length < 2 ^ 31) :
    (∃ raw' cell, rawAddAll (rawClear raw) calls = some raw' ∧
      raw'.pos = calls.length ∧ raw'.data = some ⟨8 * raw'.dataSize, cell⟩ ∧
      (∀ (i : ℕ) (h : i < calls.length), cell i = calls[i].1) ∧
      raw'.pos ≤ raw'.dataSize ∧ ∃ j : ℕ, raw'.dataSize = kNumData * 2 ^ j) ∧
    ∀ before value fresh after, calls = before ++ (value, fresh) :: after →
      ∃ mid, rawAddAll (rawClear raw) before = some mid ∧
        (rawReserve mid fresh).pos = before.length ∧
        (rawReserve mid fresh).pos < (rawReserve mid fresh).dataSize := by
  constructor
  · obtain ⟨raw', run, records⟩ := rawAddAll_records (rawClear_records raw) calls (by simpa using few)
    rw [List.nil_append] at records
    obtain ⟨cell, data, kept⟩ := records.data
    refine ⟨raw', cell, run, ?_, data, ?_, records.room, records.size⟩
    · rw [records.pos, List.length_map]
    · intro i h
      rw [kept i (by simpa using h), List.getElem_map]
  · rintro before value fresh after rfl
    rw [List.length_append] at few
    obtain ⟨mid, run, records⟩ := rawAddAll_records (rawClear_records raw) before (by simp; omega)
    rw [List.nil_append] at records
    obtain ⟨reserved, space⟩ := rawReserve_records records (by simp; omega) fresh
    refine ⟨mid, run, ?_, space⟩
    rw [reserved.pos, List.length_map]

/-- Three values over an array that an earlier benchmark filled. -/
theorem raw_records_three :
    let old : Raw ℚ := ⟨some ⟨8 * kNumData, fun i => i⟩, kNumData, kNumData⟩
    let calls : List (ℚ × (ℤ → ℚ)) := [(5, fun _ => 7), (1 / 2, fun _ => 7), (5, fun _ => 7)]
    (∃ raw' cell, rawAddAll (rawClear old) calls = some raw' ∧
      raw'.pos = calls.length ∧ raw'.data = some ⟨8 * raw'.dataSize, cell⟩ ∧
      (∀ (i : ℕ) (h : i < calls.length), cell i = calls[i].1) ∧
      raw'.pos ≤ raw'.dataSize ∧ ∃ j : ℕ, raw'.dataSize = kNumData * 2 ^ j) ∧
    ∀ before value fresh after, calls = before ++ (value, fresh) :: after →
      ∃ mid, rawAddAll (rawClear old) before = some mid ∧
        (rawReserve mid fresh).pos = before.length ∧
        (rawReserve mid fresh).pos < (rawReserve mid fresh).dataSize :=
  raw_records_all _ (by decide)

end MorelloWorkloads.SqliteBench
