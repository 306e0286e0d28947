import MorelloWorkloads.Lib.Tiles
import Mathlib.Data.BitVec

/-! How `compressStream` cuts its input: the chunk size, the number of threads
that it keeps, and the pass loop that gives each chunk to a job. -/
namespace MorelloWorkloads.Pxz
open CountedLoop Tiles

def pageSize : BitVec 64 := 0x100000

/-- `(chunk_size + page_size) & ~(page_size - 1)`, of type `size_t`. -/
def chunkWord (context : ℤ) : BitVec 64 := (BitVec.ofInt 64 context + pageSize) &&& ~~~(pageSize - 1)

/-- The value as it is assigned to an `int64_t`. -/
def chunkSize (context : ℤ) : ℤ := (chunkWord context).toInt

/-- Threads that would have no work are given up. -/
def trimThreads (threads chunk length : ℤ) : ℤ :=
  if threads * chunk > length ∧ threads > length / chunk + 1 then length / chunk + 1 else threads

/-- How much input the pass that begins at `m` takes. -/
def passLength (threads chunk length m : ℤ) : ℤ :=
  if length - m ≤ threads * chunk then length - m else threads * chunk

/-- Offset and length of each chunk of a pass, in the order of creation. -/
def jobs (chunk m rd : ℤ) : List (ℤ × ℤ) :=
  (trips 0 ((rd + chunk - 1) / chunk) 1).map fun p =>
    (m + p * chunk, if rd - p * chunk ≥ chunk then chunk else rd - p * chunk)

section PassLoop
variable {σ : Type*} (threads chunk length : ℤ) (body : σ → ℤ → ℤ → Option σ)

/-- `while (m < length) { ..; m += rd; }`, for at most `fuel` tests. -/
def passLoop : ℕ → σ → ℤ → Option σ
  | 0, _, _ => none
  | fuel + 1, s, m =>
    if m < length then do
      let rd := passLength threads chunk length m
      let s ← body s m rd
      passLoop fuel s (m + rd)
    else some s

end PassLoop

/-- The jobs of every pass. -/
def allJobs (threads chunk length : ℤ) (fuel : ℕ) : Option (List (List (ℤ × ℤ))) :=
  passLoop threads chunk length (fun passes m rd => some (passes ++ [jobs chunk m rd])) fuel [] 0

/-! ## The chunk size -/

theorem mask_eq_shift (x : BitVec 64) : x &&& ~~~(pageSize - 1) = (x >>> 20) <<< 20 := by
  have mask : pageSize - 1 = BitVec.ofNat 64 (2 ^ 20 - 1) := by decide
  rw [mask]
  apply BitVec.eq_of_getLsbD_eq
  intro i hi
  simp only [BitVec.getLsbD_and, BitVec.getLsbD_not, BitVec.getLsbD_ofNat,
    Nat.testBit_two_pow_sub_one, BitVec.getLsbD_shiftLeft, BitVec.getLsbD_ushiftRight, hi,
    decide_true, Bool.true_and]
  by_cases h : i < 20
  · simp [h]
  · simp [h, show 20 + (i - 20) = i by omega]

/-- The mask rounds `context + pageSize` down to a page boundary. -/
theorem chunkWord_toNat {context : ℤ} (h₀ : 0 ≤ context) (h : context < 2 ^ 63) :
    ((chunkWord context).toNat : ℤ) = (context + 2 ^ 20) / 2 ^ 20 * 2 ^ 20 := by
  have sum : (BitVec.ofInt 64 context + pageSize).toNat = context.toNat + 2 ^ 20 := by
    have hp : pageSize.toNat = 2 ^ 20 := by decide
    rw [BitVec.toNat_add, BitVec.toNat_ofInt, hp]
    omega
  have hlt := (BitVec.ofInt 64 context + pageSize).isLt
  rw [chunkWord, mask_eq_shift, BitVec.toNat_shiftLeft, BitVec.toNat_ushiftRight,
    Nat.shiftRight_eq_div_pow, Nat.shiftLeft_eq, Nat.mod_eq_of_lt (by omega), sum]
  omega

theorem chunkSize_eq {context : ℤ} (h₀ : 0 ≤ context) (h : context < 2 ^ 63)
    (fits : ((chunkWord context).toNat : ℤ) < 2 ^ 63) :
    chunkSize context = (context + 2 ^ 20) / 2 ^ 20 * 2 ^ 20 := by
  rw [chunkSize, BitVec.toInt_eq_toNat_of_lt (by omega), chunkWord_toNat h₀ h]

/-! ## The pass loop -/

variable {threads chunk length : ℤ}

theorem jobs_eq_tiles (m rd : ℤ) : jobs chunk m rd = tiles chunk m (m + rd) := by
  have count : tripCount 0 ((rd + chunk - 1) / chunk) 1 = tripCount m (m + rd) chunk := by
    simp [tripCount]
  rw [jobs, tiles, trips, trips, count, List.map_map, List.map_map]
  apply List.map_congr_left
  intro k _
  simp only [Function.comp_apply, zero_add, one_mul, mul_comm chunk, Prod.mk.injEq, true_and]
  split <;> omega

theorem passLength_eq (m : ℤ) :
    passLength threads chunk length m = min (threads * chunk) (length - m) := by
  unfold passLength
  split <;> omega

theorem trimThreads_bounds (ht : 1 ≤ threads) (hc : 0 < chunk) (hl : 0 ≤ length) :
    1 ≤ trimThreads threads chunk length ∧ trimThreads threads chunk length ≤ threads := by
  have := Int.ediv_nonneg hl hc.le
  unfold trimThreads
  split <;> omega

section PassLoop
variable {σ : Type*} (body : σ → ℤ → ℤ → Option σ)

theorem passLoop_step (fuel : ℕ) (s : σ) {m : ℤ} (h : m < length) :
    passLoop threads chunk length body (fuel + 1) s m =
      (body s m (passLength threads chunk length m)).bind fun s' =>
        passLoop threads chunk length body fuel s' (m + passLength threads chunk length m) := by
  rw [passLoop, if_pos h]
  rfl

theorem passLoop_done (fuel : ℕ) (s : σ) {m : ℤ} (h : length ≤ m) :
    passLoop threads chunk length body (fuel + 1) s m = some s := by
  rw [passLoop, if_neg (by omega)]

/-- A short last pass ends the input. -/
theorem trips_next (hg : 0 < threads * chunk) (m : ℤ) :
    trips (m + passLength threads chunk length m) length (threads * chunk) =
      trips (m + threads * chunk) length (threads * chunk) := by
  rw [passLength_eq]
  cases le_total (threads * chunk) (length - m) with
  | inl hle => rw [min_eq_left hle]
  | inr hle => rw [min_eq_right hle, trips_nil hg (by omega), trips_nil hg (by omega)]

/-- The passes begin at the multiples of what a pass can take. The loop ends
when its fuel outlasts them, and not before. -/
theorem passLoop_eq (hg : 0 < threads * chunk) (fuel : ℕ) (s : σ) (m : ℤ) :
    passLoop threads chunk length body fuel s m =
      if (trips m length (threads * chunk)).length < fuel then
        (trips m length (threads * chunk)).foldlM
          (fun s m => body s m (passLength threads chunk length m)) s
      else none := by
  induction fuel generalizing s m with
  | zero => simp [passLoop]
  | succ fuel ih =>
    by_cases h : m < length
    · rw [passLoop_step body fuel s h, trips_cons hg h, List.foldlM_cons]
      cases hb : body s m (passLength threads chunk length m) with
      | none => simp
      | some s' =>
        simp only [Option.bind_some, Option.bind_eq_bind, List.length_cons, Nat.add_lt_add_iff_right]
        rw [ih, trips_next hg]
    · rw [passLoop_done body fuel s (not_lt.mp h), trips_nil hg (not_lt.mp h)]
      simp

end PassLoop

/-- The tiles of the passes. -/
def passTiles (threads chunk length : ℤ) : List (List (ℤ × ℤ)) :=
  (trips 0 length (threads * chunk)).map fun m => tiles chunk m (min (m + threads * chunk) length)

theorem allJobs_eq (ht : 1 ≤ threads) (hc : 0 < chunk) (fuel : ℕ) :
    allJobs threads chunk length fuel =
      if (trips 0 length (threads * chunk)).length < fuel then
        some (passTiles threads chunk length)
      else none := by
  have collect (l : List ℤ) (passes : List (List (ℤ × ℤ))) :
      l.foldlM (fun passes m => some (passes ++ [jobs chunk m (passLength threads chunk length m)]))
        passes = some (passes ++ l.map fun m => tiles chunk m (min (m + threads * chunk) length)) := by
    induction l generalizing passes with
    | nil => simp
    | cons m ms ih =>
      have reach : m + passLength threads chunk length m = min (m + threads * chunk) length := by
        rw [passLength_eq]
        omega
      rw [List.foldlM_cons, jobs_eq_tiles, reach]
      simp only [Option.bind_eq_bind, Option.bind_some]
      rw [ih]
      simp
  rw [allJobs, passLoop_eq _ (mul_pos (by omega) hc), collect, List.nil_append, passTiles]

theorem allJobs_terminates (ht : 1 ≤ threads) (hc : 0 < chunk) :
    ∃ bound, ∀ fuel, bound ≤ fuel →
      allJobs threads chunk length fuel = some (passTiles threads chunk length) := by
  refine ⟨(trips 0 length (threads * chunk)).length + 1, fun fuel hf => ?_⟩
  rw [allJobs_eq ht hc, if_pos (Nat.lt_of_succ_le hf)]

theorem allJobs_flatten (ht : 1 ≤ threads) (hc : 0 < chunk) :
    (passTiles threads chunk length).flatten = tiles chunk 0 length := by
  obtain ⟨n, rfl⟩ := Int.eq_ofNat_of_zero_le (show 0 ≤ threads by omega)
  have grouped := tiles_grouped hc (show 0 < n by omega) 0 length
  rw [mul_comm chunk] at grouped
  rw [passTiles, ← List.flatMap_def]
  exact grouped

theorem pass_length_le (hc : 0 < chunk) (ht : 0 ≤ threads) (m : ℤ) :
    ((tiles chunk m (min (m + threads * chunk) length)).length : ℤ) ≤ threads := by
  have bound : (min (m + threads * chunk) length - m + chunk - 1) / chunk ≤ threads := by
    have : (min (m + threads * chunk) length - m + chunk - 1) / chunk < threads + 1 := by
      rw [Int.ediv_lt_iff_lt_mul hc]
      have : (threads + 1) * chunk = threads * chunk + chunk := by ring
      omega
    omega
  rw [tiles_length]
  omega

/-- The jobs tile the input chunk by chunk, whatever the number of threads is and
whether or not it has been trimmed. -/
theorem jobs_tile_input {context length maxThreads : ℤ} (hctx : 0 ≤ context)
    (hword : context < 2 ^ 63) (hlen : 0 ≤ length) (ht : 1 ≤ maxThreads)
    (fits : maxThreads * (chunkWord context).toNat < 2 ^ 63) :
    let chunk := chunkSize context
    let threads := trimThreads maxThreads chunk length
    (0 < chunk ∧ (pageSize.toNat : ℤ) ∣ chunk ∧ context < chunk ∧
      chunk ≤ context + pageSize.toNat) ∧
    ∃ passes, (∃ bound, ∀ fuel, bound ≤ fuel → allJobs threads chunk length fuel = some passes) ∧
      passes.flatten = (List.range ((length + chunk - 1) / chunk).toNat).map
        (fun k : ℕ => (k * chunk, min chunk (length - k * chunk))) ∧
      (∀ job ∈ passes.flatten, 0 < job.2) ∧
      (∀ b, passes.flatten.countP (fun job => Covers b job) = if 0 ≤ b ∧ b < length then 1 else 0) ∧
      (∀ pass ∈ passes, (pass.length : ℤ) ≤ threads) ∧
      ∀ others fuel passes', 1 ≤ others → allJobs others chunk length fuel = some passes' →
        passes'.flatten = passes.flatten := by
  intro chunk threads
  have word : ((chunkWord context).toNat : ℤ) < 2 ^ 63 := by
    have := mul_le_mul_of_nonneg_right ht (Int.natCast_nonneg (chunkWord context).toNat)
    omega
  have page : (pageSize.toNat : ℤ) = 2 ^ 20 := by decide
  have size : chunk = (context + 2 ^ 20) / 2 ^ 20 * 2 ^ 20 := chunkSize_eq hctx hword word
  have hc : 0 < chunk := by omega
  have kept := trimThreads_bounds ht hc hlen
  refine ⟨⟨hc, ?_, by omega, by omega⟩, passTiles threads chunk length,
    allJobs_terminates kept.1 hc, ?_⟩
  · rw [page, size]
    exact Dvd.intro_left _ rfl
  · have flat : (passTiles threads chunk length).flatten = tiles chunk 0 length :=
      allJobs_flatten kept.1 hc
    refine ⟨?_, ?_, ?_, ?_, ?_⟩
    · rw [flat, tiles_eq_range]
    · intro job hjob
      rw [flat] at hjob
      exact tile_pos hc hjob
    · intro b
      rw [flat, countP_tiles hc]
    · intro pass hpass
      obtain ⟨m, _, rfl⟩ := List.mem_map.mp hpass
      exact pass_length_le hc (by omega) m
    · intro others fuel passes' ho hrun
      rw [allJobs_eq ho hc] at hrun
      split at hrun
      · cases hrun
        rw [flat, allJobs_flatten ho hc]
      · cases hrun

/-- Two threads and four chunks, the last of five bytes. -/
theorem jobs_tile_input_short :
    let chunk := chunkSize 3
    let threads := trimThreads 2 chunk 3145733
    (0 < chunk ∧ (pageSize.toNat : ℤ) ∣ chunk ∧ 3 < chunk ∧ chunk ≤ 3 + pageSize.toNat) ∧
    ∃ passes, (∃ bound, ∀ fuel, bound ≤ fuel → allJobs threads chunk 3145733 fuel = some passes) ∧
      passes.flatten = (List.range ((3145733 + chunk - 1) / chunk).toNat).map
        (fun k : ℕ => (k * chunk, min chunk (3145733 - k * chunk))) ∧
      (∀ job ∈ passes.flatten, 0 < job.2) ∧
      (∀ b, passes.flatten.countP (fun job => Covers b job) = if 0 ≤ b ∧ b < 3145733 then 1 else 0) ∧
      (∀ pass ∈ passes, (pass.length : ℤ) ≤ threads) ∧
      ∀ others fuel passes', 1 ≤ others → allJobs others chunk 3145733 fuel = some passes' →
        passes'.flatten = passes.flatten :=
  jobs_tile_input (by decide) (by decide) (by decide) (by decide) (by decide)

end MorelloWorkloads.Pxz
