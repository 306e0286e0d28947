import MorelloWorkloads.Pxz.TempFiles

/-! The archives of both programs. A pass of the original appends what the
encoder makes of each of its chunks; so does a pass of the port, before it drains
files that nothing was written to. -/
namespace MorelloWorkloads.Pxz
open CountedLoop

/-- `writes` is some interleaving of what the jobs below `jobs` write. -/
def Interleaves (writes : List (ℤ × List UInt8)) (jobs : ℤ) (per : ℤ → List (List UInt8)) : Prop :=
  (∀ w ∈ writes, 0 ≤ w.1 ∧ w.1 < jobs) ∧
  ∀ p, 0 ≤ p → p < jobs → (writes.filter fun w => w.1 = p).map Prod.snd = per p

theorem Interleaves.mem {writes : List (ℤ × List UInt8)} {jobs : ℤ} {per : ℤ → List (List UInt8)}
    (h : Interleaves writes jobs per) {x : ℤ × List UInt8} (hx : x ∈ writes) : x.2 ∈ per x.1 := by
  have inJobs := h.1 x hx
  rw [← h.2 x.1 inJobs.1 inJobs.2]
  exact List.mem_map_of_mem (List.mem_filter.mpr ⟨hx, decide_eq_true rfl⟩)

/-- Nothing is written for a job that is not one. -/
theorem Interleaves.idle {writes : List (ℤ × List UInt8)} {jobs : ℤ} {per : ℤ → List (List UInt8)}
    (h : Interleaves writes jobs per) {p : ℤ} (hp : jobs ≤ p) :
    writes.filter (fun x => x.1 = p) = [] := by
  apply List.filter_eq_nil_iff.mpr
  intro x hx
  have := h.1 x hx
  simp only [decide_eq_true_eq]
  omega

section Comparison
variable {F : Type*} {P : Params F} {view : F → ℤ → File} (mem : InMemory P.mem P.threads view)
include mem

/-! ## One pass -/

/-- `compress_chunk` returns, as a positive number of bytes, what the loop of the
original writes for the same chunk. -/
def Encoder.Agrees (E : Encoder) : Prop :=
  ∀ chunk, E.compressChunk chunk = (E.pieces chunk).flatten ∧ E.compressChunk chunk ≠ []

/-- What the encoder makes of the chunks of a pass. -/
def passOutput (P : Params F) (m rd : ℤ) : List UInt8 :=
  (trips 0 (P.jobCount rd) 1).flatMap fun p => P.encoder.compressChunk (P.chunkBytes m rd p)

/-- A pass that appends `out` and uses descriptors below the thread count only. -/
def Appends (P : Params F) (out : List UInt8) (w : World F) (r : Option (World F)) : Prop :=
  ∃ w', r = some w' ∧ w'.fo = w.fo ++ out ∧
    ∀ p ∈ w'.used, p ∈ w.used ∨ 0 ≤ p ∧ p < P.threads

omit mem in
theorem joinThreads_eq (agrees : P.encoder.Agrees) (m rd : ℤ) (w : World F) :
    joinThreads P m rd w = some { w with fo := w.fo ++ passOutput P m rd } := by
  unfold joinThreads loopM passOutput
  generalize trips 0 (P.jobCount rd) 1 = l
  induction l generalizing w with
  | nil => simp
  | cons p ps ih =>
    rw [List.foldlM_cons]
    cases hout : P.encoder.compressChunk (P.chunkBytes m rd p) with
    | nil => exact absurd hout (agrees _).2
    | cons b bs =>
      simp only [Option.bind_eq_bind, Option.bind_some]
      rw [ih]
      simp [hout]

section Pass
variable (agrees : P.encoder.Agrees) {m rd : ℤ} {fuel : ℕ}
include agrees

theorem originalPass_appends {schedule : ℤ → List (ℤ × List UInt8)}
    (hs : Interleaves (schedule m) (P.jobCount rd) fun p => P.encoder.pieces (P.chunkBytes m rd p))
    (hj : 0 ≤ P.jobCount rd ∧ P.jobCount rd ≤ P.threads) (hf : 0 < fuel)
    (hfuel : ∀ p, 0 ≤ p → p < P.jobCount rd →
      (P.encoder.compressChunk (P.chunkBytes m rd p)).length < fuel) (w : World F) :
    Appends P (passOutput P m rd) w (originalPass P schedule fuel w m rd) := by
  obtain ⟨resetFo, resetUsed⟩ := resetFiles_fields (P := P) w
  have writable : ∀ x ∈ schedule m, 0 ≤ x.1 ∧ x.1 < P.threads ∧ x.2 ≠ [] := by
    intro x hx
    have hxj := hs.1 x hx
    exact ⟨hxj.1, by omega, P.encoder.pieces_ne _ _ (hs.mem hx)⟩
  obtain ⟨w₁, hwrite, writeFo, writeUsed, held⟩ :=
    writeFiles_holds mem writable (resetFiles_holds mem w)
  let data (p : ℤ) : List UInt8 :=
    [] ++ (((schedule m).filter fun x => x.1 = p).map Prod.snd).flatten
  have job {p : ℤ} (h₀ : 0 ≤ p) (hp : p < P.jobCount rd) :
      data p = P.encoder.compressChunk (P.chunkBytes m rd p) := by
    simp only [data, List.nil_append]
    rw [hs.2 p h₀ hp, (agrees _).1]
  have idle {p : ℤ} (hp : P.jobCount rd ≤ p) : data p = [] := by
    simp [data, hs.idle hp]
  have short (p : ℤ) (h₀ : 0 ≤ p) (_ : p < P.threads) : (data p).length < fuel := by
    by_cases hp : p < P.jobCount rd
    · rw [job h₀ hp]
      exact hfuel p h₀ hp
    · rw [idle (not_lt.mp hp)]
      exact hf
  obtain ⟨w₂, hdrain, drainFo, drainUsed⟩ := drainFiles_eq mem le_rfl held short
  refine ⟨w₂, ?_, ?_, fun p hp => ?_⟩
  · rw [originalPass, hwrite]
    exact hdrain
  · have jobsOut : (trips 0 (P.jobCount rd) 1).flatMap data = passOutput P m rd := by
      apply List.flatMap_congr
      intro p hp
      have := mem_trips_one.mp hp
      exact job this.1 this.2
    have idleOut : (trips (P.jobCount rd) P.threads 1).flatMap data = [] := by
      apply List.flatMap_eq_nil_iff.mpr
      intro p hp
      exact idle (mem_trips_one.mp hp).1
    rw [drainFo, writeFo, resetFo, ← trips_append hj.1 hj.2, List.flatMap_append, jobsOut, idleOut,
      List.append_nil]
  · rw [drainUsed, writeUsed, resetUsed] at hp
    simp only [List.mem_append, mem_trips_one, List.mem_map] at hp
    rcases hp with ((hp | hp) | ⟨x, hx, rfl⟩) | hp
    · exact Or.inl hp
    · exact Or.inr hp
    · exact Or.inr ⟨(writable x hx).1, (writable x hx).2.1⟩
    · exact Or.inr hp

/-- With a pointer that is not above the thread count, the port drains files that
are empty. -/
theorem portPass_appends {malloc : ℤ → ℤ} (hm : 0 < malloc m ∧ malloc m ≤ P.threads) (hf : 0 < fuel)
    (w : World F) : Appends P (passOutput P m rd) w (portPass P malloc fuel w m rd) := by
  obtain ⟨resetFo, resetUsed⟩ := resetFiles_fields (P := P) w
  have empty : Holds P view { resetFiles P w with fo := (resetFiles P w).fo ++ passOutput P m rd }
      fun _ => [] := resetFiles_holds mem w
  obtain ⟨w₁, hdrain, drainFo, drainUsed⟩ := drainFiles_eq mem hm.2 empty fun _ _ _ => hf
  refine ⟨w₁, ?_, ?_, fun p hp => ?_⟩
  · rw [portPass, if_pos hm.1, joinThreads_eq agrees]
    exact hdrain
  · simp [drainFo, resetFo]
  · simp only [drainUsed, resetUsed, List.mem_append, mem_trips_one] at hp
    rcases hp with (hp | hp) | hp
    · exact Or.inl hp
    · exact Or.inr hp
    · exact Or.inr ⟨hp.1, by omega⟩

end Pass

/-! ## All passes -/

def Params.passStarts (P : Params F) : List ℤ := trips 0 P.length (P.threads * P.chunk)

def Params.passLength (P : Params F) (m : ℤ) : ℤ := Pxz.passLength P.threads P.chunk P.length m

omit mem in
theorem passes_append {l : List ℤ} {body : World F → ℤ → Option (World F)} {out : ℤ → List UInt8}
    (h : ∀ m ∈ l, ∀ w, Appends P (out m) w (body w m)) (w : World F) :
    Appends P (l.flatMap out) w (l.foldlM body w) := by
  induction l generalizing w with
  | nil => exact ⟨w, rfl, by simp, fun p hp => Or.inl hp⟩
  | cons m ms ih =>
    obtain ⟨w₁, hrun, hfo, hused⟩ := h m List.mem_cons_self w
    obtain ⟨w₂, hrun₂, hfo₂, hused₂⟩ := ih (fun n hn => h n (List.mem_cons_of_mem m hn)) w₁
    refine ⟨w₂, ?_, ?_, fun p hp => ?_⟩
    · rw [List.foldlM_cons, hrun]
      exact hrun₂
    · rw [hfo₂, hfo, List.flatMap_cons, List.append_assoc]
    · cases hused₂ p hp with
      | inl hp => exact hused p hp
      | inr hp => exact Or.inr hp

omit mem in
theorem copyOut_used {count p : ℤ} {fuel : ℕ} {w w' : World F}
    (h : copyOut P count p fuel w = some w') : w'.used = w.used := by
  induction fuel generalizing w with
  | zero => cases h
  | succ fuel ih =>
    rw [copyOut] at h
    split at h
    · cases h
    · cases h
      rfl
    · have kept := ih h
      exact kept

omit mem in
theorem drainFile_used {count p : ℤ} {fuel : ℕ} {w w' : World F}
    (h : drainFile P count fuel w p = some w') : w'.used = w.used ++ [p] := by
  obtain ⟨w₁, hcopy, hclose⟩ := Option.bind_eq_some_iff.mp h
  cases hclose
  exact copyOut_used hcopy

omit mem in
/-- A drain that ends has used every descriptor below its bound. -/
theorem drainFiles_used {count : ℤ} {fuel : ℕ} {w w' : World F}
    (h : drainFiles P count fuel w = some w') : w'.used = w.used ++ trips 0 count 1 := by
  unfold drainFiles loopM at h
  generalize trips 0 count 1 = l at h ⊢
  induction l generalizing w with
  | nil =>
    cases h
    simp
  | cons p ps ih =>
    rw [List.foldlM_cons] at h
    obtain ⟨w₁, hfile, hrest⟩ := Option.bind_eq_some_iff.mp h
    rw [ih hrest, drainFile_used hfile, List.append_assoc, List.singleton_append]

omit mem in
theorem portPass_used (agrees : P.encoder.Agrees) {malloc : ℤ → ℤ} {fuel : ℕ} {m rd : ℤ}
    {w w' : World F} (h : portPass P malloc fuel w m rd = some w') :
    0 < malloc m ∧ (∀ p ∈ w.used, p ∈ w'.used) ∧ ∀ p ∈ trips 0 (malloc m) 1, p ∈ w'.used := by
  rw [portPass] at h
  split at h
  · rename_i hm
    rw [joinThreads_eq agrees] at h
    have used := drainFiles_used h
    refine ⟨hm, fun p hp => ?_, fun p hp => ?_⟩
    · rw [used]
      exact List.mem_append_left _ ((resetFiles_fields w).2 ▸ List.mem_append_left _ hp)
    · rw [used]
      exact List.mem_append_right _ hp
  · cases h

omit mem in
theorem portPasses_used (agrees : P.encoder.Agrees) {malloc : ℤ → ℤ} {fuel : ℕ} {rd : ℤ → ℤ}
    {l : List ℤ} {w w' : World F}
    (h : l.foldlM (fun w m => portPass P malloc fuel w m (rd m)) w = some w') :
    (∀ p ∈ w.used, p ∈ w'.used) ∧
      ∀ m ∈ l, 0 < malloc m ∧ ∀ p ∈ trips 0 (malloc m) 1, p ∈ w'.used := by
  induction l generalizing w with
  | nil =>
    cases h
    simp
  | cons n ns ih =>
    rw [List.foldlM_cons] at h
    obtain ⟨w₁, hpass, hrest⟩ := Option.bind_eq_some_iff.mp h
    obtain ⟨hm, kept, drained⟩ := portPass_used agrees hpass
    obtain ⟨keptRest, drainedRest⟩ := ih hrest
    refine ⟨fun p hp => keptRest p (kept p hp), fun m hmem => ?_⟩
    cases hmem with
    | head =>
      exact ⟨hm, fun p hp => keptRest p (drained p hp)⟩
    | tail _ hmem =>
      exact drainedRest m hmem

/-- Both programs end, with one archive, and use only descriptors that have been
allocated. -/
def SameArchive (P : Params F) (schedule : ℤ → List (ℤ × List UInt8)) (malloc : ℤ → ℤ)
    (tmpfds : F) : Prop :=
  ∃ fuel wo wp, Original.compressStream P schedule tmpfds fuel = some wo ∧
    Port.compressStream P malloc tmpfds fuel = some wp ∧ wp.fo = wo.fo ∧
    (∀ p ∈ wo.used, 0 ≤ p ∧ p < P.threads) ∧ ∀ p ∈ wp.used, 0 ≤ p ∧ p < P.threads

omit mem in
theorem Params.chunk_pos (P : Params F) : 0 < P.chunk := by
  have hlt := P.dictSize.isLt
  have word := chunkWord_toNat (show 0 ≤ 3 * (P.dictSize.toNat : ℤ) by omega) (by omega)
  rw [Params.chunk, chunkSize_eq (by omega) (by omega) (by omega)]
  omega

omit mem in
theorem Params.threads_pos (P : Params F) : 1 ≤ P.threads :=
  (trimThreads_bounds P.maxThreads_pos P.chunk_pos (Int.natCast_nonneg P.input.length)).1

omit mem in
theorem Params.pass_pos (P : Params F) : 0 < P.threads * P.chunk :=
  mul_pos (lt_of_lt_of_le one_pos P.threads_pos) P.chunk_pos

omit mem in
theorem jobCount_bounds {m : ℤ} (hm : m ∈ P.passStarts) :
    0 ≤ P.jobCount (P.passLength m) ∧ P.jobCount (P.passLength m) ≤ P.threads := by
  have hg := P.pass_pos
  have hc := P.chunk_pos
  obtain ⟨_, _, below⟩ := (mem_trips hg).mp hm
  have hrd : 0 ≤ P.passLength m := by
    rw [Params.passLength, passLength_eq]
    omega
  constructor
  · exact Int.ediv_nonneg (by omega) hc.le
  · have : P.jobCount (P.passLength m) < P.threads + 1 := by
      rw [Params.jobCount, Int.ediv_lt_iff_lt_mul hc, Params.passLength, passLength_eq]
      have : (P.threads + 1) * P.chunk = P.threads * P.chunk + P.chunk := by ring
      omega
    omega

omit mem in
theorem exists_fuel : ∃ fuel : ℕ, P.passStarts.length < fuel ∧ ∀ m ∈ P.passStarts, ∀ p, 0 ≤ p →
    p < P.jobCount (P.passLength m) →
      (P.encoder.compressChunk (P.chunkBytes m (P.passLength m) p)).length < fuel := by
  let archive := P.passStarts.flatMap fun m => passOutput P m (P.passLength m)
  refine ⟨P.passStarts.length + archive.length + 1, by omega, fun m hm p h₀ hp => ?_⟩
  have inPass : (P.encoder.compressChunk (P.chunkBytes m (P.passLength m) p)).Sublist
      (passOutput P m (P.passLength m)) :=
    List.sublist_flatten_of_mem (List.mem_map_of_mem (mem_trips_one.mpr ⟨h₀, hp⟩))
  have inArchive : (passOutput P m (P.passLength m)).Sublist archive :=
    List.sublist_flatten_of_mem (List.mem_map_of_mem hm)
  have := (inPass.trans inArchive).length_le
  omega

omit mem in
theorem compressStream_run {body : World F → ℤ → ℤ → Option (World F)} {fuel : ℕ}
    (hf : P.passStarts.length < fuel) (w : World F) :
    passLoop P.threads P.chunk P.length body fuel w 0 =
      P.passStarts.foldlM (fun w m => body w m (P.passLength m)) w := by
  rw [passLoop_eq _ P.pass_pos]
  exact if_pos hf

section Runs
variable (agrees : P.encoder.Agrees) {schedule : ℤ → List (ℤ × List UInt8)} {malloc : ℤ → ℤ}
  {tmpfds : F}
include agrees

omit mem in
/-- Using only allocated descriptors, the port has compared with small pointers. -/
theorem malloc_of_sameArchive (same : SameArchive P schedule malloc tmpfds) :
    ∀ m ∈ P.passStarts, 0 < malloc m ∧ malloc m ≤ P.threads := by
  obtain ⟨fuel, wo, wp, _, hport, _, _, inRange⟩ := same
  intro m hm
  rw [Port.compressStream, passLoop_eq _ P.pass_pos] at hport
  split at hport
  · obtain ⟨_, passes⟩ := portPasses_used agrees hport
    obtain ⟨hpos, drained⟩ := passes m hm
    refine ⟨hpos, ?_⟩
    by_contra above
    have := P.threads_pos
    have := inRange P.threads (drained _ (mem_trips_one.mpr ⟨by omega, by omega⟩))
    omega
  · cases hport

theorem sameArchive_of_malloc
    (hs : ∀ m ∈ P.passStarts, Interleaves (schedule m) (P.jobCount (P.passLength m))
      fun p => P.encoder.pieces (P.chunkBytes m (P.passLength m) p))
    (small : ∀ m ∈ P.passStarts, 0 < malloc m ∧ malloc m ≤ P.threads) :
    SameArchive P schedule malloc tmpfds := by
  obtain ⟨fuel, hpasses, hbytes⟩ := exists_fuel (P := P)
  have hf : 0 < fuel := by omega
  let start : World F := ⟨tmpfds, [], []⟩
  have original (m : ℤ) (hm : m ∈ P.passStarts) (w : World F) :=
    originalPass_appends mem agrees (hs m hm) (jobCount_bounds hm) hf (hbytes m hm) w
  have port (m : ℤ) (hm : m ∈ P.passStarts) (w : World F) :
      Appends P (passOutput P m (P.passLength m)) w
        (portPass P malloc fuel w m (P.passLength m)) :=
    portPass_appends mem agrees (small m hm) hf w
  obtain ⟨wo, ho, outO, usedO⟩ := passes_append original start
  obtain ⟨wp, hp, outP, usedP⟩ := passes_append port start
  refine ⟨fuel, wo, wp, ?_, ?_, outP.trans outO.symm, fun p hp => ?_, fun p hp => ?_⟩
  · rw [Original.compressStream, compressStream_run hpasses]
    exact ho
  · rw [Port.compressStream, compressStream_run hpasses]
    exact hp
  · exact (usedO p hp).resolve_left (by simp [start])
  · exact (usedP p hp).resolve_left (by simp [start])

end Runs

/-- The port writes the archive of the original exactly when, in every pass, the
address that `malloc` returns for its thread handles is not above the number of
descriptors: its drain loop counts up to this address. -/
theorem compressStream_matches_iff (agrees : P.encoder.Agrees)
    {schedule : ℤ → List (ℤ × List UInt8)}
    (hs : ∀ m ∈ P.passStarts, Interleaves (schedule m) (P.jobCount (P.passLength m))
      fun p => P.encoder.pieces (P.chunkBytes m (P.passLength m) p)) (malloc : ℤ → ℤ) (tmpfds : F) :
    SameArchive P schedule malloc tmpfds ↔
      ∀ m ∈ P.passStarts, 0 < malloc m ∧ malloc m ≤ P.threads :=
  ⟨malloc_of_sameArchive agrees, sameArchive_of_malloc mem agrees hs⟩

end Comparison

section Small

/-- Puts a header byte before the chunk. -/
def storing : Encoder where
  pieces chunk := [0 :: chunk]
  compressChunk chunk := 0 :: chunk
  pieces_ne := by simp

/-- A file of one byte. -/
def oneByte : Params (ℤ → File) where
  mem := filesInMemory
  encoder := storing
  bufsiz := 8192
  input := [7]
  dictSize := 0
  maxThreads := 1
  bufsiz_pos := by decide
  maxThreads_pos := by decide

theorem storing_agrees : storing.Agrees := fun _ => ⟨by simp [storing], by simp [storing]⟩

/-- Handles at address 4096, one descriptor. -/
theorem compressStream_differs :
    ¬ SameArchive oneByte (fun _ => [(0, [0, 7])]) (fun _ => 4096) fun _ => ⟨[], 0, false⟩ := by
  intro same
  have small := malloc_of_sameArchive storing_agrees same 0 (by decide)
  exact absurd small (by decide)

/-- Writes a byte before the chunk and one behind it. -/
def framing : Encoder where
  pieces chunk := [[0], chunk ++ [0]]
  compressChunk chunk := 0 :: chunk ++ [0]
  pieces_ne := by simp

theorem framing_agrees : framing.Agrees := fun _ => ⟨by simp [framing], by simp [framing]⟩

/-- A file of four chunks, the last of five bytes, for two threads. -/
def fourChunks : Params (ℤ → File) where
  mem := filesInMemory
  encoder := framing
  bufsiz := 8192
  input := List.replicate 3145733 7
  dictSize := 0
  maxThreads := 2
  bufsiz_pos := by decide
  maxThreads_pos := by decide

/-- The bytes of a chunk of this size. -/
def framed (size : ℕ) : List UInt8 := List.replicate size 7 ++ [0]

/-- The second job is the first to write, and in the second pass the last to end. -/
def fourWrites (m : ℤ) : List (ℤ × List UInt8) :=
  if m = 0 then [(1, [0]), (0, [0]), (0, framed 1048576), (1, framed 1048576)]
  else [(0, [0]), (0, framed 1048576), (1, [0]), (1, framed 5)]

theorem fourChunks_sizes :
    fourChunks.chunk = 1048576 ∧ fourChunks.length = 3145733 ∧ fourChunks.threads = 2 := by
  have chunk : fourChunks.chunk = 1048576 := by decide
  have length : fourChunks.length = 3145733 := by
    simp only [Params.length, fourChunks, List.length_replicate]
    rfl
  refine ⟨chunk, length, ?_⟩
  rw [Params.threads, chunk, length]
  decide

theorem fourChunks_passes : fourChunks.passStarts = [0, 2097152] ∧
    fourChunks.passLength 0 = 2097152 ∧ fourChunks.passLength 2097152 = 1048581 := by
  obtain ⟨chunk, length, threads⟩ := fourChunks_sizes
  rw [Params.passStarts, Params.passLength, Params.passLength, chunk, length, threads]
  decide

theorem fourChunks_pieces (m rd p : ℤ) : fourChunks.encoder.pieces (fourChunks.chunkBytes m rd p) =
    [[0], framed (min (min (rd - p * 1048576) 1048576).toNat (3145733 - (m + p * 1048576).toNat))] := by
  have size : (if rd - p * 1048576 ≥ 1048576 then 1048576 else rd - p * 1048576) =
      min (rd - p * 1048576) 1048576 := by
    split <;> omega
  rw [Params.chunkBytes, fourChunks_sizes.1, size]
  simp only [fourChunks, framing, framed, List.drop_replicate, List.take_replicate]

theorem fourChunks_writes : ∀ m ∈ fourChunks.passStarts, Interleaves (fourWrites m)
    (fourChunks.jobCount (fourChunks.passLength m))
    fun p => fourChunks.encoder.pieces (fourChunks.chunkBytes m (fourChunks.passLength m) p) := by
  obtain ⟨starts, first, second⟩ := fourChunks_passes
  have pair (p : ℤ) (low : 0 ≤ p) (high : p < 2) : p = 0 ∨ p = 1 := by omega
  intro m hm
  rw [starts] at hm
  obtain rfl | rfl := List.mem_pair.mp hm
  · have count : fourChunks.jobCount 2097152 = 2 := by
      rw [Params.jobCount, fourChunks_sizes.1]
      decide
    rw [first, count]
    refine ⟨by simp [fourWrites], fun p low high => ?_⟩
    simp only [fourChunks_pieces]
    obtain rfl | rfl := pair p low high
    · simp [fourWrites]
    · simp [fourWrites]
  · have count : fourChunks.jobCount 1048581 = 2 := by
      rw [Params.jobCount, fourChunks_sizes.1]
      decide
    rw [second, count]
    refine ⟨by simp [fourWrites], fun p low high => ?_⟩
    simp only [fourChunks_pieces]
    obtain rfl | rfl := pair p low high
    · simp [fourWrites]
    · simp [fourWrites]

theorem compressStream_matches_iff_fourChunks :
    SameArchive fourChunks fourWrites (fun _ => 2) (fun _ => ⟨[], 0, false⟩) ↔
      ∀ m ∈ fourChunks.passStarts, 0 < (2 : ℤ) ∧ 2 ≤ fourChunks.threads :=
  compressStream_matches_iff (filesInMemory_inMemory _) framing_agrees fourChunks_writes _ _

end Small

end MorelloWorkloads.Pxz
