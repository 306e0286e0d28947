import MorelloWorkloads.Pxz.Chunking

/-! `compressStream` of the OpenMP original and of its port to pthreads. Both
compress a pass chunk by chunk; the original collects the output in one temporary
descriptor a chunk and drains these into the archive. -/
namespace MorelloWorkloads.Pxz
open CountedLoop

/-- The functions of `spec_mem_io.h` on the array `tmpfds`. They take the number
of its descriptors, as the caller gives it, and a descriptor. `fwrite` and `fread`
are `none` where they report an error. -/
structure SpecMem (F : Type*) where
  setOpen : F → ℤ → F
  reset : F → ℤ → ℤ → F
  rewind : F → ℤ → ℤ → F
  fwrite : F → ℤ → List UInt8 → ℤ → Option F
  fread : F → ℤ → ℕ → ℤ → Option (List UInt8 × F)
  close : F → ℤ → ℤ → F

/-- The encoder of `liblzma` on one chunk: the pieces that the loop of the
original finds in its output buffer, which it writes when they are not empty, and
what `compress_chunk` of the port returns. -/
structure Encoder where
  pieces : List UInt8 → List (List UInt8)
  compressChunk : List UInt8 → List UInt8
  pieces_ne : ∀ chunk, ∀ piece ∈ pieces chunk, piece ≠ []

/-- The descriptors, what has been written to `fo`, and the indices used so far. -/
structure World (F : Type*) where
  tmpfds : F
  fo : List UInt8
  used : List ℤ

/-- What a call is given: the file, the dictionary of its preset, and the machine
it runs on. -/
structure Params (F : Type*) where
  mem : SpecMem F
  encoder : Encoder
  bufsiz : ℕ
  input : List UInt8
  dictSize : BitVec 32
  maxThreads : ℤ
  bufsiz_pos : 0 < bufsiz
  maxThreads_pos : 1 ≤ maxThreads

section Pass
variable {F : Type*} (P : Params F)

def Params.length : ℤ := P.input.length

/-- `opt_context_size * lzma_options.dict_size`, rounded up. -/
def Params.chunk : ℤ := chunkSize (3 * P.dictSize.toNat)

/-- How many temporary descriptors there are: the threads that are kept. -/
def Params.threads : ℤ := trimThreads P.maxThreads P.chunk P.length

/-- The input of job `p` of the pass at `m`. -/
def Params.chunkBytes (m rd p : ℤ) : List UInt8 :=
  let len := if rd - p * P.chunk ≥ P.chunk then P.chunk else rd - p * P.chunk
  (P.input.drop (m + p * P.chunk).toNat).take len.toNat

def Params.jobCount (rd : ℤ) : ℤ := (rd + P.chunk - 1) / P.chunk

/-- Resets the temporary output files. -/
def resetFiles (w : World F) : World F :=
  loop 0 P.threads 1 w fun w p =>
    { w with
      tmpfds := P.mem.rewind (P.mem.reset (P.mem.setOpen w.tmpfds p) P.threads p) P.threads p
      used := w.used ++ [p] }

/-- `while ((rd = spec_mem_fread(..)) > 0) fwrite(buf, 1, rd, fo);` -/
def copyOut (count p : ℤ) : ℕ → World F → Option (World F)
  | 0, _ => none
  | fuel + 1, w =>
    match P.mem.fread w.tmpfds count P.bufsiz p with
    | none => none
    | some ([], f) => some { w with tmpfds := f }
    | some (b :: bs, f) => copyOut count p fuel { w with tmpfds := f, fo := w.fo ++ b :: bs }

/-- Copies one file to the archive and closes it. -/
def drainFile (count : ℤ) (fuel : ℕ) (w : World F) (p : ℤ) : Option (World F) := do
  let w := { w with tmpfds := P.mem.rewind w.tmpfds count p, used := w.used ++ [p] }
  let w ← copyOut P count p fuel w
  some { w with tmpfds := P.mem.close w.tmpfds count p }

/-- Drains the files below `count` into the archive. -/
def drainFiles (count : ℤ) (fuel : ℕ) (w : World F) : Option (World F) :=
  loopM 0 count 1 w (drainFile P count fuel)

/-- The writes of the parallel region, in the order in which they happen. -/
def writeFiles (writes : List (ℤ × List UInt8)) (w : World F) : Option (World F) :=
  writes.foldlM (fun w (p, piece) =>
    (P.mem.fwrite w.tmpfds P.threads piece p).map fun f =>
      { w with tmpfds := f, used := w.used ++ [p] }) w

/-- The port joins its threads in order and writes what each has returned; an
empty result is the null pointer, which stands for a failure. -/
def joinThreads (m rd : ℤ) (w : World F) : Option (World F) :=
  loopM 0 (P.jobCount rd) 1 w fun w p =>
    match P.encoder.compressChunk (P.chunkBytes m rd p) with
    | [] => none
    | b :: bs => some { w with fo := w.fo ++ b :: bs }

def originalPass (schedule : ℤ → List (ℤ × List UInt8)) (fuel : ℕ) (w : World F) (m _rd : ℤ) :
    Option (World F) := do
  let w ← writeFiles P (schedule m) (resetFiles P w)
  drainFiles P P.threads fuel w

/-- Below the declaration `pthread_t *threads` the name stands for the pointer,
and so it does in the drain loop: `malloc m` is its address in the pass at `m`. -/
def portPass (malloc : ℤ → ℤ) (fuel : ℕ) (w : World F) (m rd : ℤ) : Option (World F) :=
  if 0 < malloc m then do
    let w ← joinThreads P m rd (resetFiles P w)
    drainFiles P (malloc m) fuel w
  else none

def Original.compressStream (schedule : ℤ → List (ℤ × List UInt8)) (tmpfds : F) (fuel : ℕ) :
    Option (World F) :=
  passLoop P.threads P.chunk P.length (originalPass P schedule fuel) fuel ⟨tmpfds, [], []⟩ 0

def Port.compressStream (malloc : ℤ → ℤ) (tmpfds : F) (fuel : ℕ) : Option (World F) :=
  passLoop P.threads P.chunk P.length (portPass P malloc fuel) fuel ⟨tmpfds, [], []⟩ 0

end Pass

end MorelloWorkloads.Pxz
