import MorelloWorkloads.Lib.Digits
import MorelloWorkloads.SqliteBench.Write

/-! The keys that `benchmark_write` and `benchmark_read` bind: the whole decimal
text, in the order of the numbers. -/
namespace MorelloWorkloads.SqliteBench
open CountedLoop

/-- The bytes by which blobs are compared. -/
def keyBytes (key : List Char) : List ℕ := key.map Char.toNat

/-! ## `benchmark_read` -/

inductive ReadEvent where
  | beginTrans
  | select (key : List Char)
  | finished
  | endTrans
  deriving DecidableEq

structure Reading where
  rand : Random
  trace : List ReadEvent

def Reading.emit (r : Reading) (e : ReadEvent) : Reading := { r with trace := r.trace ++ [e] }

def readEntry (order : Order) (reads i : ℤ) (r : Reading) (j : ℤ) : Reading :=
  let (k, rand) := chooseKey order reads i j r.rand
  (({ r with rand } : Reading).emit (.select (keyBlob k))).emit .finished

def readBatch (flags : Flags) (order : Order) (reads entriesPerBatch : ℤ) (r : Reading) (i : ℤ) :
    Reading :=
  let r := if transacts flags entriesPerBatch then r.emit .beginTrans else r
  let r := loop 0 entriesPerBatch 1 r (readEntry order reads i)
  if transacts flags entriesPerBatch then r.emit .endTrans else r

/-- The steps of `benchmark_read`; the rows that it finds are not looked at. -/
def benchmarkRead (flags : Flags) (order : Order) (reads entriesPerBatch : ℤ) (rand : Random) :
    Reading :=
  loop 0 reads entriesPerBatch ⟨rand, []⟩ (readBatch flags order reads entriesPerBatch)

def ReadEvent.key? : ReadEvent → Option (List Char)
  | .select key => some key
  | .beginTrans | .finished | .endTrans => none

/-- The keys of the `SELECT` steps, in order. -/
def selected (events : List ReadEvent) : List (List Char) := events.filterMap ReadEvent.key?

/-- The reader has looked for one key for each of the slots. -/
def ReadFor (order : Order) (reads : ℤ) (slots : List ℤ) (r : Reading) : Prop :=
  ∃ ks, selected r.trace = ks.map keyBlob ∧ Chosen order reads slots ks

theorem readEntry_run (order : Order) {reads : ℤ} (positive : 0 < reads) (i : ℤ) {r : Reading}
    {slots : List ℤ} (read : ReadFor order reads slots r) (j : ℤ) :
    ReadFor order reads (slots ++ [i + j]) (readEntry order reads i r j) := by
  obtain ⟨ks, keys, chosen⟩ := read
  have key := chooseKey_chosen order positive i j r.rand
  refine ⟨ks ++ [(chooseKey order reads i j r.rand).1], ?_, chosen.append key⟩
  rw [List.map_append, ← keys]
  simp [readEntry, Reading.emit, selected, List.filterMap_cons, ReadEvent.key?]

/-- What surrounds a batch selects nothing. -/
theorem readFor_emit {order : Order} {reads : ℤ} {slots : List ℤ} {r : Reading} {e : ReadEvent}
    (silent : e.key? = none) : ReadFor order reads slots (r.emit e) ↔ ReadFor order reads slots r := by
  simp [ReadFor, Reading.emit, selected, List.filterMap_append, silent]

theorem readBatch_run (flags : Flags) (order : Order) {reads : ℤ} (positive : 0 < reads)
    (entriesPerBatch : ℤ) {r : Reading} {slots : List ℤ} (read : ReadFor order reads slots r) (i : ℤ) :
    ReadFor order reads (slots ++ (trips 0 entriesPerBatch 1).map (i + ·))
      (readBatch flags order reads entriesPerBatch r i) := by
  have entries {r : Reading} (read : ReadFor order reads slots r) :
      ReadFor order reads (slots ++ (trips 0 entriesPerBatch 1).map (i + ·))
        (loop 0 entriesPerBatch 1 r (readEntry order reads i)) := by
    apply loop_run fun taken => ReadFor order reads (slots ++ taken.map (i + ·))
    · intro taken mid j _ read
      rw [List.map_append, ← List.append_assoc]
      exact readEntry_run order positive i read j
    · simpa using read
  unfold readBatch
  cases transacts flags entriesPerBatch with
  | true => exact (readFor_emit rfl).mpr (entries ((readFor_emit rfl).mpr read))
  | false => exact entries read

/-- The reader looks for keys that are chosen and written as the writer's. -/
theorem benchmarkRead_run (flags : Flags) (order : Order) (reads : ℤ) {entriesPerBatch : ℤ}
    (positive : 0 < entriesPerBatch) (rand : Random) :
    ReadFor order reads
      (trips 0 (entriesPerBatch * ((reads + entriesPerBatch - 1) / entriesPerBatch)) 1)
      (benchmarkRead flags order reads entriesPerBatch rand) := by
  rw [← slots_eq positive]
  apply loop_run fun taken => ReadFor order reads
    (taken.flatMap fun i => (trips 0 entriesPerBatch 1).map (i + ·))
  · intro taken mid i hi read
    have some_entry : 0 < reads := by
      obtain ⟨k, rfl, below⟩ := (mem_trips positive).mp hi
      have : 0 ≤ entriesPerBatch * (k : ℤ) := by positivity
      omega
    rw [List.flatMap_append, List.flatMap_singleton]
    exact readBatch_run flags order some_entry entriesPerBatch read i
  · exact ⟨[], rfl, Chosen.nil order reads⟩

/-! ## The keys -/

theorem formatKey_eq {k : ℤ} (low : 0 ≤ k) (high : k < 2 ^ 31) :
    formatKey k = (Digits.fixed 10 16 k.toNat).map Nat.digitChar := by
  have digits : k.natAbs = k.toNat := by omega
  rw [formatKey, if_neg (not_lt.mpr low), digits]
  exact Digits.leftpad_toDigits (by norm_num) (by norm_num) (by omega)

/-- All of the text is bound. -/
theorem keyBlob_eq {k : ℤ} (low : 0 ≤ k) (high : k < 2 ^ 31) :
    (formatKey k).length = 16 ∧ keyBlob k = formatKey k := by
  have length : (formatKey k).length = 16 := by
    rw [formatKey_eq low high, List.length_map, Digits.length_fixed]
  refine ⟨length, ?_⟩
  rw [keyBlob, List.take_of_length_le length.le]

theorem digitChar_lt : ∀ x < 10, ∀ y < 10,
    (Char.toNat ∘ Nat.digitChar) x < (Char.toNat ∘ Nat.digitChar) y ↔ x < y := by decide

/-- The order of the blobs is the order of the numbers. -/
theorem keyBytes_lt_iff {k k' : ℤ} (low : 0 ≤ k) (high : k < 2 ^ 31) (low' : 0 ≤ k')
    (high' : k' < 2 ^ 31) : keyBytes (keyBlob k) < keyBytes (keyBlob k') ↔ k < k' := by
  rw [(keyBlob_eq low high).2, (keyBlob_eq low' high').2, formatKey_eq low high,
    formatKey_eq low' high', keyBytes, keyBytes, List.map_map, List.map_map,
    Digits.fixed_lt_iff (by norm_num) digitChar_lt (by omega) (by omega)]
  omega

theorem keyBlob_injective {k k' : ℤ} (low : 0 ≤ k) (high : k < 2 ^ 31) (low' : 0 ≤ k')
    (high' : k' < 2 ^ 31) (same : keyBlob k = keyBlob k') : k = k' := by
  have less := keyBytes_lt_iff low high low' high'
  have more := keyBytes_lt_iff low' high' low high
  exact Digits.eq_of_lt_iff (f := fun k => keyBytes (keyBlob k)) less more (congrArg keyBytes same)

/-- What a sequential fill binds, in order. -/
theorem sequential_keys {flags : Flags} {s : State} {state : DBState} (ready : s.gen.Ready)
    (opens : state = .fresh → (databasePath flags.db (s.dbNum + 1)).length < maxPathLen)
    (numEntries valueSize : ℤ) {entriesPerBatch : ℤ} (positive : 0 < entriesPerBatch) :
    ∃ s' events n,
      benchmarkWrite flags s .sequential state numEntries valueSize entriesPerBatch = some s' ∧
        s'.trace = s.trace ++ events ∧ bound events = (trips 0 n 1).map keyBlob := by
  by_cases skips : state = .fresh ∧ flags.useExistingDb = true
  · exact ⟨_, [], 0, if_pos skips, by simp, by simp [bound, trips_nil]⟩
  · obtain ⟨s', opening, wss, run, shape, trace, chosen⟩ :=
      benchmarkWrite_run .sequential skips ready opens numEntries valueSize positive
    let n := entriesPerBatch * ((numEntries + entriesPerBatch - 1) / entriesPerBatch)
    have slots : wss.flatten.map Prod.fst = trips 0 n 1 := chosen
    refine ⟨s', _, n, run, trace, ?_⟩
    simp only [bound_opened shape, bound_batches, ← slots, List.map_map]
    rfl

/-- Position by position, the keys of a sequential fill are those of the numbers
from zero. -/
theorem sequential_key_at {n : ℤ} {keys : List (List Char)} (filled : keys = (trips 0 n 1).map keyBlob)
    {p : ℕ} (inside : p < keys.length) : keys[p] = keyBlob p := by
  subst filled
  simp [trips]

end MorelloWorkloads.SqliteBench
