import MorelloWorkloads.SqliteBench.Database

/-! `benchmark_write`, with the operation counter that it drives. The clock, the
histogram of latencies and the choice of `synchronous` are left out. -/
namespace MorelloWorkloads.SqliteBench
open CountedLoop

inductive Order where
  | sequential
  | random
  deriving DecidableEq

inductive DBState where
  | fresh
  | existing
  deriving DecidableEq

def start (s : State) : State :=
  { s with bytes := 0, message := some "", done := 0, nextReport := 100 }

def emit (s : State) (e : Event) : State := { s with trace := s.trace ++ [e] }

/-- When the next progress line is due after one that was due at `report`. -/
def laterReport (report : ℤ) : ℤ :=
  if report < 1000 then report + 100
  else if report < 5000 then report + 500
  else if report < 10000 then report + 1000
  else if report < 50000 then report + 5000
  else if report < 100000 then report + 10000
  else if report < 500000 then report + 50000
  else report + 100000

def finishedSingleOp (s : State) : State :=
  let done := s.done + 1
  let next := if done ≥ s.nextReport then laterReport s.nextReport else s.nextReport
  emit { s with done := done, nextReport := next } .finished

/-- `%016d` -/
def formatKey (k : ℤ) : List Char :=
  let digits := Nat.toDigits 10 k.natAbs
  if k < 0 then '-' :: digits.leftpad 15 '0' else digits.leftpad 16 '0'

/-- The 16 bytes that are bound as the key. -/
def keyBlob (k : ℤ) : List Char := (formatKey k).take 16

/-- The key of one step, and the generator's next state. -/
def chooseKey (order : Order) (numEntries i j : ℤ) (rand : Random) : ℤ × Random :=
  match order with
  | .sequential => (i + j, rand)
  | .random =>
    let (x, rand) := randNext rand
    (x.toNat % numEntries, rand)

def writeEntry (order : Order) (numEntries valueSize i : ℤ) (s : State) (j : ℤ) : Option State := do
  let (value, gen) ← randGenGenerate s.gen valueSize
  let (k, rand) := chooseKey order numEntries i j s.rand
  let bytes := s.bytes + valueSize + (formatKey k).length
  let s := emit { s with gen := gen, rand := rand, bytes := bytes } (.replace (keyBlob k) value)
  return finishedSingleOp s

/-- Whether the batches are transactions. -/
def transacts (flags : Flags) (entriesPerBatch : ℤ) : Bool :=
  flags.transaction && decide (entriesPerBatch > 1)

def writeBatch (flags : Flags) (order : Order) (numEntries valueSize entriesPerBatch : ℤ) (s : State)
    (i : ℤ) : Option State := do
  let s := if transacts flags entriesPerBatch then emit s .beginTrans else s
  let s ← loopM 0 entriesPerBatch 1 s (writeEntry order numEntries valueSize i)
  return if transacts flags entriesPerBatch then emit s .endTrans else s

/-- The database that a fill writes to. -/
def openFor (flags : Flags) (state : DBState) (s : State) : Option State :=
  if state = .fresh then (reopen flags s).map start else some s

def announce (numEntries : ℤ) (s : State) : State :=
  if numEntries ≠ s.num then { s with message := some ("(" ++ toString numEntries ++ " ops)") } else s

/-- `none` is `exit(1)` of the open, or an access out of bounds. -/
def benchmarkWrite (flags : Flags) (s : State) (order : Order) (state : DBState)
    (numEntries valueSize entriesPerBatch : ℤ) : Option State :=
  if state = .fresh ∧ flags.useExistingDb then
    some { s with message := some "skipping (--use_existing_db is true)" }
  else do
    let s ← openFor flags state s
    loopM 0 numEntries entriesPerBatch (announce numEntries s)
      (writeBatch flags order numEntries valueSize entriesPerBatch)

def Event.key? : Event → Option (List Char)
  | .replace key _ => some key
  | .createTable _ | .beginTrans | .finished | .endTrans => none

/-- The keys of the `REPLACE` steps, in order. -/
def bound (events : List Event) : List (List Char) := events.filterMap Event.key?

/-- Read from within a transaction or from outside one: every step is in exactly
one, and they neither nest nor stay open. -/
def Enclosed : Bool → List Event → Prop
  | inside, [] => inside = false
  | inside, .beginTrans :: es => inside = false ∧ Enclosed true es
  | inside, .endTrans :: es => inside = true ∧ Enclosed false es
  | inside, .replace _ _ :: es => inside = true ∧ Enclosed inside es
  | inside, .createTable _ :: es => Enclosed inside es
  | inside, .finished :: es => Enclosed inside es

/-- What a fill has to do with the database. -/
structure Fills (flags : Flags) (order : Order) (numEntries entriesPerBatch : ℤ)
    (events : List Event) : Prop where
  replaces : ((bound events).length : ℤ) = numEntries
  finishes : (events.count .finished : ℤ) = numEntries
  sequential : order = .sequential → bound events = (trips 0 numEntries 1).map keyBlob
  random : order = .random → ∀ key ∈ bound events, ∃ k, 0 ≤ k ∧ k < numEntries ∧ key = keyBlob k
  enclosed : flags.transaction = true → entriesPerBatch > 1 → Enclosed false events

/-- The keys `ks` that were chosen for `slots`. -/
def Chosen (order : Order) (numEntries : ℤ) (slots ks : List ℤ) : Prop :=
  match order with
  | .sequential => ks = slots
  | .random => ks.length = slots.length ∧ ∀ k ∈ ks, 0 ≤ k ∧ k < numEntries

/-- A key and the value that was written under it. -/
abbrev Entry := ℤ × Option (List Byte)

def Entry.events (w : Entry) : List Event := [.replace (keyBlob w.1) w.2, .finished]

def batchEvents (transacting : Bool) (ws : List Entry) : List Event :=
  if transacting then .beginTrans :: ws.flatMap Entry.events ++ [.endTrans]
  else ws.flatMap Entry.events

/-- From `s` the slots have been written, one entry each. -/
def Wrote (order : Order) (numEntries : ℤ) (s : State) (slots : List ℤ) (s' : State) : Prop :=
  s'.gen.Ready ∧ ∃ ws : List Entry, s'.trace = s.trace ++ ws.flatMap Entry.events ∧
    Chosen order numEntries slots (ws.map Prod.fst)

/-- The same in batches. -/
def WroteBatches (transacting : Bool) (order : Order) (numEntries : ℤ) (s : State) (slots : List ℤ)
    (s' : State) : Prop :=
  s'.gen.Ready ∧ ∃ wss : List (List Entry),
    s'.trace = s.trace ++ wss.flatMap (batchEvents transacting) ∧
      Chosen order numEntries slots (wss.flatten.map Prod.fst)

theorem Chosen.nil (order : Order) (numEntries : ℤ) : Chosen order numEntries [] [] := by
  cases order with
  | sequential => rfl
  | random => exact ⟨rfl, by simp⟩

theorem Chosen.append {order : Order} {numEntries : ℤ} {slots slots' ks ks' : List ℤ}
    (first : Chosen order numEntries slots ks) (second : Chosen order numEntries slots' ks') :
    Chosen order numEntries (slots ++ slots') (ks ++ ks') := by
  cases order with
  | sequential =>
    simp only [Chosen] at first second ⊢
    rw [first, second]
  | random =>
    refine ⟨by rw [List.length_append, List.length_append, first.1, second.1], ?_⟩
    intro k hk
    cases List.mem_append.mp hk with
    | inl old =>
      exact first.2 k old
    | inr new =>
      exact second.2 k new

theorem Chosen.length {order : Order} {numEntries : ℤ} {slots ks : List ℤ}
    (chosen : Chosen order numEntries slots ks) : ks.length = slots.length := by
  cases order with
  | sequential => exact congrArg List.length chosen
  | random => exact chosen.1

theorem chooseKey_chosen (order : Order) {numEntries : ℤ} (positive : 0 < numEntries) (i j : ℤ)
    (rand : Random) : Chosen order numEntries [i + j] [(chooseKey order numEntries i j rand).1] := by
  cases order with
  | sequential => rfl
  | random =>
    refine ⟨rfl, ?_⟩
    intro k hk
    rw [List.mem_singleton] at hk
    subst hk
    exact ⟨Int.emod_nonneg _ positive.ne', Int.emod_lt_of_pos _ positive⟩

/-- One more entry, for the slot of the pass. -/
theorem writeEntry_run (order : Order) {numEntries : ℤ} (positive : 0 < numEntries) (valueSize i : ℤ)
    {s₀ s : State} {slots : List ℤ} (wrote : Wrote order numEntries s₀ slots s) (j : ℤ) :
    ∃ s', writeEntry order numEntries valueSize i s j = some s' ∧
      Wrote order numEntries s₀ (slots ++ [i + j]) s' := by
  obtain ⟨ready, ws, trace, chosen⟩ := wrote
  obtain ⟨value, gen, generated, ready'⟩ := randGenGenerate_run ready valueSize
  have key := chooseKey_chosen order positive i j s.rand
  rw [writeEntry, generated]
  refine ⟨_, rfl, ready', ws ++ [((chooseKey order numEntries i j s.rand).1, value)], ?_, ?_⟩
  · simp only [finishedSingleOp, emit, trace, List.append_assoc, List.flatMap_append,
      List.flatMap_singleton, Entry.events]
    rfl
  · rw [List.map_append]
    exact chosen.append key

/-- The inner loop fills a slot in each pass. -/
theorem entries_run (order : Order) {numEntries : ℤ} (positive : 0 < numEntries)
    (valueSize entriesPerBatch : ℤ) {s : State} (ready : s.gen.Ready) (i : ℤ) :
    ∃ s', loopM 0 entriesPerBatch 1 s (writeEntry order numEntries valueSize i) = some s' ∧
      Wrote order numEntries s ((trips 0 entriesPerBatch 1).map (i + ·)) s' := by
  apply loopM_run fun taken => Wrote order numEntries s (taken.map (i + ·))
  · intro taken mid j _ wrote
    rw [List.map_append]
    exact writeEntry_run order positive valueSize i wrote j
  · exact ⟨ready, [], by simp, Chosen.nil order numEntries⟩

/-- One more batch, with a slot for each pass of the inner loop. -/
theorem writeBatch_run (flags : Flags) (order : Order) {numEntries : ℤ} (positive : 0 < numEntries)
    (valueSize entriesPerBatch : ℤ) {s₀ s : State} {slots : List ℤ}
    (wrote : WroteBatches (transacts flags entriesPerBatch) order numEntries s₀ slots s) (i : ℤ) :
    ∃ s', writeBatch flags order numEntries valueSize entriesPerBatch s i = some s' ∧
      WroteBatches (transacts flags entriesPerBatch) order numEntries s₀
        (slots ++ (trips 0 entriesPerBatch 1).map (i + ·)) s' := by
  unfold writeBatch
  generalize transacts flags entriesPerBatch = transacting at wrote ⊢
  obtain ⟨ready, wss, trace, chosen⟩ := wrote
  cases transacting with
  | true =>
    obtain ⟨s', run, ready', ws, trace', chosen'⟩ := entries_run order positive valueSize
      entriesPerBatch (show (emit s .beginTrans).gen.Ready from ready) i
    refine ⟨emit s' .endTrans, ?_, ready', wss ++ [ws], ?_, ?_⟩
    · simp only [if_true, run, Option.bind_eq_bind, Option.bind_some, Option.pure_def]
    · simp [emit, trace', trace, batchEvents]
    · simpa using chosen.append chosen'
  | false =>
    obtain ⟨s', run, ready', ws, trace', chosen'⟩ :=
      entries_run order positive valueSize entriesPerBatch ready i
    refine ⟨s', ?_, ready', wss ++ [ws], ?_, ?_⟩
    · simp only [Bool.false_eq_true, if_false, run, Option.bind_eq_bind, Option.bind_some,
        Option.pure_def]
    · simp [trace', trace, batchEvents]
    · simpa using chosen.append chosen'

/-- The slots of all batches: whole batches, the last of which may pass the
number of entries. -/
theorem slots_eq {numEntries entriesPerBatch : ℤ} (positive : 0 < entriesPerBatch) :
    (trips 0 numEntries entriesPerBatch).flatMap (fun i => (trips 0 entriesPerBatch 1).map (i + ·)) =
      trips 0 (entriesPerBatch * ((numEntries + entriesPerBatch - 1) / entriesPerBatch)) 1 := by
  have strides := trips_stride positive 0 ((numEntries + entriesPerBatch - 1) / entriesPerBatch)
  have rows := @trips_rowMajor 0 ((numEntries + entriesPerBatch - 1) / entriesPerBatch) _ positive.le
  rw [mul_zero] at strides
  rw [zero_mul, mul_comm _ entriesPerBatch] at rows
  rw [trips_covered positive, strides, ← rows, List.flatMap_map]
  apply List.flatMap_congr
  intro y _
  apply List.map_congr_left
  intro x _
  ring

/-- The outer loop. -/
theorem batches_run (flags : Flags) (order : Order) (numEntries valueSize : ℤ) {entriesPerBatch : ℤ}
    (positive : 0 < entriesPerBatch) {s : State} (ready : s.gen.Ready) :
    ∃ s', loopM 0 numEntries entriesPerBatch s
        (writeBatch flags order numEntries valueSize entriesPerBatch) = some s' ∧
      WroteBatches (transacts flags entriesPerBatch) order numEntries s
        (trips 0 (entriesPerBatch * ((numEntries + entriesPerBatch - 1) / entriesPerBatch)) 1) s' := by
  rw [← slots_eq positive]
  apply loopM_run fun taken => WroteBatches (transacts flags entriesPerBatch) order numEntries s
    (taken.flatMap fun i => (trips 0 entriesPerBatch 1).map (i + ·))
  · intro taken mid i hi wrote
    have some_entry : 0 < numEntries := by
      obtain ⟨k, rfl, below⟩ := (mem_trips positive).mp hi
      have : 0 ≤ entriesPerBatch * (k : ℤ) := by positivity
      omega
    rw [List.flatMap_append, List.flatMap_singleton]
    exact writeBatch_run flags order some_entry valueSize entriesPerBatch wrote i
  · exact ⟨ready, [], by simp, Chosen.nil order numEntries⟩

/-- Opening the database of a fresh fill puts one event into the trace. -/
theorem openFor_run {flags : Flags} {s : State} {state : DBState} (ready : s.gen.Ready)
    (opens : state = .fresh → (databasePath flags.db (s.dbNum + 1)).length < maxPathLen) :
    ∃ s' opening, openFor flags state s = some s' ∧ s'.gen.Ready ∧ s'.trace = s.trace ++ opening ∧
      (opening = [] ∨ ∃ stale, opening = [.createTable stale]) := by
  unfold openFor
  by_cases fresh : state = .fresh
  · obtain ⟨s', opened⟩ := reopen_defined (opens fresh)
    obtain ⟨-, -, -, gen, trace⟩ := reopen_eq opened
    rw [if_pos fresh, opened]
    refine ⟨start s', _, rfl, ?_, trace, Or.inr ⟨_, rfl⟩⟩
    rwa [← gen] at ready
  · rw [if_neg fresh]
    exact ⟨s, [], rfl, ready, by simp, Or.inl rfl⟩

theorem announce_gen (numEntries : ℤ) (s : State) : (announce numEntries s).gen = s.gen := by
  unfold announce
  split
  · rfl
  · rfl

theorem announce_trace (numEntries : ℤ) (s : State) : (announce numEntries s).trace = s.trace := by
  unfold announce
  split
  · rfl
  · rfl

/-- What a fill that is not skipped puts into the trace. -/
theorem benchmarkWrite_run {flags : Flags} {s : State} (order : Order) {state : DBState}
    (goes : ¬ (state = .fresh ∧ flags.useExistingDb = true)) (ready : s.gen.Ready)
    (opens : state = .fresh → (databasePath flags.db (s.dbNum + 1)).length < maxPathLen)
    (numEntries valueSize : ℤ) {entriesPerBatch : ℤ} (positive : 0 < entriesPerBatch) :
    ∃ (s' : State) (opening : List Event) (wss : List (List Entry)),
      benchmarkWrite flags s order state numEntries valueSize entriesPerBatch = some s' ∧
      (opening = [] ∨ ∃ stale, opening = [.createTable stale]) ∧
      s'.trace = s.trace ++ (opening ++ wss.flatMap (batchEvents (transacts flags entriesPerBatch))) ∧
      Chosen order numEntries
        (trips 0 (entriesPerBatch * ((numEntries + entriesPerBatch - 1) / entriesPerBatch)) 1)
        (wss.flatten.map Prod.fst) := by
  obtain ⟨s₁, opening, opened, ready₁, trace₁, shape⟩ := openFor_run ready opens
  rw [← announce_gen numEntries] at ready₁
  obtain ⟨s', run, -, wss, trace, chosen⟩ :=
    batches_run flags order numEntries valueSize positive ready₁
  refine ⟨s', opening, wss, ?_, shape, ?_, chosen⟩
  · rw [benchmarkWrite, if_neg goes, opened]
    exact run
  · rw [trace, announce_trace, trace₁, List.append_assoc]

section Events
variable {transacting : Bool} {opening : List Event}
  (shape : opening = [] ∨ ∃ stale, opening = [.createTable stale])

theorem bound_entries (ws : List Entry) :
    bound (ws.flatMap Entry.events) = ws.map fun w => keyBlob w.1 := by
  induction ws with
  | nil => rfl
  | cons w ws ih => simpa [bound, Entry.events, List.filterMap_cons, Event.key?] using ih

theorem count_entries (ws : List Entry) :
    (ws.flatMap Entry.events).count .finished = ws.length := by
  induction ws with
  | nil => rfl
  | cons w ws ih => simp [Entry.events, ih]

theorem bound_batch (ws : List Entry) :
    bound (batchEvents transacting ws) = ws.map fun w => keyBlob w.1 := by
  rw [← bound_entries]
  cases transacting with
  | true => simp [batchEvents, bound, List.filterMap_cons, Event.key?]
  | false => rfl

theorem count_batch (ws : List Entry) :
    (batchEvents transacting ws).count .finished = ws.length := by
  rw [← count_entries]
  cases transacting with
  | true => simp [batchEvents]
  | false => rfl

theorem bound_batches (wss : List (List Entry)) :
    bound (wss.flatMap (batchEvents transacting)) = wss.flatten.map fun w => keyBlob w.1 := by
  induction wss with
  | nil => rfl
  | cons ws wss ih =>
    rw [List.flatMap_cons, bound, List.filterMap_append, ← bound, ← bound, bound_batch, ih,
      List.flatten_cons, List.map_append]

theorem count_batches (wss : List (List Entry)) :
    (wss.flatMap (batchEvents transacting)).count .finished = wss.flatten.length := by
  induction wss with
  | nil => rfl
  | cons ws wss ih =>
    rw [List.flatMap_cons, List.count_append, count_batch, ih, List.flatten_cons,
      List.length_append]

theorem enclosed_entries (ws : List Entry) (es : List Event) :
    Enclosed true (ws.flatMap Entry.events ++ es) ↔ Enclosed true es := by
  induction ws with
  | nil => rfl
  | cons w ws ih => simpa [Entry.events, Enclosed] using ih

/-- Batches that are transactions follow each other. -/
theorem enclosed_batches (wss : List (List Entry)) :
    Enclosed false (wss.flatMap (batchEvents true)) := by
  induction wss with
  | nil => rfl
  | cons ws wss ih =>
    have follows : Enclosed true (ws.flatMap Entry.events ++ .endTrans ::
        wss.flatMap (batchEvents true)) := (enclosed_entries ws _).mpr ⟨rfl, ih⟩
    simpa [batchEvents, Enclosed] using follows

include shape

theorem bound_opened (es : List Event) : bound (opening ++ es) = bound es := by
  rcases shape with rfl | ⟨stale, rfl⟩
  · rfl
  · rfl

theorem count_opened (es : List Event) : (opening ++ es).count .finished = es.count .finished := by
  rcases shape with rfl | ⟨stale, rfl⟩
  · rfl
  · simp

theorem enclosed_opened {es : List Event} (enclosed : Enclosed false es) :
    Enclosed false (opening ++ es) := by
  rcases shape with rfl | ⟨stale, rfl⟩
  · exact enclosed
  · exact enclosed

end Events

/-- Of the slots of a whole number of entries, a fill makes what it has to. -/
theorem Fills.of_chosen {flags : Flags} {order : Order} {numEntries entriesPerBatch : ℤ}
    (nonneg : 0 ≤ numEntries) {opening : List Event} {wss : List (List Entry)}
    (shape : opening = [] ∨ ∃ stale, opening = [.createTable stale])
    (chosen : Chosen order numEntries (trips 0 numEntries 1) (wss.flatten.map Prod.fst)) :
    Fills flags order numEntries entriesPerBatch
      (opening ++ wss.flatMap (batchEvents (transacts flags entriesPerBatch))) := by
  have keys : bound (opening ++ wss.flatMap (batchEvents (transacts flags entriesPerBatch))) =
      (wss.flatten.map Prod.fst).map keyBlob := by
    rw [bound_opened shape, bound_batches, List.map_map]
    rfl
  have total : (wss.flatten.length : ℤ) = numEntries := by
    have := chosen.length
    rw [List.length_map, length_trips_one] at this
    omega
  refine ⟨?_, ?_, ?_, ?_, ?_⟩
  · rw [keys, List.length_map, List.length_map]
    exact total
  · rw [count_opened shape, count_batches]
    exact total
  · rintro rfl
    rw [keys]
    exact congrArg (List.map keyBlob) chosen
  · rintro rfl key hkey
    rw [keys] at hkey
    obtain ⟨k, hk, rfl⟩ := List.mem_map.mp hkey
    obtain ⟨low, high⟩ := chosen.2 k hk
    exact ⟨k, low, high, rfl⟩
  · intro transaction several
    have on : transacts flags entriesPerBatch = true := by
      simp [transacts, transaction, several]
    apply enclosed_opened shape
    rw [on]
    exact enclosed_batches wss

/-- A fill that made what it has to consists of whole batches. -/
theorem Fills.dvd {flags : Flags} {order : Order} {numEntries entriesPerBatch : ℤ}
    (nonneg : 0 ≤ numEntries) (positive : 0 < entriesPerBatch) {opening : List Event}
    {wss : List (List Entry)} (shape : opening = [] ∨ ∃ stale, opening = [.createTable stale])
    (chosen : Chosen order numEntries
      (trips 0 (entriesPerBatch * ((numEntries + entriesPerBatch - 1) / entriesPerBatch)) 1)
      (wss.flatten.map Prod.fst))
    (fills : Fills flags order numEntries entriesPerBatch
      (opening ++ wss.flatMap (batchEvents (transacts flags entriesPerBatch)))) :
    entriesPerBatch ∣ numEntries := by
  have covered : 0 ≤ entriesPerBatch * ((numEntries + entriesPerBatch - 1) / entriesPerBatch) :=
    mul_nonneg positive.le (Int.ediv_nonneg (by omega) positive.le)
  have finishes := fills.finishes
  have slots := chosen.length
  rw [count_opened shape, count_batches] at finishes
  rw [List.length_map, length_trips_one] at slots
  apply (covered_eq_iff positive).mp
  omega

theorem Fills.nil (flags : Flags) (order : Order) (entriesPerBatch : ℤ) :
    Fills flags order 0 entriesPerBatch [] where
  replaces := rfl
  finishes := rfl
  sequential _ := rfl
  random _ key hkey := by cases hkey
  enclosed _ _ := rfl

/-- A fill does what it has to exactly when it is empty, or it is not skipped and
consists of whole batches. -/
theorem fill_exact_iff {flags : Flags} {s : State} (order : Order) {state : DBState} {numEntries : ℤ}
    (nonneg : 0 ≤ numEntries) (valueSize : ℤ) {entriesPerBatch : ℤ} (positive : 1 ≤ entriesPerBatch)
    (ready : s.gen.Ready)
    (opens : state = .fresh → (databasePath flags.db (s.dbNum + 1)).length < maxPathLen) :
    (∃ s' events,
      benchmarkWrite flags s order state numEntries valueSize entriesPerBatch = some s' ∧
        s'.trace = s.trace ++ events ∧ Fills flags order numEntries entriesPerBatch events) ↔
      numEntries = 0 ∨
        ¬ (state = .fresh ∧ flags.useExistingDb = true) ∧ entriesPerBatch ∣ numEntries := by
  by_cases skips : state = .fresh ∧ flags.useExistingDb = true
  · have skipped : benchmarkWrite flags s order state numEntries valueSize entriesPerBatch =
        some { s with message := some "skipping (--use_existing_db is true)" } := if_pos skips
    rw [skipped]
    constructor
    · rintro ⟨s', events, same, trace, fills⟩
      obtain rfl := Option.some.inj same
      have none_written : events = [] := by simpa using trace
      left
      simpa [none_written, bound] using fills.replaces.symm
    · rintro (rfl | ⟨goes, -⟩)
      · exact ⟨_, [], rfl, by simp, Fills.nil flags order entriesPerBatch⟩
      · exact absurd skips goes
  · have hs : 0 < entriesPerBatch := by omega
    obtain ⟨s', opening, wss, run, shape, trace, chosen⟩ :=
      benchmarkWrite_run order skips ready opens numEntries valueSize hs
    constructor
    · rintro ⟨s'', events, run', trace', fills⟩
      obtain rfl : s' = s'' := Option.some.inj (run.symm.trans run')
      obtain rfl := List.append_cancel_left (trace.symm.trans trace')
      exact Or.inr ⟨skips, fills.dvd nonneg hs shape chosen⟩
    · intro whole
      have divides : entriesPerBatch ∣ numEntries := by
        rcases whole with rfl | ⟨-, divides⟩
        · exact dvd_zero _
        · exact divides
      rw [(covered_eq_iff hs).mpr divides] at chosen
      exact ⟨s', _, run, trace, Fills.of_chosen nonneg shape chosen⟩

/-- `fillseqbatch` with the default settings. -/
theorem fillseqbatch_default : ∃ s,
    benchmarkInit init usedDisk (fun _ => 0) (fun _ => 0) (fun _ => 0) = some (some s) ∧
    ∃ s' events, benchmarkWrite init s .sequential .fresh 1000000 100 1000 = some s' ∧
      s'.trace = s.trace ++ events ∧ Fills init .sequential 1000000 1000 events := by
  obtain ⟨s, run, -, num, -, ready⟩ := benchmarkInit_default init rfl rfl
    (show initDirectory init usedDisk = some ⟨usedDisk.directories, []⟩ by decide)
  have opens : (databasePath init.db (s.dbNum + 1)).length < maxPathLen := by
    rw [num]
    decide
  refine ⟨s, run, (fill_exact_iff .sequential (by norm_num) 100 (by norm_num) ready
    fun _ => opens).mpr (Or.inr ⟨by decide, ?_⟩)⟩
  exact ⟨1000, by norm_num⟩

def single : Flags := { init with num := 1 }

/-- `fillseqbatch` of one entry writes 1000 of them. -/
theorem fillseqbatch_single : ∃ s s',
    benchmarkInit single usedDisk (fun _ => 0) (fun _ => 0) (fun _ => 0) = some (some s) ∧
    s.trace = [] ∧ benchmarkWrite single s .sequential .fresh 1 100 1000 = some s' ∧
    (bound s'.trace).length = 1000 ∧ s'.trace.count .finished = 1000 := by
  obtain ⟨s, run, -, num, empty, ready⟩ := benchmarkInit_default single rfl rfl
    (show initDirectory single usedDisk = some ⟨usedDisk.directories, []⟩ by decide)
  have opens : (databasePath single.db (s.dbNum + 1)).length < maxPathLen := by
    rw [num]
    decide
  obtain ⟨s', opening, wss, written, shape, trace, chosen⟩ :=
    @benchmarkWrite_run single s .sequential .fresh (by decide) ready (fun _ => opens) 1 100 1000
      (by norm_num)
  have total : wss.flatten.length = 1000 := by
    have := chosen.length
    rw [List.length_map, length_trips_one] at this
    omega
  rw [empty, List.nil_append] at trace
  refine ⟨s, s', run, empty, written, ?_, ?_⟩
  · rw [trace, bound_opened shape, bound_batches, List.length_map, total]
  · rw [trace, count_opened shape, count_batches, total]

end MorelloWorkloads.SqliteBench
