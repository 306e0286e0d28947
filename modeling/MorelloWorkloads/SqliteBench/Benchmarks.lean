import MorelloWorkloads.SqliteBench.Keys

/-! `benchmark_run`: the names on the list are run one after the other against the
table that the last fill has made. What `stop` prints of the rate is arbitrary, and so is
the memory that it measures before it prints there. -/
namespace MorelloWorkloads.SqliteBench
open CountedLoop

/-- What a name stands for, with the arguments of its call. -/
inductive Benchmark where
  | write (order : Order) (state : DBState) (numEntries valueSize entriesPerBatch : ℤ)
  | read (order : Order) (divisor : ℤ)
  deriving DecidableEq

/-- The chain of `strcmp`. -/
def benchmarks (valueSize num : ℤ) : List (List Char × Benchmark) :=
  [("fillseq".toList, .write .sequential .fresh num valueSize 1),
    ("fillseqbatch".toList, .write .sequential .fresh num valueSize 1000),
    ("fillrandom".toList, .write .random .fresh num valueSize 1),
    ("fillrandbatch".toList, .write .random .fresh num valueSize 1000),
    ("overwrite".toList, .write .random .existing num valueSize 1),
    ("overwritebatch".toList, .write .random .existing num valueSize 1000),
    ("fillrandsync".toList, .write .random .fresh (num.tdiv 100) valueSize 1),
    ("fillseqsync".toList, .write .sequential .fresh (num.tdiv 100) valueSize 1),
    ("fillrand100K".toList, .write .random .fresh (num.tdiv 1000) (100 * 1000) 1),
    ("fillseq100K".toList, .write .sequential .fresh (num.tdiv 1000) (100 * 1000) 1),
    ("readseq".toList, .read .sequential 1),
    ("readrandom".toList, .read .random 1),
    ("readrand100K".toList, .read .random 1000)]

/-- The benchmark of a name, if it is known. -/
def benchmarkOf (valueSize num : ℤ) (name : List Char) : Option Benchmark :=
  (benchmarks valueSize num).lookup name

/-- The rows of the table `test`, by their keys. -/
abbrev Table := List Char → Option (Option (List Byte))

def Table.apply (t : Table) : Event → Table
  | .createTable _ => fun _ => none
  | .replace key value => Function.update t key (some value)
  | .beginTrans | .finished | .endTrans => t

/-- `none` is the `exit(1)` on a table that exists. -/
def execute (t : Table) (e : Event) : Option Table :=
  if e = .createTable true then none else some (t.apply e)

inductive Output where
  | line (name : List Char) (done : ℤ) (message : List Char)
  | unknown (name : List Char)
  deriving DecidableEq

/-- A run, with the keys that its readings have looked for and whether a row came. -/
structure Session where
  state : State
  table : Table
  looked : List (List (List Char × Bool))
  output : List Output

/-- `finished_single_op` without the event. -/
def tick (s : State) : State := { finishedSingleOp s with trace := s.trace }

def perform (flags : Flags) (t : Session) : Benchmark → Option Session
  | .write order state numEntries valueSize entriesPerBatch => do
    let s ← benchmarkWrite flags { t.state with trace := [] } order state numEntries valueSize entriesPerBatch
    let table ← s.trace.foldlM execute t.table
    return { t with state := s, table := table }
  | .read order divisor =>
    let n := t.state.reads
    let s := { t.state with reads := n.tdiv divisor }
    let r := benchmarkRead flags order s.reads 1 s.rand
    let s := tick^[r.trace.count .finished] { s with rand := r.rand }
    some { t with
      state := { s with reads := n }
      looked := t.looked ++ [(selected r.trace).map fun key => (key, (t.table key).isSome)] }

/-- `strlen` in a block of this length; `none` is a read behind its end. -/
def strlenIn (length : ℕ) (b : Block) : Option ℕ := (List.range length).find? fun i => b i = 0

/-- `rate` is measured while it holds `fresh`, and then gets that many characters at
most; a message that was not empty is dropped. Without `--histogram` and `--raw`, which print
more here. -/
def stop (fresh : Block) (rate : List Char) (s : State) : Option State := do
  let s := if s.done < 1 then { s with done := 1 } else s
  if s.bytes > 0 then
    let n ← strlenIn 100 fresh
    let rate := rate.take (n - 1)
    return { s with message := some (String.ofList (if s.message = some "" then rate ++ [' '] else rate)) }
  else return s

section Names
variable (flags : Flags) (fresh : ℕ → Block) (rate : ℕ → List Char)

/-- The body of the loop. -/
def runName (t : Session) (name : List Char) : Option Session := do
  let t := { t with state := start { t.state with bytes := 0 } }
  match benchmarkOf flags.valueSize t.state.num name with
  | some benchmark =>
    let t ← perform flags t benchmark
    let s ← stop (fresh t.output.length) (rate t.output.length) t.state
    return { t with
      state := s
      output := t.output ++ [.line name s.done (s.message.getD "").toList] }
  | none => return if name ≠ [] then { t with output := t.output ++ [.unknown name] } else t

def benchmarkRun (names : List Char) (s : State) : Option Session := do
  let s ← benchmarkOpen flags s
  let table ← s.trace.foldlM execute fun _ => none
  (names.splitOn ',').foldlM (runName flags fresh rate) ⟨s, table, [], []⟩

end Names

/-- `FLAGS_benchmarks` as `init` sets it. -/
def defaultBenchmarks : List Char :=
  ("fillseq,fillseqsync,fillseqbatch,fillrandom,fillrandsync,fillrandbatch,overwrite,overwritebatch," ++
    "readrandom,readseq,fillrand100K,fillseq100K,readseq,readrand100K,").toList

/-! ## What a call leaves alone -/

/-- The fields that only an open changes, and those that nothing changes. -/
structure SameDatabase (s s' : State) : Prop where
  dbNum : s'.dbNum = s.dbNum
  disk : s'.disk = s.disk
  num : s'.num = s.num
  reads : s'.reads = s.reads

theorem SameDatabase.refl (s : State) : SameDatabase s s := ⟨rfl, rfl, rfl, rfl⟩

theorem SameDatabase.trans {a b c : State} (ab : SameDatabase a b) (bc : SameDatabase b c) :
    SameDatabase a c :=
  ⟨bc.dbNum.trans ab.dbNum, bc.disk.trans ab.disk, bc.num.trans ab.num, bc.reads.trans ab.reads⟩

theorem announce_same (numEntries : ℤ) (s : State) : SameDatabase s (announce numEntries s) := by
  unfold announce
  split
  · exact ⟨rfl, rfl, rfl, rfl⟩
  · exact SameDatabase.refl s

theorem writeEntry_same {order : Order} {numEntries valueSize i : ℤ} {s s' : State} {j : ℤ}
    (run : writeEntry order numEntries valueSize i s j = some s') : SameDatabase s s' := by
  obtain ⟨⟨value, gen⟩, -, rest⟩ := Option.bind_eq_some_iff.mp run
  obtain rfl := Option.some.inj rest
  exact ⟨rfl, rfl, rfl, rfl⟩

theorem writeBatch_same {flags : Flags} {order : Order} {numEntries valueSize entriesPerBatch : ℤ}
    {s s' : State} {i : ℤ}
    (run : writeBatch flags order numEntries valueSize entriesPerBatch s i = some s') :
    SameDatabase s s' := by
  obtain ⟨mid, entries, rest⟩ := Option.bind_eq_some_iff.mp run
  obtain rfl := Option.some.inj rest
  have kept := @loopM_keeps _ 0 entriesPerBatch 1 _ (fun s' => SameDatabase s s')
    (fun a _ b here same => same.trans (writeEntry_same here)) _ _ entries
    (by split <;> exact ⟨rfl, rfl, rfl, rfl⟩)
  split
  · exact kept.trans ⟨rfl, rfl, rfl, rfl⟩
  · exact kept

theorem batches_same {flags : Flags} {order : Order} {numEntries valueSize entriesPerBatch : ℤ}
    {s s' : State} (run : loopM 0 numEntries entriesPerBatch s
      (writeBatch flags order numEntries valueSize entriesPerBatch) = some s') : SameDatabase s s' :=
  @loopM_keeps _ 0 numEntries entriesPerBatch _ (fun s' => SameDatabase s s')
    (fun _ _ _ here same => same.trans (writeBatch_same here)) _ _ run (SameDatabase.refl s)

theorem reopen_same {flags : Flags} {s s' : State} (run : reopen flags s = some s') :
    s'.num = s.num ∧ s'.reads = s.reads := by
  simp only [reopen, benchmarkOpen, Bool.false_eq_true, if_false] at run
  split at run
  · cases run
  · split at run
    · cases run
    · obtain rfl := Option.some.inj run
      exact ⟨rfl, rfl⟩

/-- How many databases a fill opens. -/
def DBState.opened : DBState → ℕ
  | .fresh => 1
  | .existing => 0

def DBState.opening : DBState → List Event
  | .fresh => [.createTable false]
  | .existing => []

/-- What every call has to find, and leaves. -/
structure Orderly (flags : Flags) (s : State) : Prop where
  ready : s.gen.Ready
  clean : Clean flags.db s.dbNum s.disk

section Write
variable {flags : Flags} {s : State} (orderly : Orderly flags s) {state : DBState}
  (fits : state = .fresh → (databasePath flags.db (s.dbNum + 1)).length < maxPathLen)
include orderly fits

theorem openFor_orderly : ∃ s', openFor flags state s = some s' ∧ Orderly flags s' ∧
    s'.dbNum = s.dbNum + state.opened ∧ s'.num = s.num ∧ s'.reads = s.reads ∧
    s'.trace = s.trace ++ state.opening := by
  cases state with
  | fresh =>
    obtain ⟨s', opened⟩ := reopen_defined (fits rfl)
    obtain ⟨-, num, -, gen, -⟩ := reopen_eq opened
    obtain ⟨trace, clean⟩ := reopen_clean orderly.clean opened
    obtain ⟨same, reads⟩ := reopen_same opened
    refine ⟨start s', ?_, ⟨?_, clean⟩, num, same, reads, trace⟩
    · rw [openFor, if_pos rfl, opened]
      rfl
    · have ready := orderly.ready
      rwa [← gen] at ready
  | existing => exact ⟨s, rfl, orderly, rfl, rfl, rfl, (List.append_nil _).symm⟩

/-- A fill that is not skipped: the table is new if it has to be, and the entries
for the slots follow. -/
theorem write_orderly (order : Order) (goes : ¬ (state = .fresh ∧ flags.useExistingDb = true))
    (numEntries valueSize : ℤ) {entriesPerBatch : ℤ} (positive : 0 < entriesPerBatch) :
    ∃ (s' : State) (wss : List (List Entry)),
      benchmarkWrite flags s order state numEntries valueSize entriesPerBatch = some s' ∧
      Orderly flags s' ∧ s'.dbNum = s.dbNum + state.opened ∧ s'.num = s.num ∧ s'.reads = s.reads ∧
      s'.trace = s.trace ++
        (state.opening ++ wss.flatMap (batchEvents (transacts flags entriesPerBatch))) ∧
      Chosen order numEntries
        (trips 0 (entriesPerBatch * ((numEntries + entriesPerBatch - 1) / entriesPerBatch)) 1)
        (wss.flatten.map Prod.fst) := by
  obtain ⟨s₁, opened, orderly₁, dbNum, num, reads, trace₁⟩ := openFor_orderly orderly fits
  have announced := announce_same numEntries s₁
  have ready₁ : (announce numEntries s₁).gen.Ready := by
    rw [announce_gen]
    exact orderly₁.ready
  obtain ⟨s', run, ready, wss, trace, chosen⟩ :=
    batches_run flags order numEntries valueSize positive ready₁
  have same := announced.trans (batches_same run)
  refine ⟨s', wss, ?_, ⟨ready, ?_⟩, same.dbNum.trans dbNum, same.num.trans num,
    same.reads.trans reads, ?_, chosen⟩
  · rw [benchmarkWrite, if_neg goes, opened]
    exact run
  · rw [same.dbNum, same.disk]
    exact orderly₁.clean
  · rw [trace, announce_trace, trace₁, List.append_assoc]

end Write

/-! ## The table -/

def Table.put (t : Table) (w : Entry) : Table := Function.update t (keyBlob w.1) (some w.2)

theorem execute_entries (ws : List Entry) (t : Table) :
    (ws.flatMap Entry.events).foldlM execute t = some (ws.foldl Table.put t) := by
  induction ws generalizing t with
  | nil => rfl
  | cons w ws ih => exact ih (t.put w)

theorem execute_batch (transacting : Bool) (ws : List Entry) (t : Table) :
    (batchEvents transacting ws).foldlM execute t = some (ws.foldl Table.put t) := by
  cases transacting with
  | true =>
    have entries := execute_entries ws t
    simp only [batchEvents, if_true, List.cons_append, List.foldlM_cons, List.foldlM_append]
    show ((ws.flatMap Entry.events).foldlM execute t).bind _ = _
    rw [entries]
    rfl
  | false => exact execute_entries ws t

theorem execute_batches (transacting : Bool) (wss : List (List Entry)) (t : Table) :
    (wss.flatMap (batchEvents transacting)).foldlM execute t = some (wss.flatten.foldl Table.put t) := by
  induction wss generalizing t with
  | nil => rfl
  | cons ws wss ih =>
    rw [List.flatMap_cons, List.foldlM_append, execute_batch, List.flatten_cons, List.foldl_append]
    exact ih _

/-- After the entries there is a row for every key that had one, and for theirs. -/
theorem put_isSome (ws : List Entry) (t : Table) (key : List Char) :
    (ws.foldl Table.put t key).isSome ↔
      (t key).isSome ∨ key ∈ (ws.map Prod.fst).map keyBlob := by
  induction ws generalizing t with
  | nil => simp
  | cons w ws ih =>
    rw [List.foldl_cons, ih, List.map_cons, List.map_cons, List.mem_cons, ← or_assoc]
    apply or_congr_left
    by_cases same : key = keyBlob w.1
    · simp [Table.put, same]
    · simp [Table.put, same]

/-! ## One name -/

/-- How many databases a name opens. -/
def opensFor (flags : Flags) (num : ℤ) (name : List Char) : ℕ :=
  match benchmarkOf flags.valueSize num name with
  | some (.write _ state _ _ _) => if flags.useExistingDb then 0 else state.opened
  | _ => 0

/-- The name of a line, and whether it was known. -/
def Output.named : Output → Bool × List Char
  | .line name _ _ => (true, name)
  | .unknown name => (false, name)

/-- What is printed for a name: nothing for an empty one. -/
def reportFor (valueSize num : ℤ) (name : List Char) : List (Bool × List Char) :=
  if (benchmarkOf valueSize num name).isSome then [(true, name)]
  else if name ≠ [] then [(false, name)]
  else []

/-- What a benchmark does to the rows, and what it sees of them. -/
def Effect (flags : Flags) (reads : ℤ) (t t' : Session) : Option Benchmark → Prop
  | some (.write order state numEntries _ entriesPerBatch) => t'.looked = t.looked ∧
      if state = .fresh ∧ flags.useExistingDb = true then t'.table = t.table
      else ∃ ks, Chosen order numEntries
          (trips 0 (entriesPerBatch * ((numEntries + entriesPerBatch - 1) / entriesPerBatch)) 1) ks ∧
        ∀ key, (t'.table key).isSome ↔
          (state = .existing ∧ (t.table key).isSome) ∨ key ∈ ks.map keyBlob
  | some (.read order divisor) => t'.table = t.table ∧
      ∃ ks, Chosen order (reads.tdiv divisor) (trips 0 (reads.tdiv divisor) 1) ks ∧
        t'.looked = t.looked ++ [ks.map fun k => (keyBlob k, (t.table (keyBlob k)).isSome)]
  | none => t'.table = t.table ∧ t'.looked = t.looked

/-- What every name keeps. -/
structure Kept (flags : Flags) (s s' : State) (opened : ℕ) : Prop where
  orderly : Orderly flags s'
  dbNum : s'.dbNum = s.dbNum + opened
  num : s'.num = s.num
  reads : s'.reads = s.reads

theorem tick_same (s : State) (n : ℕ) : SameDatabase s (tick^[n] s) ∧ (tick^[n] s).gen = s.gen := by
  induction n with
  | zero => exact ⟨SameDatabase.refl s, rfl⟩
  | succ n ih =>
    rw [Function.iterate_succ_apply']
    exact ⟨ih.1.trans ⟨rfl, rfl, rfl, rfl⟩, ih.2⟩

theorem strlenIn_defined {length : ℕ} {b : Block} (terminated : ∃ i < length, b i = 0) :
    ∃ n, strlenIn length b = some n := by
  obtain ⟨i, below, zero⟩ := terminated
  apply Option.isSome_iff_exists.mp
  rw [strlenIn, List.find?_isSome]
  exact ⟨i, List.mem_range.mpr below, by simpa using zero⟩

theorem stop_run {fresh : Block} (terminated : ∃ i < 100, fresh (i : ℕ) = 0) (rate : List Char) (s : State) :
    ∃ s', stop fresh rate s = some s' ∧ SameDatabase s s' ∧ s'.gen = s.gen := by
  obtain ⟨n, length⟩ := strlenIn_defined terminated
  unfold stop
  simp only [length, Option.bind_eq_bind, Option.bind_some, Option.pure_def]
  split
  · split
    · exact ⟨_, rfl, ⟨rfl, rfl, rfl, rfl⟩, rfl⟩
    · exact ⟨_, rfl, ⟨rfl, rfl, rfl, rfl⟩, rfl⟩
  · split
    · exact ⟨_, rfl, ⟨rfl, rfl, rfl, rfl⟩, rfl⟩
    · exact ⟨_, rfl, ⟨rfl, rfl, rfl, rfl⟩, rfl⟩

section Perform
variable {flags : Flags} {t : Session} (orderly : Orderly flags t.state)
include orderly

theorem perform_write (fits : (databasePath flags.db (t.state.dbNum + 1)).length < maxPathLen)
    (order : Order) (state : DBState) (numEntries valueSize : ℤ) {entriesPerBatch : ℤ}
    (positive : 0 < entriesPerBatch) (reads : ℤ) :
    ∃ t', perform flags t (.write order state numEntries valueSize entriesPerBatch) = some t' ∧
      Kept flags t.state t'.state (if flags.useExistingDb then 0 else state.opened) ∧
      t'.output = t.output ∧
      Effect flags reads t t' (some (.write order state numEntries valueSize entriesPerBatch)) := by
  by_cases skips : state = .fresh ∧ flags.useExistingDb = true
  · have skipped : perform flags t (.write order state numEntries valueSize entriesPerBatch) = some
        { t with state :=
          { t.state with trace := [], message := some "skipping (--use_existing_db is true)" } } := by
      rw [perform, benchmarkWrite, if_pos skips]
      rfl
    refine ⟨_, skipped, ⟨⟨orderly.ready, orderly.clean⟩, ?_, rfl, rfl⟩, rfl, rfl, ?_⟩
    · rw [if_pos skips.2]
      rfl
    · rw [if_pos skips]
  · obtain ⟨s', wss, run, orderly', dbNum, num, reads, trace, chosen⟩ :=
      @write_orderly flags { t.state with trace := [] } ⟨orderly.ready, orderly.clean⟩ state
        (fun _ => fits) order skips numEntries valueSize entriesPerBatch positive
    have opening : ∀ t : Table, state.opening.foldlM execute t =
        some (if state = .fresh then fun _ => none else t) := by
      cases state with
      | fresh => exact fun t => rfl
      | existing => exact fun t => rfl
    let before : Table := if state = .fresh then fun _ => none else t.table
    have table : s'.trace.foldlM execute t.table = some (wss.flatten.foldl Table.put before) := by
      rw [trace, List.nil_append, List.foldlM_append, opening]
      exact execute_batches _ wss before
    refine ⟨{ t with state := s', table := wss.flatten.foldl Table.put before }, ?_,
      ⟨orderly', ?_, num, reads⟩, rfl, rfl, ?_⟩
    · simp only [perform, run, Option.bind_eq_bind, Option.bind_some, table]
      rfl
    · rw [dbNum]
      cases state with
      | fresh =>
        have off : flags.useExistingDb = false := by simpa using skips
        rw [off]
        rfl
      | existing => simp [DBState.opened]
    · rw [if_neg skips]
      refine ⟨_, chosen, fun key => ?_⟩
      rw [put_isSome]
      cases state with
      | fresh => simp [before]
      | existing => simp [before]

theorem perform_read (order : Order) (divisor : ℤ) :
    ∃ t', perform flags t (.read order divisor) = some t' ∧ Kept flags t.state t'.state 0 ∧
      t'.output = t.output ∧ Effect flags t.state.reads t t' (some (.read order divisor)) := by
  obtain ⟨ks, keys, chosen⟩ :=
    benchmarkRead_run flags order (t.state.reads.tdiv divisor) one_pos t.state.rand
  have slots : 1 * ((t.state.reads.tdiv divisor + 1 - 1) / 1) = t.state.reads.tdiv divisor := by simp
  rw [slots] at chosen
  refine ⟨_, rfl, ?_, rfl, rfl, ks, chosen, ?_⟩
  · generalize (benchmarkRead flags order (t.state.reads.tdiv divisor) 1 t.state.rand) = r
    obtain ⟨same, gen⟩ := tick_same
      { t.state with reads := t.state.reads.tdiv divisor, rand := r.rand } (r.trace.count .finished)
    refine ⟨⟨?_, ?_⟩, same.dbNum, same.num, rfl⟩
    · rw [gen]
      exact orderly.ready
    · rw [same.dbNum, same.disk]
      exact orderly.clean
  · rw [keys, List.map_map]
    rfl

end Perform

/-- The batches of the benchmark are not empty. -/
def Benchmark.Proper : Benchmark → Prop
  | .write _ _ _ _ entriesPerBatch => 0 < entriesPerBatch
  | .read _ _ => True

theorem benchmarks_proper (valueSize num : ℤ) : ∀ b ∈ benchmarks valueSize num, b.2.Proper := by
  simp only [benchmarks, List.forall_mem_cons, Benchmark.Proper]
  norm_num

theorem benchmarkOf_proper {valueSize num : ℤ} {name : List Char} {benchmark : Benchmark}
    (known : benchmarkOf valueSize num name = some benchmark) : benchmark.Proper := by
  obtain ⟨before, after, split, -⟩ := List.lookup_eq_some_iff.mp known
  have member : (name, benchmark) ∈ benchmarks valueSize num := by
    rw [split]
    exact List.mem_append_right _ List.mem_cons_self
  exact benchmarks_proper valueSize num _ member

section Name
variable {flags : Flags} {fresh : ℕ → Block} (terminated : ∀ k, ∃ i < 100, fresh k (i : ℕ) = 0)
  (rate : ℕ → List Char)
include terminated

/-- What is left to do when a benchmark has been performed. -/
theorem finish_name {name : List Char} {t mid : Session} {benchmark : Benchmark} {opened : ℕ}
    (known : benchmarkOf flags.valueSize t.state.num name = some benchmark)
    (performed : perform flags { t with state := start { t.state with bytes := 0 } } benchmark = some mid)
    (kept : Kept flags t.state mid.state opened) (output : mid.output = t.output)
    (effect : Effect flags t.state.reads t mid (some benchmark)) :
    ∃ t', runName flags fresh rate t name = some t' ∧ Kept flags t.state t'.state opened ∧
      t'.output.map Output.named = t.output.map Output.named ++ [(true, name)] ∧
      Effect flags t.state.reads t t' (some benchmark) := by
  obtain ⟨s', stopped, same, gen⟩ :=
    stop_run (terminated mid.output.length) (rate mid.output.length) mid.state
  refine ⟨{ mid with
    state := s'
    output := mid.output ++ [.line name s'.done (s'.message.getD "").toList] }, ?_, ?_, ?_, ?_⟩
  · have here : benchmarkOf flags.valueSize (start { t.state with bytes := 0 }).num name = some benchmark :=
      known
    simp only [runName, here, performed, stopped, Option.bind_eq_bind, Option.bind_some]
    rfl
  · refine ⟨⟨?_, ?_⟩, same.dbNum.trans kept.dbNum, same.num.trans kept.num, same.reads.trans kept.reads⟩
    · rw [gen]
      exact kept.orderly.ready
    · rw [same.dbNum, same.disk]
      exact kept.orderly.clean
  · rw [output, List.map_append]
    rfl
  · exact effect

theorem runName_orderly (name : List Char) {t : Session} (orderly : Orderly flags t.state)
    (fits : (databasePath flags.db (t.state.dbNum + 1)).length < maxPathLen) :
    ∃ t', runName flags fresh rate t name = some t' ∧
      Kept flags t.state t'.state (opensFor flags t.state.num name) ∧
      t'.output.map Output.named =
        t.output.map Output.named ++ reportFor flags.valueSize t.state.num name ∧
      Effect flags t.state.reads t t' (benchmarkOf flags.valueSize t.state.num name) := by
  let t₀ : Session := { t with state := start { t.state with bytes := 0 } }
  have orderly₀ : Orderly flags t₀.state := ⟨orderly.ready, orderly.clean⟩
  cases known : benchmarkOf flags.valueSize t.state.num name with
  | none =>
    have here : benchmarkOf flags.valueSize (start { t.state with bytes := 0 }).num name = none := known
    have opened : opensFor flags t.state.num name = 0 := by
      rw [opensFor, known]
    rw [opened]
    by_cases named : name ≠ []
    · refine ⟨{ t₀ with output := t.output ++ [.unknown name] }, ?_, ⟨orderly₀, rfl, rfl, rfl⟩, ?_, rfl, rfl⟩
      · simp only [runName, here, if_pos named]
        rfl
      · rw [reportFor, known, if_pos named, List.map_append]
        rfl
    · refine ⟨t₀, ?_, ⟨orderly₀, rfl, rfl, rfl⟩, ?_, rfl, rfl⟩
      · simp only [runName, here, if_neg named]
        rfl
      · rw [reportFor, known, if_neg named]
        exact (List.append_nil _).symm
  | some benchmark =>
    have report : reportFor flags.valueSize t.state.num name = [(true, name)] := by
      rw [reportFor, known]
      rfl
    rw [report]
    cases benchmark with
    | write order state numEntries size entriesPerBatch =>
      have opened : opensFor flags t.state.num name = if flags.useExistingDb then 0 else state.opened := by
        rw [opensFor, known]
      obtain ⟨mid, performed, kept, output, effect⟩ := @perform_write flags t₀ orderly₀ fits order state
        numEntries size entriesPerBatch (benchmarkOf_proper known) t.state.reads
      rw [opened]
      exact finish_name terminated rate known performed ⟨kept.orderly, kept.dbNum, kept.num, kept.reads⟩
        output effect
    | read order divisor =>
      have opened : opensFor flags t.state.num name = 0 := by
        rw [opensFor, known]
      obtain ⟨mid, performed, kept, output, effect⟩ := @perform_read flags t₀ orderly₀ order divisor
      rw [opened]
      exact finish_name terminated rate known performed ⟨kept.orderly, kept.dbNum, kept.num, kept.reads⟩
        output effect

end Name

/-! ## The run -/

/-- The rows go through the effects of the names, one after the other. -/
inductive Effects (flags : Flags) (num reads : ℤ) : List (List Char) → Session → Session → Prop
  | nil (t : Session) : Effects flags num reads [] t t
  | cons {name : List Char} {names : List (List Char)} {t mid t' : Session}
      (here : Effect flags reads t mid (benchmarkOf flags.valueSize num name))
      (later : Effects flags num reads names mid t') : Effects flags num reads (name :: names) t t'

section Run
variable {flags : Flags} {fresh : ℕ → Block} (terminated : ∀ k, ∃ i < 100, fresh k (i : ℕ) = 0)
  (rate : ℕ → List Char)
include terminated

theorem names_orderly (names : List (List Char)) {t : Session} (orderly : Orderly flags t.state)
    (fits : ∀ k ≤ t.state.dbNum + names.length, (databasePath flags.db k).length < maxPathLen) :
    ∃ t', names.foldlM (runName flags fresh rate) t = some t' ∧
      Kept flags t.state t'.state (names.map (opensFor flags t.state.num)).sum ∧
      t'.output.map Output.named =
        t.output.map Output.named ++ names.flatMap (reportFor flags.valueSize t.state.num) ∧
      Effects flags t.state.num t.state.reads names t t' := by
  induction names generalizing t with
  | nil =>
    exact ⟨t, rfl, ⟨orderly, rfl, rfl, rfl⟩, (List.append_nil _).symm, .nil t⟩
  | cons name names ih =>
    obtain ⟨mid, here, kept, output, effect⟩ :=
      runName_orderly terminated rate name orderly (fits _ (by simp))
    have one : opensFor flags t.state.num name ≤ 1 := by
      unfold opensFor
      split
      · split
        · omega
        · rename_i state _ _ _ _ _
          cases state with
          | fresh => exact le_rfl
          | existing => exact zero_le_one
      · omega
    obtain ⟨t', rest, kept', output', effects⟩ := ih kept.orderly fun k hk => fits k (by
      rw [kept.dbNum] at hk
      simp only [List.length_cons]
      omega)
    rw [kept.num] at kept' output' effects
    rw [kept.reads] at effects
    refine ⟨t', ?_, ⟨kept'.orderly, ?_, kept'.num.trans kept.num, kept'.reads.trans kept.reads⟩, ?_,
      .cons effect effects⟩
    · rw [List.foldlM_cons, here]
      exact rest
    · rw [kept'.dbNum, kept.dbNum, List.map_cons, List.sum_cons, add_assoc]
    · rw [output', output, List.flatMap_cons, List.append_assoc]

end Run

/-- A run of the program: its flags and the list of names, on a disk where
`benchmark_init` leaves no database in the way. -/
structure Program where
  flags : Flags
  list : List Char
  disk : Disk
  cleared : Disk
  freshRaw : Block
  freshDst : Block
  freshGen : Block
  freshRate : ℕ → Block
  rate : ℕ → List Char
  low : 0 ≤ flags.compressionRatio
  high : flags.compressionRatio ≤ 1
  nonempty : 0 < flags.valueSize
  divides : rawLength flags.compressionRatio flags.valueSize ∣ flags.valueSize
  directory : initDirectory flags disk = some cleared
  clean : Clean flags.db 0 cleared
  fits : ∀ k ≤ 1 + (list.splitOn ',').length, (databasePath flags.db k).length < maxPathLen
  terminated : ∀ k, ∃ i < 100, freshRate k (i : ℕ) = 0

namespace Program
variable (p : Program)

def names : List (List Char) := p.list.splitOn ','

/-- `reads_` -/
def reads : ℤ := if p.flags.reads < 0 then p.flags.num else p.flags.reads

/-- `benchmark_init` and `benchmark_run`. -/
def run : Option Session := do
  match ← benchmarkInit p.flags p.disk p.freshRaw p.freshDst p.freshGen with
  | some s => benchmarkRun p.flags p.freshRate p.rate p.list s
  | none => none

/-- What a run leaves. -/
structure Ends (t : Session) : Prop where
  num : t.state.num = p.flags.num
  reads : t.state.reads = p.reads
  databases : t.state.dbNum = 1 + (p.names.map (opensFor p.flags p.flags.num)).sum
  orderly : Orderly p.flags t.state
  output : t.output.map Output.named = p.names.flatMap (reportFor p.flags.valueSize p.flags.num)
  rows : ∃ t₀ : Session, (∀ key, t₀.table key = none) ∧ t₀.looked = [] ∧
    Effects p.flags p.flags.num p.reads p.names t₀ t

theorem init_run : ∃ s, benchmarkInit p.flags p.disk p.freshRaw p.freshDst p.freshGen = some (some s) ∧
    Orderly p.flags s ∧ s.connected = false ∧ s.dbNum = 0 ∧ s.num = p.flags.num ∧ s.reads = p.reads ∧
    s.trace = [] := by
  obtain ⟨s, run, disk, dbNum, trace, ready⟩ := benchmarkInit_run p.low p.high p.nonempty p.divides
    p.freshRaw p.freshDst p.freshGen p.directory
  have fields : s.connected = false ∧ s.num = p.flags.num ∧ s.reads = p.reads := by
    obtain ⟨made, -, rest⟩ := Option.bind_eq_some_iff.mp run
    cases made with
    | none => cases rest
    | some made =>
      obtain ⟨disk', -, rfl⟩ := Option.map_eq_some_iff.mp (Option.some.inj rest)
      exact ⟨rfl, rfl, rfl⟩
  refine ⟨s, run, ⟨ready, ?_⟩, fields.1, dbNum, fields.2.1, fields.2.2, trace⟩
  rw [dbNum, disk]
  exact p.clean

/-- The names run from an opened database with no rows. -/
theorem opened_run : ∃ t₀ : Session,
    p.run = p.names.foldlM (runName p.flags p.freshRate p.rate) t₀ ∧ Orderly p.flags t₀.state ∧
    t₀.state.dbNum = 1 ∧ t₀.state.num = p.flags.num ∧ t₀.state.reads = p.reads ∧
    t₀.table = (fun _ => none) ∧ t₀.looked = [] ∧ t₀.output = [] := by
  obtain ⟨s, started, orderly, closed, dbNum, num, reads, trace⟩ := p.init_run
  have path : (databasePath p.flags.db (s.dbNum + 1)).length < maxPathLen :=
    p.fits _ (by rw [dbNum]; omega)
  obtain ⟨s₁, opened, orderly₁, dbNum₁, num₁, reads₁, trace₁⟩ :=
    @openFor_orderly p.flags s orderly .fresh fun _ => path
  obtain ⟨s₂, reopened, rfl⟩ :=
    Option.map_eq_some_iff.mp (show (reopen p.flags s).map start = some s₁ from opened)
  have same : { s with connected := false } = s := by
    cases s
    cases closed
    rfl
  rw [reopen, same] at reopened
  rw [trace, List.nil_append] at trace₁
  have table : s₂.trace.foldlM execute (fun _ => none) = some fun _ => none := by
    rw [show s₂.trace = [.createTable false] from trace₁]
    rfl
  refine ⟨⟨s₂, fun _ => none, [], []⟩, ?_, ⟨orderly₁.ready, orderly₁.clean⟩, ?_, num₁.trans num,
    reads₁.trans reads, rfl, rfl, rfl⟩
  · rw [run, started]
    simp only [Option.bind_eq_bind, Option.bind_some, benchmarkRun, reopened, table]
    rfl
  · rw [show s₂.dbNum = s.dbNum + 1 from dbNum₁, dbNum]

theorem paths_fit {t : Session} (opened : t.state.dbNum = 1) :
    ∀ k ≤ t.state.dbNum + p.names.length, (databasePath p.flags.db k).length < maxPathLen := by
  intro k hk
  rw [opened] at hk
  exact p.fits k hk

end Program

/-! ## What a reading finds -/

section Rows
variable {flags : Flags} {num reads : ℤ}

theorem Effects.append {names more : List (List Char)} {t t' : Session}
    (effects : Effects flags num reads (names ++ more) t t') :
    ∃ mid, Effects flags num reads names t mid ∧ Effects flags num reads more mid t' := by
  induction names generalizing t with
  | nil => exact ⟨t, .nil t, effects⟩
  | cons name names ih =>
    cases effects with
    | cons here later =>
      obtain ⟨mid, first, second⟩ := ih later
      exact ⟨mid, .cons here first, second⟩

theorem Effect.looked {b : Option Benchmark} {t t' : Session} (effect : Effect flags reads t t' b) :
    ∃ more, t'.looked = t.looked ++ more := by
  cases b with
  | none => exact ⟨[], effect.2.trans (List.append_nil _).symm⟩
  | some benchmark =>
    cases benchmark with
    | write order state numEntries size entriesPerBatch =>
      exact ⟨[], effect.1.trans (List.append_nil _).symm⟩
    | read order divisor =>
      obtain ⟨-, ks, -, looked⟩ := effect
      exact ⟨_, looked⟩

/-- What has been looked for stays on record. -/
theorem Effects.looked {names : List (List Char)} {t t' : Session}
    (effects : Effects flags num reads names t t') : ∃ more, t'.looked = t.looked ++ more := by
  induction effects with
  | nil t => exact ⟨[], (List.append_nil _).symm⟩
  | cons here later ih =>
    obtain ⟨now, first⟩ := here.looked
    obtain ⟨more, second⟩ := ih
    exact ⟨now ++ more, by rw [second, first, List.append_assoc]⟩

/-- Names that write nothing: readings and what is unknown. -/
def Idle (valueSize num : ℤ) (name : List Char) : Prop :=
  ∀ order state numEntries size entriesPerBatch,
    benchmarkOf valueSize num name ≠ some (.write order state numEntries size entriesPerBatch)

theorem Effects.idle {names : List (List Char)} (idle : ∀ name ∈ names, Idle flags.valueSize num name)
    {t t' : Session} (effects : Effects flags num reads names t t') : t'.table = t.table := by
  induction effects with
  | nil => rfl
  | @cons name names t mid t' here later ih =>
    obtain ⟨quiet, rest⟩ := List.forall_mem_cons.mp idle
    rw [ih rest]
    cases known : benchmarkOf flags.valueSize num name with
    | none =>
      rw [known] at here
      exact here.1
    | some benchmark =>
      rw [known] at here
      cases benchmark with
      | write order state numEntries size entriesPerBatch => exact absurd known (quiet _ _ _ _ _)
      | read order divisor => exact here.1

/-- A fresh sequential fill leaves the rows of its slots, from zero on. -/
theorem sequential_rows {numEntries size entriesPerBatch : ℤ} {t t' : Session}
    (fresh : flags.useExistingDb = false)
    (effect : Effect flags reads t t' (some (.write .sequential .fresh numEntries size entriesPerBatch)))
    (small : entriesPerBatch * ((numEntries + entriesPerBatch - 1) / entriesPerBatch) ≤ 2 ^ 31) {k : ℤ}
    (low : 0 ≤ k) (high : k < 2 ^ 31) : (t'.table (keyBlob k)).isSome ↔
      k < entriesPerBatch * ((numEntries + entriesPerBatch - 1) / entriesPerBatch) := by
  obtain ⟨-, rows⟩ := effect
  rw [if_neg (by simp [fresh])] at rows
  obtain ⟨ks, chosen, rows⟩ := rows
  have slots : ks = trips 0 (entriesPerBatch * ((numEntries + entriesPerBatch - 1) / entriesPerBatch)) 1 :=
    chosen
  rw [rows, slots]
  simp only [List.mem_map, mem_trips_one, reduceCtorEq, false_and, false_or]
  constructor
  · rintro ⟨j, ⟨lowest, below⟩, same⟩
    obtain rfl := keyBlob_injective lowest (by omega) low high same
    exact below
  · intro below
    exact ⟨k, ⟨low, below⟩, rfl⟩

end Rows

theorem init_ratio : 0 ≤ init.compressionRatio ∧ init.compressionRatio ≤ 1 ∧ 0 < init.valueSize := by
  norm_num [init]

theorem init_fits (k : ℕ) (few : k ≤ 16) : (databasePath init.db k).length < maxPathLen := by
  have digits : (Nat.toDigits 10 k).length ≤ 2 :=
    (Nat.length_toDigits_le_iff (by norm_num) (by norm_num)).mpr (by omega)
  have name : (databasePath init.db k).length = 21 + (Nat.toDigits 10 k).length := by
    simp only [databasePath, databaseName, List.length_append]
    rw [show init.db.length = 2 from rfl, show databasePrefix.length = 15 by decide,
      show ".db".toList.length = 3 by decide, List.length_singleton]
    omega
  rw [name, maxPathLen]
  omega

theorem usedDisk_cleared : initDirectory init usedDisk = some ⟨usedDisk.directories, []⟩ := by decide

theorem zero_terminated : ∃ i < 100, (fun _ => 0 : Block) (i : ℕ) = 0 := ⟨0, by norm_num, rfl⟩

/-- With the default settings, over the database of an earlier run. -/
def Program.over (list : List Char) (few : (list.splitOn ',').length ≤ 15) : Program where
  flags := init
  list := list
  disk := usedDisk
  cleared := ⟨usedDisk.directories, []⟩
  freshRaw _ := 0
  freshDst _ := 0
  freshGen _ := 0
  freshRate _ _ := 0
  rate _ := []
  low := init_ratio.1
  high := init_ratio.2.1
  nonempty := init_ratio.2.2
  divides := init_divides
  directory := usedDisk_cleared
  clean _ _ _ := List.not_mem_nil
  fits k hk := init_fits k (hk.trans (Nat.add_le_add_left few 1))
  terminated _ := zero_terminated

/-- A list of names that has one of them misspelt, and goes on behind the reading. -/
def exampleList : List Char := "fillseq,readrandom,fillseq100K,readsec,readseq,overwrite".toList

end MorelloWorkloads.SqliteBench
