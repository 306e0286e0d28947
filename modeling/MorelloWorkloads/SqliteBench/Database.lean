import MorelloWorkloads.Lib.Paths
import MorelloWorkloads.SqliteBench.Random

/-! The state of `benchmark.c`, with `benchmark_init` and `benchmark_open`. A path
has one character for each of its bytes. The `PRAGMA` statements are left out. -/
namespace MorelloWorkloads.SqliteBench
open Paths

/-- The flags that a command line can set, as far as they are read here. -/
structure Flags where
  num : ℤ
  reads : ℤ
  valueSize : ℤ
  compressionRatio : ℚ
  useExistingDb : Bool
  transaction : Bool
  db : Path

/-- What `init` sets, and the directory that `main` then chooses. -/
def init : Flags where
  num := 1000000
  reads := -1
  valueSize := 100
  compressionRatio := 1 / 2
  useExistingDb := false
  transaction := true
  db := "./".toList

/-- What reaches SQLite, and the calls of `finished_single_op`. A table is made in
a file that may be `stale`: one that was there before. -/
inductive Event where
  | createTable (stale : Bool)
  | beginTrans
  | replace (key : List Char) (value : Option (List Byte))
  | finished
  | endTrans
  deriving DecidableEq

structure Disk where
  directories : List Path
  files : List Location
  deriving DecidableEq

def Disk.opendir (disk : Disk) (d : Path) : Option (List Path) :=
  if d ≠ [] ∧ directoryOf d ∈ disk.directories then
    some ((disk.files.filter (·.directory = directoryOf d)).map (·.name))
  else none

def Disk.remove (disk : Disk) (p : Path) : Disk :=
  { disk with files := disk.files.filter (· ≠ locate p) }

/-- Opening makes the file when it is not there. -/
def Disk.create (disk : Disk) (p : Path) : Disk :=
  if locate p ∈ disk.files then disk else { disk with files := locate p :: disk.files }

structure State where
  /-- `db_` is not `NULL`. -/
  connected : Bool
  dbNum : ℕ
  num : ℤ
  reads : ℤ
  bytes : ℤ
  message : Option String
  done : ℤ
  nextReport : ℤ
  gen : RandomGenerator
  rand : Random
  disk : Disk
  trace : List Event

/-- `MAX_PATH_LEN` -/
def maxPathLen : ℕ := 1024

def startsWith (str pre : List Char) : Bool :=
  if str.length < pre.length then false else str.take pre.length == pre

def databasePrefix : Path := "dbbench_sqlite3".toList

/-- `dbbench_sqlite3-%d.db` -/
def databaseName (k : ℕ) : Path := databasePrefix ++ ['-'] ++ Nat.toDigits 10 k ++ ".db".toList

def databasePath (db : Path) (k : ℕ) : Path := db ++ databaseName k

/-- The loop over the directory; `none` is `exit(1)`. -/
def removeStale (db : Path) (names : List Path) (disk : Disk) : Option Disk :=
  names.foldlM (fun disk name =>
    if startsWith name databasePrefix then
      if (db ++ name).length ≥ maxPathLen then none else some (disk.remove (db ++ name))
    else some disk) disk

/-- What `benchmark_init` does to the directory; `none` is `exit(1)`. -/
def initDirectory (flags : Flags) (disk : Disk) : Option Disk :=
  if flags.db.length ≥ maxPathLen then none
  else do
    let names ← disk.opendir flags.db
    if flags.useExistingDb then return disk else removeStale flags.db names disk

/-- `some none` is `exit(1)`, and `none` an access out of bounds. -/
def benchmarkInit (flags : Flags) (disk : Disk) (freshRaw freshDst freshGen : Block) :
    Option (Option State) := do
  match ← initGenerator flags.compressionRatio flags.valueSize freshRaw freshDst freshGen with
  | none => return none
  | some (gen, rand) => return (initDirectory flags disk).map fun disk => {
      connected := false
      dbNum := 0
      num := flags.num
      reads := if flags.reads < 0 then flags.num else flags.reads
      bytes := 0
      message := none
      done := 0
      nextReport := 0
      gen := gen
      rand := rand
      disk := disk
      trace := [] }

/-- `none` is the failure of the assertion, or `exit(1)`. -/
def benchmarkOpen (flags : Flags) (s : State) : Option State :=
  if s.connected then none
  else if flags.db.length ≥ maxPathLen then none
  else
    let path := databasePath flags.db (s.dbNum + 1)
    if path.length ≥ maxPathLen then none
    else some { s with
      connected := true
      dbNum := s.dbNum + 1
      disk := s.disk.create path
      trace := s.trace ++ [.createTable (decide (locate path ∈ s.disk.files))] }

/-- Closing what is open and opening the next database. -/
def reopen (flags : Flags) (s : State) : Option State :=
  benchmarkOpen flags { s with connected := false }

theorem databaseName_injective : Function.Injective databaseName := by
  intro k j same
  have digits : Nat.toDigits 10 k = Nat.toDigits 10 j := by
    simpa [databaseName] using same
  rw [← Nat.ofDigitChars_ten_toDigits (n := k), digits, Nat.ofDigitChars_ten_toDigits]

theorem databaseName_plain (k : ℕ) : '/' ∉ databaseName k := by
  have digits : '/' ∉ Nat.toDigits 10 k := by
    intro slash
    have := Nat.isDigit_of_mem_toDigits (by norm_num) (by norm_num) slash
    exact absurd this (by decide)
  have first : '/' ∉ databasePrefix ++ ['-'] := by decide
  have last : '/' ∉ ".db".toList := by decide
  simp only [databaseName, List.mem_append, not_or] at first ⊢
  exact ⟨⟨first, digits⟩, last⟩

theorem databaseName_startsWith (k : ℕ) : startsWith (databaseName k) databasePrefix = true := by
  have parts : databaseName k = databasePrefix ++ (['-'] ++ Nat.toDigits 10 k ++ ".db".toList) := by
    simp only [databaseName, List.append_assoc]
  rw [startsWith, parts, List.length_append, if_neg (by omega), List.take_left]
  exact beq_self_eq_true _

theorem mem_remove {f : Location} {disk : Disk} {p : Path} :
    f ∈ (disk.remove p).files ↔ f ∈ disk.files ∧ f ≠ locate p := by
  simp [Disk.remove]

theorem mem_create {f : Location} {disk : Disk} {p : Path} :
    f ∈ (disk.create p).files ↔ f ∈ disk.files ∨ f = locate p := by
  unfold Disk.create
  split
  · rename_i there
    constructor
    · exact Or.inl
    · rintro (old | rfl)
      · exact old
      · exact there
  · rw [List.mem_cons, or_comm]

/-- The loop removes what the listed names lead to when they are appended to
the path, and nothing else. -/
theorem mem_removeStale {db : Path} {names : List Path} {disk disk' : Disk}
    (run : removeStale db names disk = some disk') (f : Location) :
    f ∈ disk'.files ↔
      f ∈ disk.files ∧ ∀ n ∈ names, startsWith n databasePrefix → f ≠ locate (db ++ n) := by
  unfold removeStale at run
  induction names generalizing disk with
  | nil =>
    obtain rfl : disk = disk' := Option.some.inj run
    simp
  | cons n ns ih =>
    rw [List.foldlM_cons] at run
    obtain ⟨mid, first, rest⟩ := Option.bind_eq_some_iff.mp run
    rw [ih rest, List.forall_mem_cons]
    by_cases stale : startsWith n databasePrefix = true
    · rw [if_pos stale] at first
      split at first
      · cases first
      · obtain rfl := Option.some.inj first
        rw [mem_remove]
        constructor
        · exact fun ⟨⟨there, other⟩, others⟩ => ⟨there, fun _ => other, others⟩
        · exact fun ⟨there, other, others⟩ => ⟨⟨there, other stale⟩, others⟩
    · rw [if_neg stale] at first
      obtain rfl := Option.some.inj first
      constructor
      · exact fun ⟨there, others⟩ => ⟨there, fun starts => absurd starts stale, others⟩
      · exact fun ⟨there, _, others⟩ => ⟨there, others⟩

theorem mem_opendir {disk : Disk} {d : Path} {names : List Path} (run : disk.opendir d = some names)
    (n : Path) : n ∈ names ↔ ∃ f ∈ disk.files, f.directory = directoryOf d ∧ f.name = n := by
  unfold Disk.opendir at run
  split at run
  · obtain rfl := Option.some.inj run
    simp [and_assoc]
  · cases run

/-- No file is where a later open would make its database. -/
def Clean (db : Path) (dbNum : ℕ) (disk : Disk) : Prop :=
  ∀ k, dbNum < k → (databasePath db k).length < maxPathLen →
    locate (databasePath db k) ∉ disk.files

/-- Opens, one after another. -/
def opens (flags : Flags) : ℕ → State → Option State
  | 0, s => some s
  | n + 1, s => do opens flags n (← reopen flags s)

theorem reopen_eq {flags : Flags} {s s' : State} (run : reopen flags s = some s') :
    (databasePath flags.db (s.dbNum + 1)).length < maxPathLen ∧
      s'.dbNum = s.dbNum + 1 ∧ s'.disk = s.disk.create (databasePath flags.db (s.dbNum + 1)) ∧
      s'.gen = s.gen ∧ s'.trace = s.trace ++
        [.createTable (decide (locate (databasePath flags.db (s.dbNum + 1)) ∈ s.disk.files))] := by
  simp only [reopen, benchmarkOpen, Bool.false_eq_true, if_false] at run
  split at run
  · cases run
  · split at run
    · cases run
    · rename_i short
      obtain rfl := Option.some.inj run
      exact ⟨not_le.mp short, rfl, rfl, rfl, rfl⟩

theorem reopen_defined {flags : Flags} {s : State}
    (short : (databasePath flags.db (s.dbNum + 1)).length < maxPathLen) :
    ∃ s', reopen flags s = some s' := by
  have db : flags.db.length < maxPathLen := by
    rw [databasePath, List.length_append] at short
    omega
  simp only [reopen, benchmarkOpen, Bool.false_eq_true, if_false]
  rw [if_neg (not_le.mpr db), if_neg (not_le.mpr short)]
  exact ⟨_, rfl⟩

/-- An open of a clean disk meets no file, and leaves it clean for the next. -/
theorem reopen_clean {flags : Flags} {s s' : State} (clean : Clean flags.db s.dbNum s.disk)
    (run : reopen flags s = some s') :
    s'.trace = s.trace ++ [.createTable false] ∧ Clean flags.db s'.dbNum s'.disk := by
  obtain ⟨short, num, disk, -, trace⟩ := reopen_eq run
  constructor
  · rw [trace, decide_eq_false (clean _ (Nat.lt_succ_self _) short)]
  · intro k later fits there
    rw [disk, mem_create] at there
    rw [num] at later
    cases there with
    | inl old =>
      exact clean k (by omega) fits old
    | inr new =>
      have := databaseName_injective
        (locate_append_injective (databaseName_plain _) (databaseName_plain _) _ new)
      omega

theorem opens_clean {flags : Flags} (n : ℕ) {s s' : State} (clean : Clean flags.db s.dbNum s.disk)
    (run : opens flags n s = some s') : s'.trace = s.trace ++ List.replicate n (.createTable false) := by
  induction n generalizing s with
  | zero =>
    obtain rfl := Option.some.inj run
    simp
  | succ n ih =>
    obtain ⟨mid, first, rest⟩ := Option.bind_eq_some_iff.mp run
    obtain ⟨trace, clean'⟩ := reopen_clean clean first
    rw [ih clean' rest, trace, List.append_assoc, List.replicate_succ]
    rfl

/-- A path that ends in a slash leads into the directory that was listed. -/
theorem locate_databasePath_slash {db : Path} (slash : db.getLast? = some '/') (k : ℕ) :
    locate (databasePath db k) = locate (db ++ ['/'] ++ databaseName k) := by
  obtain ⟨d, rfl⟩ := List.getLast?_eq_some_iff.mp slash
  have plain := databaseName_plain k
  rw [databasePath, locate_child plain, locate_child plain, directoryOf_slash]

/-- Of the places where databases are made, the loop clears those whose name
it finds in the directory. -/
theorem initDirectory_keeps_iff {flags : Flags} {disk disk' : Disk}
    (fresh : flags.useExistingDb = false) (run : initDirectory flags disk = some disk') (k : ℕ) :
    locate (databasePath flags.db k) ∈ disk'.files ↔
      locate (databasePath flags.db k) ∈ disk.files ∧
        locate (flags.db ++ ['/'] ++ databaseName k) ∉ disk.files := by
  unfold initDirectory at run
  split at run
  · cases run
  · obtain ⟨names, listed, run⟩ := Option.bind_eq_some_iff.mp run
    rw [fresh, if_neg (by decide)] at run
    have plain := databaseName_plain k
    rw [mem_removeStale run, locate_child plain]
    apply and_congr_right
    intro _
    constructor
    · intro kept there
      have name := (mem_opendir listed _).mpr ⟨_, there, rfl, rfl⟩
      exact kept _ name (databaseName_startsWith k) rfl
    · intro missing n hn _ same
      obtain ⟨f, there, directory, rfl⟩ := (mem_opendir listed n).mp hn
      have name := locate_append_injective plain f.plain flags.db same
      apply missing
      have : f = ⟨directoryOf flags.db, databaseName k, plain⟩ := by
        cases f
        simp_all
      exact this ▸ there

theorem initDirectory_clean_iff {flags : Flags} {disk disk' : Disk}
    (fresh : flags.useExistingDb = false) (run : initDirectory flags disk = some disk') :
    Clean flags.db 0 disk' ↔ flags.db.getLast? = some '/' ∨
      ∀ k, 0 < k → (databasePath flags.db k).length < maxPathLen →
        locate (databasePath flags.db k) ∈ disk.files →
          locate (flags.db ++ ['/'] ++ databaseName k) ∈ disk.files := by
  simp only [Clean, initDirectory_keeps_iff fresh run, not_and, not_not]
  constructor
  · exact Or.inr
  · rintro (slash | mirrored)
    · intro k _ _ there
      rwa [← locate_databasePath_slash slash]
    · exact mirrored

theorem benchmarkInit_eq {flags : Flags} {disk : Disk} {freshRaw freshDst freshGen : Block} {s : State}
    (run : benchmarkInit flags disk freshRaw freshDst freshGen = some (some s)) :
    initDirectory flags disk = some s.disk ∧ s.dbNum = 0 ∧ s.trace = [] := by
  obtain ⟨made, -, run⟩ := Option.bind_eq_some_iff.mp run
  cases made with
  | none => cases run
  | some made =>
    obtain ⟨disk', directory, rfl⟩ := Option.map_eq_some_iff.mp (Option.some.inj run)
    exact ⟨directory, rfl, rfl⟩

/-- After `benchmark_init` every place for a database is free, and every open of
the run makes its table in a new file, exactly when the path ends in a slash or
each database it would meet has a namesake in the directory. -/
theorem init_clean_iff {flags : Flags} {disk : Disk} {freshRaw freshDst freshGen : Block} {s : State}
    (fresh : flags.useExistingDb = false)
    (run : benchmarkInit flags disk freshRaw freshDst freshGen = some (some s)) :
    ((∀ k, 0 < k → (databasePath flags.db k).length < maxPathLen →
        locate (databasePath flags.db k) ∉ s.disk.files) ∧
      ∀ n s', opens flags n s = some s' → s'.trace = List.replicate n (.createTable false)) ↔
    flags.db.getLast? = some '/' ∨
      ∀ k, 0 < k → (databasePath flags.db k).length < maxPathLen →
        locate (databasePath flags.db k) ∈ disk.files →
          locate (flags.db ++ ['/'] ++ databaseName k) ∈ disk.files := by
  obtain ⟨directory, num, trace⟩ := benchmarkInit_eq run
  rw [← initDirectory_clean_iff fresh directory]
  constructor
  · exact fun holds => holds.1
  · intro clean
    refine ⟨clean, ?_⟩
    intro n s' run
    rw [← num] at clean
    rw [opens_clean n clean run, trace, List.nil_append]

theorem benchmarkInit_run {flags : Flags} (low : 0 ≤ flags.compressionRatio)
    (high : flags.compressionRatio ≤ 1) (nonempty : 0 < flags.valueSize)
    (divides : rawLength flags.compressionRatio flags.valueSize ∣ flags.valueSize)
    (freshRaw freshDst freshGen : Block) {disk disk' : Disk}
    (directory : initDirectory flags disk = some disk') :
    ∃ s, benchmarkInit flags disk freshRaw freshDst freshGen = some (some s) ∧
      s.disk = disk' ∧ s.dbNum = 0 ∧ s.trace = [] ∧ s.gen.Ready := by
  obtain ⟨gen, rand, made, ready⟩ :=
    initGenerator_run low high nonempty divides freshRaw freshDst freshGen
  rw [benchmarkInit, made]
  simp only [Option.bind_eq_bind, Option.bind_some, directory, Option.map_some, Option.pure_def]
  exact ⟨_, rfl, rfl, rfl, rfl, ready⟩

theorem init_divides : rawLength init.compressionRatio init.valueSize ∣ init.valueSize := by
  rw [init, rawLength_half]
  norm_num

/-- Other flags than those of the generator do not matter to it. -/
theorem benchmarkInit_default (flags : Flags) (ratio : flags.compressionRatio = init.compressionRatio)
    (size : flags.valueSize = init.valueSize) {disk disk' : Disk}
    (directory : initDirectory flags disk = some disk') :
    ∃ s, benchmarkInit flags disk (fun _ => 0) (fun _ => 0) (fun _ => 0) = some (some s) ∧
      s.disk = disk' ∧ s.dbNum = 0 ∧ s.trace = [] ∧ s.gen.Ready := by
  apply benchmarkInit_run _ _ _ _ _ _ _ directory
  · rw [ratio]
    norm_num [init]
  · rw [ratio]
    norm_num [init]
  · rw [size]
    norm_num [init]
  · rw [ratio, size]
    exact init_divides

/-- The database of an earlier run in the default directory. -/
def usedDisk : Disk where
  directories := [".".toList]
  files := [locate "./dbbench_sqlite3-1.db".toList]

theorem init_clean_default : ∃ s, benchmarkInit init usedDisk (fun _ => 0) (fun _ => 0) (fun _ => 0) =
    some (some s) ∧ ∀ k, 0 < k → (databasePath init.db k).length < maxPathLen →
      locate (databasePath init.db k) ∉ s.disk.files := by
  obtain ⟨s, run, -⟩ := benchmarkInit_default init rfl rfl
    (show initDirectory init usedDisk = some ⟨usedDisk.directories, []⟩ by decide)
  exact ⟨s, run, ((init_clean_iff rfl run).mpr (Or.inl (by decide))).1⟩

def unslashed : Flags := { init with db := "/tmp/x".toList }

/-- The database of an earlier run with these flags. -/
def besideDisk : Disk where
  directories := [unslashed.db]
  files := [locate "/tmp/xdbbench_sqlite3-1.db".toList]

/-- Without the slash the old database lies beside the directory: it stays, and
the first open meets it. -/
theorem init_stale : ∃ s s',
    benchmarkInit unslashed besideDisk (fun _ => 0) (fun _ => 0) (fun _ => 0) = some (some s) ∧
    locate (databasePath unslashed.db 1) ∈ s.disk.files ∧
    opens unslashed 1 s = some s' ∧ s'.trace = [.createTable true] := by
  obtain ⟨s, run, disk, num, trace, -⟩ := benchmarkInit_default unslashed rfl rfl
    (show initDirectory unslashed besideDisk = some besideDisk by decide)
  have there : locate (databasePath unslashed.db 1) ∈ s.disk.files := by
    rw [disk]
    decide
  have short : (databasePath unslashed.db (s.dbNum + 1)).length < maxPathLen := by
    rw [num]
    decide
  obtain ⟨s', opened⟩ := reopen_defined short
  refine ⟨s, s', run, there, ?_, ?_⟩
  · rw [opens, opened]
    rfl
  · obtain ⟨-, -, -, -, made⟩ := reopen_eq opened
    rw [num, Nat.zero_add] at made
    rw [made, trace, List.nil_append, decide_eq_true there]

end MorelloWorkloads.SqliteBench
