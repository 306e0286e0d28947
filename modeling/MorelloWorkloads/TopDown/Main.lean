import MorelloWorkloads.TopDown.Analysis
import MorelloWorkloads.Lib.PyLiteral

/-! The loop of `main`: three slots for each benchmark, their metrics in fifteen
lists that outlive the benchmark, and a record in the output file. -/
namespace MorelloWorkloads.TopDown
open PyLiteral

/-! ## `diagnose_warnings` -/

/-- The findings that are printed, without the numbers in them. -/
inductive Diagnostic
  | cpuCyclesNotPositive
  | instRetiredNotPositive
  | stallsExceedCycles
  | ipcAboveMaximum
  | ipcVeryLow
  | mixExceeds
  | mixCoverageLow
  | memoryIntensive
  | coreIntensive
  | balanced
  | memoryStallsExceed
  | memoryStallsSmall
  | ratiosDiffer (latencyLarger : Bool)
  | ratiosConsistent
  | topLevelExceeds
  deriving DecidableEq

def note (found : Prop) [Decidable found] (d : Diagnostic) : List Diagnostic := if found then [d] else []

/-- "INSTRUCTION MIX ANALYSIS" -/
def diagnoseMix (c : Counters) : Except PyError (List Diagnostic) := do
  if c.instSpec > 0 then
    let memInstRatio ← div (c.ldSpec + c.stSpec) c.instSpec
    let coreInstRatio ← div c.dpSpec c.instSpec
    let totalInstRatio := memInstRatio + coreInstRatio
    return (if totalInstRatio > 1 then [.mixExceeds] else note (totalInstRatio < 0.8) .mixCoverageLow) ++
      [if memInstRatio ≥ 0.6 then .memoryIntensive
        else if coreInstRatio ≥ 0.6 then .coreIntensive else .balanced]
  else return []

/-- "CROSS-VALIDATION" -/
def crossValidate (c : Counters) (memStallCycles : ℚ) : Except PyError (List Diagnostic) := do
  if c.instSpec > 0 ∧ c.stallBackend > 0 then
    let latencyMemoryRatio ← div memStallCycles c.stallBackend
    let instructionMemoryRatio ← div (c.ldSpec + c.stSpec) c.instSpec
    let ratioDiff := |latencyMemoryRatio - instructionMemoryRatio|
    return [if ratioDiff > 0.3 then .ratiosDiffer (latencyMemoryRatio > instructionMemoryRatio)
      else .ratiosConsistent]
  else return []

/-- Printed only: "Rough estimate". -/
def l1MissRate (c : Counters) : Except PyError ℚ :=
  if c.l1dCacheRefill > 0 then div c.l1dCacheRefill (c.l1dCacheRefill + 1000) else .ok 0

def diagnoseWarnings (c : Counters) : Except PyError (List Diagnostic) := do
  let validity := note (c.cpuCycles ≤ 0) .cpuCyclesNotPositive ++
    note (c.instRetired ≤ 0) .instRetiredNotPositive ++
    note (c.stallFrontend + c.stallBackend > c.cpuCycles) .stallsExceedCycles
  -- after its error on `cpu_cycles` the source goes on to divide by it
  let ipc ← div c.instRetired c.cpuCycles
  let mix ← diagnoseMix c
  let memStallCycles := c.l1dCacheRefill * l1Lat + c.l2dCacheRefill * l2Lat + c.llCacheMissRd * llLat
  let stalls := if memStallCycles > c.stallBackend then [.memoryStallsExceed]
    else note (memStallCycles < c.stallBackend * 0.1) .memoryStallsSmall
  let cross ← crossValidate c memStallCycles
  let _ ← l1MissRate c
  let retiring ← div c.instRetired (c.cpuCycles * 4)
  let frontendBound ← div c.stallFrontend c.cpuCycles
  let backendBound ← div c.stallBackend c.cpuCycles
  return validity ++ note (ipc > 4) .ipcAboveMaximum ++ note (ipc < 0.1) .ipcVeryLow ++ mix ++ stalls ++
    cross ++ note (retiring + frontendBound + backendBound > 1) .topLevelExceeds

/-! ## The loop -/

/-- One entry of the input: `metrics[..][i]` are the counters of slot `i`. -/
structure Benchmark where
  name : List Char
  slots : Fin 3 → Counters

/-- In the order of the tuple that `top_down_analysis` returns. -/
def Metrics.toList (m : Metrics) : List ℚ :=
  [m.retiring, m.frontendBound, m.backendBound, m.badSpeculation, m.memoryBound, m.coreBound, m.l1Bound,
    m.l2Bound, m.extMemBound, m.ipc, m.capLoadDensity, m.capStoreDensity, m.capTrafficShare,
    m.capTagOverhead, m.memIntensity]

def titles : List (List Char) :=
  ["Retiring", "Frontend_Bound", "Backend_Bound", "Bad_Speculation", "Memory_Bound", "Core_Bound",
    "L1_Bound", "L2_Bound", "ExtMem_Bound", "IPC", "Cap_Load_Density", "Cap_Store_Density",
    "Cap_Traffic_Share", "Cap_Tag_Overhead", "Mem_Intensity"].map String.toList

/-- What the checks of a benchmark's first slot have found. -/
structure Report where
  isValid : Bool
  allValid : Bool
  diagnostics : List Diagnostic

structure State where
  /-- `Retiring` to `Mem_Intensity`, each with a place for every slot. -/
  columns : List (List ℚ)
  reports : List Report
  file : List (Symbol (List ℚ))

/-- `(Retiring[i], .., Mem_Intensity[i]) = ..` -/
def store (columns : List (List ℚ)) (i : ℕ) (m : Metrics) : List (List ℚ) :=
  List.zipWith (fun column x => column.set i x) columns m.toList

variable (round : ℚ → ℚ)

/-- "cut to three decimal places" -/
def cut (columns : List (List ℚ)) : List (List ℚ) := columns.map fun column => column.map round

def checkSlot (c : Counters) (m : Metrics) : Except PyError Report := do
  let isValid := validateTopDownAnalysis m.toBounds
  let allValid := verifyMathematicalConsistency m.toBounds
  return { isValid, allValid, diagnostics := ← diagnoseWarnings c }

/-- "Only validate first iteration to avoid spam" -/
def slotReports (c : Counters) (i : Fin 3) (m : Metrics) : Except PyError (List Report) :=
  if i = 0 then (checkSlot c m).map ([·]) else .ok []

def analyseSlot (b : Benchmark) (s : State) (i : Fin 3) : Except PyError State := do
  let m ← topDownAnalysis (b.slots i)
  let reports ← slotReports (b.slots i) i m
  return { s with columns := cut round (store s.columns i m), reports := s.reports ++ reports }

def line (s : List Char) : List (Symbol (List ℚ)) := chars (s ++ ['\n'])

/-- The lines of a record behind the one that opens it. -/
def recordBody (columns : List (List ℚ)) : List (Symbol (List ℚ)) :=
  (titles.zip columns).flatMap (fun (title, column) =>
    chars ([' ', ' ', '\''] ++ title ++ ['\'', ':', ' ']) ++ .value column :: line [',']) ++
  line ['}', ',']

def record (name : List Char) (columns : List (List ℚ)) : List (Symbol (List ℚ)) :=
  line (['\''] ++ name ++ ['\'', ':', ' ', '{']) ++ recordBody columns

def analyseBenchmark (s : State) (b : Benchmark) : Except PyError State := do
  let s ← [0, 1, 2].foldlM (analyseSlot round b) s
  return { s with file := s.file ++ record b.name s.columns }

/-- With what the script writes to the file before and after it. -/
def main (results : List Benchmark) : Except PyError State := do
  let s ← results.foldlM (analyseBenchmark round) ⟨List.replicate 15 [0, 0, 0], [], line ['{']⟩
  return { s with file := s.file ++ line ['}'] }

/-! ## What a record is to hold -/

/-- The fields in the order of `Metrics.toList` and of `titles`. -/
def Metrics.fields : List (Metrics → ℚ) :=
  [fun m => m.retiring, fun m => m.frontendBound, fun m => m.backendBound, fun m => m.badSpeculation,
    fun m => m.memoryBound, fun m => m.coreBound, fun m => m.l1Bound, fun m => m.l2Bound,
    fun m => m.extMemBound, Metrics.ipc, Metrics.capLoadDensity, Metrics.capStoreDensity,
    Metrics.capTrafficShare, Metrics.capTagOverhead, Metrics.memIntensity]

/-- Each metric of each slot, rounded once. -/
def rounded (own : Fin 3 → Metrics) : List (List ℚ) :=
  Metrics.fields.map fun field => [round (field (own 0)), round (field (own 1)), round (field (own 2))]

end MorelloWorkloads.TopDown
