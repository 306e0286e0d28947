import Mathlib.Data.Rat.Defs
import Mathlib.Algebra.Order.Ring.Rat
import Mathlib.Tactic.Common

/-! `top-down-analysis.py` over exact rationals. Printing is left out; nothing
a function returns depends on what it prints. -/
namespace MorelloWorkloads.TopDown

inductive PyError where
  | zeroDivision
  deriving DecidableEq, Repr

/-- Python's `/`. -/
def div (a b : ℚ) : Except PyError ℚ := if b = 0 then .error .zeroDivision else .ok (a / b)

/-- The parameters of `top_down_analysis`, in order. -/
structure Counters where
  cpuCycles : ℚ
  instRetired : ℚ
  stallFrontend : ℚ
  stallBackend : ℚ
  l1dCacheRefill : ℚ
  l2dCacheRefill : ℚ
  llCacheMissRd : ℚ
  memAccessRd : ℚ
  memAccessWr : ℚ
  instSpec : ℚ
  ldSpec : ℚ
  stSpec : ℚ
  dpSpec : ℚ
  aseSpec : ℚ
  brIndirectSpec : ℚ
  brReturnSpec : ℚ
  brImmedSpec : ℚ
  vfpSpec : ℚ
  memAccessRdCtag : ℚ
  memAccessWrCtag : ℚ
  capMemAccessRd : ℚ
  capMemAccessWr : ℚ
  deriving DecidableEq, Repr

/-- The nine metrics the two checkers take. -/
structure Bounds where
  retiring : ℚ
  frontendBound : ℚ
  backendBound : ℚ
  badSpeculation : ℚ
  memoryBound : ℚ
  coreBound : ℚ
  l1Bound : ℚ
  l2Bound : ℚ
  extMemBound : ℚ
  deriving DecidableEq, Repr

/-- What `top_down_analysis` returns. -/
structure Metrics extends Bounds where
  ipc : ℚ
  capLoadDensity : ℚ
  capStoreDensity : ℚ
  capTrafficShare : ℚ
  capTagOverhead : ℚ
  memIntensity : ℚ
  deriving DecidableEq, Repr

/-- `[0.0] * 15` -/
def Metrics.zero : Metrics := ⟨⟨0, 0, 0, 0, 0, 0, 0, 0, 0⟩, 0, 0, 0, 0, 0, 0⟩

def l1Lat : ℚ := 2
def l2Lat : ℚ := 6
def llLat : ℚ := 50

/-- The nine `*_spec` counters, in the order of the denominator of `Retiring`. -/
def Counters.specs (c : Counters) : List ℚ :=
  [c.instSpec, c.ldSpec, c.stSpec, c.dpSpec, c.aseSpec, c.brIndirectSpec, c.brReturnSpec,
    c.brImmedSpec, c.vfpSpec]

def Counters.specTotal (c : Counters) : ℚ :=
  c.instSpec + c.ldSpec + c.stSpec + c.dpSpec + c.aseSpec + c.brIndirectSpec + c.brReturnSpec +
    c.brImmedSpec + c.vfpSpec

/-- "Negative stall counters detected, clamping to 0" -/
def Counters.clampStalls (c : Counters) : Counters :=
  if c.stallFrontend < 0 ∨ c.stallBackend < 0 then
    { c with stallFrontend := max 0 c.stallFrontend, stallBackend := max 0 c.stallBackend }
  else c

/-! ## First level -/

structure FirstLevel where
  retiring : ℚ
  frontendBound : ℚ
  backendBound : ℚ
  badSpeculation : ℚ

def firstLevel (c : Counters) : Except PyError FirstLevel := do
  let retiring ← div c.instSpec c.specTotal
  let frontendBound ← div c.stallFrontend c.cpuCycles
  let backendBound ← div c.stallBackend c.cpuCycles
  let badSpeculation := max 0 (1 - (retiring + frontendBound + backendBound))
  return ⟨retiring, frontendBound, backendBound, badSpeculation⟩

/-! ## Second level: memory and core share of the backend -/

def memStallCycles (c : Counters) : ℚ :=
  let cycles := c.l1dCacheRefill * l1Lat + c.l2dCacheRefill * l2Lat + c.llCacheMissRd * llLat
  if cycles < 0 then 0 else cycles

/-- The mix ratios, normalized when they sum to more than 1. -/
def mixRatios (c : Counters) : Except PyError (ℚ × ℚ) := do
  let memInstRatio ← div (c.ldSpec + c.stSpec) c.instSpec
  let coreInstRatio ← div c.dpSpec c.instSpec
  let totalInstRatio := memInstRatio + coreInstRatio
  if totalInstRatio > 1 then
    return (← div memInstRatio totalInstRatio, ← div coreInstRatio totalInstRatio)
  else return (memInstRatio, coreInstRatio)

/-- "Normalize to ensure they sum correctly", when the parts miss the whole by
more than 0.001. -/
def renormalize (backendBound memoryBound coreBound : ℚ) : Except PyError (ℚ × ℚ) := do
  if |(memoryBound + coreBound) - backendBound| > 0.001 then
    let totalBackend := memoryBound + coreBound
    if totalBackend > 0 then
      return (← div (memoryBound * backendBound) totalBackend,
        ← div (coreBound * backendBound) totalBackend)
    else return (0, backendBound)
  else return (memoryBound, coreBound)

def instructionMixSplit (c : Counters) (backendBound : ℚ) : Except PyError (ℚ × ℚ) := do
  let (memInstRatio, coreInstRatio) ← mixRatios c
  if c.stallBackend > 0 then
    renormalize backendBound (backendBound * memInstRatio) (backendBound * coreInstRatio)
  else renormalize backendBound 0 backendBound

def latencySplit (c : Counters) (backendBound : ℚ) : Except PyError (ℚ × ℚ) := do
  if c.stallBackend > 0 then
    let memoryRatio ← div (memStallCycles c) c.stallBackend
    if memoryRatio ≥ 1 then return (backendBound, 0)
    else if memoryRatio ≥ 0.5 then
      return (backendBound * memoryRatio, backendBound - backendBound * memoryRatio)
    else
      let memoryBound := backendBound * min memoryRatio 0.8
      return (memoryBound, backendBound - memoryBound)
  else return (0, backendBound)

def backendSplit (c : Counters) (backendBound : ℚ) : Except PyError (ℚ × ℚ) :=
  if c.instSpec > 0 then instructionMixSplit c backendBound else latencySplit c backendBound

/-! ## Third level: cache levels -/

structure CacheStalls where
  l1 : ℚ
  l2 : ℚ
  ll : ℚ

def cacheStalls (c : Counters) : CacheStalls :=
  let l1 := c.l1dCacheRefill * l1Lat
  let l2 := c.l2dCacheRefill * l2Lat
  let ll := c.llCacheMissRd * llLat
  if l1 < 0 ∨ l2 < 0 ∨ ll < 0 then ⟨max 0 l1, max 0 l2, max 0 ll⟩ else ⟨l1, l2, ll⟩

/-- `L1_Bound` and `L2_Bound`. -/
def cacheBounds (c : Counters) (memoryBound : ℚ) : Except PyError (ℚ × ℚ) := do
  if memStallCycles c > 0 ∧ memoryBound > 0 then
    return (memoryBound * (← div (cacheStalls c).l1 (memStallCycles c)),
      memoryBound * (← div (cacheStalls c).l2 (memStallCycles c)))
  else return (0, 0)

/-! ## CHERI metrics -/

/-- Negative speculative and access counts are clamped before the ratios. -/
def Counters.clampAccesses (c : Counters) : Counters :=
  let c := if c.ldSpec < 0 ∨ c.stSpec < 0 ∨ c.instSpec < 0 then
    { c with ldSpec := max 0 c.ldSpec, stSpec := max 0 c.stSpec, instSpec := max 0 c.instSpec }
  else c
  if c.memAccessRd < 0 ∨ c.memAccessWr < 0 then
    { c with memAccessRd := max 0 c.memAccessRd, memAccessWr := max 0 c.memAccessWr }
  else c

/-- `a / b if b > 0 else 0.0` -/
def ratioOrZero (a b : ℚ) : Except PyError ℚ := if b > 0 then div a b else .ok 0

structure CheriMetrics where
  capLoadDensity : ℚ
  capStoreDensity : ℚ
  capTrafficShare : ℚ
  capTagOverhead : ℚ
  memIntensity : ℚ

def cheriMetrics (c : Counters) : Except PyError CheriMetrics := do
  let totalMemAccess := c.memAccessRd + c.memAccessWr
  return {
    capLoadDensity := ← ratioOrZero c.capMemAccessRd c.ldSpec
    capStoreDensity := ← ratioOrZero c.capMemAccessWr c.stSpec
    capTrafficShare := ← ratioOrZero (c.capMemAccessRd + c.capMemAccessWr) totalMemAccess
    capTagOverhead := ← ratioOrZero (c.memAccessRdCtag + c.memAccessWrCtag) totalMemAccess
    memIntensity := ← ratioOrZero (c.ldSpec + c.stSpec) c.instSpec }

def topDownAnalysis (c : Counters) : Except PyError Metrics := do
  if c.cpuCycles ≤ 0 ∨ c.instRetired ≤ 0 then return .zero
  let c := c.clampStalls
  let ipc ← div c.instRetired c.cpuCycles
  let top ← firstLevel c
  let (memoryBound, coreBound) ← backendSplit c top.backendBound
  let (l1Bound, l2Bound) ← cacheBounds c memoryBound
  let extMemBound := max 0 (memoryBound - (l1Bound + l2Bound))
  let cheri ← cheriMetrics c.clampAccesses
  return {
    retiring := top.retiring
    frontendBound := top.frontendBound
    backendBound := top.backendBound
    badSpeculation := top.badSpeculation
    memoryBound, coreBound, l1Bound, l2Bound, extMemBound, ipc
    capLoadDensity := cheri.capLoadDensity
    capStoreDensity := cheri.capStoreDensity
    capTrafficShare := cheri.capTrafficShare
    capTagOverhead := cheri.capTagOverhead
    memIntensity := cheri.memIntensity }

/-! ## The self-checks -/

/-- `metrics`, as both checkers list it. -/
def Bounds.metrics (b : Bounds) : List ℚ :=
  [b.retiring, b.frontendBound, b.backendBound, b.badSpeculation, b.memoryBound, b.coreBound,
    b.l1Bound, b.l2Bound, b.extMemBound]

/-- A checker's flag after one more test: cleared by a failing one. -/
def fail (flag : Bool) (failed : Prop) [Decidable failed] : Bool := if failed then false else flag

def validateTopDownAnalysis (b : Bounds) : Bool :=
  let isValid := true
  let topLevelSum := b.retiring + b.frontendBound + b.backendBound + b.badSpeculation
  let isValid := fail isValid (|topLevelSum - 1| > 0.01)
  let backendSum := b.memoryBound + b.coreBound
  let isValid := fail isValid (|backendSum - b.backendBound| > 0.01)
  let memorySum := b.l1Bound + b.l2Bound + b.extMemBound
  let isValid := fail isValid (|memorySum - b.memoryBound| > 0.01)
  b.metrics.foldl (fun isValid metric => fail isValid (metric < -0.001)) isValid

def verifyMathematicalConsistency (b : Bounds) : Bool :=
  let allValid := true
  let topSum := b.retiring + b.frontendBound + b.backendBound + b.badSpeculation
  let allValid := fail allValid (¬ |topSum - 1| ≤ 0.001)
  let backendSum := b.memoryBound + b.coreBound
  let allValid := fail allValid (¬ |backendSum - b.backendBound| ≤ 0.001)
  let memorySum := b.l1Bound + b.l2Bound + b.extMemBound
  let allValid := fail allValid (¬ |memorySum - b.memoryBound| ≤ 0.001)
  let allValid :=
    b.metrics.foldl (fun allValid metric => fail allValid (¬ metric ≥ -0.001)) allValid
  let allValid := fail allValid (b.retiring > 1)
  fail allValid (b.memoryBound > b.backendBound + 0.001)

end MorelloWorkloads.TopDown
