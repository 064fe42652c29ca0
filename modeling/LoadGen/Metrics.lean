import LoadGen.Event
import LoadGen.Fault
import LoadGen.Histogram
import LoadGen.Workload

namespace LoadGen

structure PhaseCounts where
  rampUp : Nat
  steadyState : Nat
  rampDown : Nat
  deriving DecidableEq

namespace PhaseCounts

def zero : PhaseCounts := ⟨0, 0, 0⟩

def add (c : PhaseCounts) : Phase → PhaseCounts
  | .rampUp => { c with rampUp := c.rampUp + 1 }
  | .steadyState => { c with steadyState := c.steadyState + 1 }
  | .rampDown => { c with rampDown := c.rampDown + 1 }

def get (c : PhaseCounts) : Phase → Nat
  | .rampUp => c.rampUp
  | .steadyState => c.steadyState
  | .rampDown => c.rampDown

def total (c : PhaseCounts) : Nat := c.rampUp + c.steadyState + c.rampDown

end PhaseCounts

/-- What one thread has seen of one operation. -/
structure OperationStats where
  name : String
  countToMetric : Bool
  limits : List Binary64
  max90th : Binary64
  deviation : Binary64
  transactions : PhaseCounts
  errors : PhaseCounts
  /-- Response times of the steady state in nanoseconds. -/
  response : Histogram
  targetedDelay : Histogram
  actualDelay : Histogram
  targetedSum : Nat
  actualSum : Nat
  deriving DecidableEq

namespace OperationStats

/-- The mean of values with the given sum, if there are any. -/
def mean? (sum count : Nat) : Option Binary64 :=
  if count = 0 then none else some (Binary64.ofNat sum / Binary64.ofNat count)

/-- The mean targeted delay in nanoseconds. -/
def meanTargeted? (s : OperationStats) : Option Binary64 :=
  mean? s.targetedSum s.targetedDelay.size

/-- The mean observed delay in nanoseconds. -/
def meanActual? (s : OperationStats) : Option Binary64 := mean? s.actualSum s.actualDelay.size

def recordTransaction (s : OperationStats) (sample : Sample) : OperationStats :=
  { s with
    transactions := s.transactions.add sample.phase
    response :=
      if sample.phase = .steadyState then s.response.record sample.responseTime else s.response }

def recordError (s : OperationStats) (sample : Sample) : OperationStats :=
  { s with errors := s.errors.add sample.phase }

/-- Delays count in the steady state alone, and negative ones as none. -/
def recordDelay (s : OperationStats) (sample : DelaySample) : OperationStats :=
  if sample.phase = .steadyState then
    { s with
      targetedDelay := s.targetedDelay.record sample.targeted.toNat
      actualDelay := s.actualDelay.record sample.actual.toNat
      targetedSum := s.targetedSum + sample.targeted.toNat
      actualSum := s.actualSum + sample.actual.toNat }
  else s

/-- The range of the histograms of delays. -/
def delayRange (pacing : Pacing) : Except (Fault Histogram.RangeError) Nat :=
  match pacing.histogramMost? with
  | none => .error .overflow
  | some most => .ok (max most.wordNanos 2)

def emptyHistogram (low high : Nat) : Except (Fault Histogram.RangeError) Histogram :=
  match Histogram.empty low high with
  | .ok h => .ok h
  | .error e => refuse e

/-- The statistics of an operation before any sample, its response times being told apart by
`resolution` up to `most`. -/
def empty (resolution most : Nat) (operation : Operation) :
    Except (Fault Histogram.RangeError) OperationStats := do
  let longest ← delayRange operation.pacing
  let response ← emptyHistogram resolution most
  let delay ← emptyHistogram 1 longest
  return {
    name := operation.name
    countToMetric := operation.countToMetric
    limits := operation.limits
    max90th := operation.max90th
    deviation := operation.pacing.deviation
    transactions := PhaseCounts.zero
    errors := PhaseCounts.zero
    response := response
    targetedDelay := delay
    actualDelay := delay
    targetedSum := 0
    actualSum := 0 }

end OperationStats

/-- The statistics of one thread, with what its results are measured against. -/
structure Metrics where
  thread : Nat
  percentiles : List Percentile
  responseTimeUnit : TimeUnit
  expectedMix : List (Nat × Binary64)
  mixDeviation : Binary64
  /-- The statistics of the operations by their place in the workload. -/
  operations : List OperationStats
  deriving DecidableEq

namespace Metrics

variable {σ : Type}

/-- Response times are told apart up to this multiple of the largest limit. -/
def headroom : Binary64 := 10

/-- The greatest response time that the histograms of a workload tell apart. -/
def responseMost (w : Workload σ) : Nat :=
  max (w.responseTimeUnit.toSpan (w.largestLimit * headroom)).wordNanos (2 * w.histogramUnit.nanos)

/-- The metrics of a thread before any sample. -/
def empty (w : Workload σ) (thread : Nat) : Except (Fault Histogram.RangeError) Metrics := do
  let operations ←
    w.operations.mapM (OperationStats.empty w.histogramUnit.nanos (responseMost w))
  return {
    thread := thread
    percentiles := w.percentiles
    responseTimeUnit := w.responseTimeUnit
    expectedMix := w.mix.expectedShares
    mixDeviation := w.mix.deviation
    operations := operations }

/-- Takes in an event. Samples of operations that the workload does not have are ignored, and so are
all events but samples. -/
def record (m : Metrics) : Event → Metrics
  | .transaction sample =>
    { m with operations := m.operations.modify sample.operation (·.recordTransaction sample) }
  | .error sample =>
    { m with operations := m.operations.modify sample.operation (·.recordError sample) }
  | .delay sample =>
    { m with operations := m.operations.modify sample.operation (·.recordDelay sample) }
  | _ => m

def recordAll (m : Metrics) (events : List Event) : Metrics := events.foldl record m

def operation? (m : Metrics) (name : String) : Option OperationStats :=
  m.operations.find? fun s => s.name = name

def totalTransactions (m : Metrics) : Nat := total (m.operations.map (·.transactions.total))

def steadyTransactions (m : Metrics) : Nat := total (m.operations.map (·.transactions.steadyState))

def totalErrors (m : Metrics) : Nat := total (m.operations.map (·.errors.total))

end Metrics

end LoadGen
