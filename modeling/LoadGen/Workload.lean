import LoadGen.Handler
import LoadGen.Mix
import LoadGen.TimeUnit

namespace LoadGen

/-- The outcome of creating a thread's instance of a workload. -/
inductive Creation (σ : Type)
  | created (state : σ)
  | failed (cause : ErrorChain)
  | panicked

/-- A hook that runs once per run, on the instance of the first thread. -/
abbrev Hook (σ : Type) := σ → σ × Ending

inductive MixDeclaration
  | flat (entries : List (String × Binary64))
  | sequence (names : List String)

/-- The declarations of a workload. Building it checks them all once, so that a run never meets a
faulty definition. -/
structure WorkloadDraft (σ : Type) where
  name : String
  create : Nat → Creation σ
  percentiles : List String
  responseTimeUnit : TimeUnit
  histogramUnit : TimeUnit
  threadPerScale : Binary64
  defaultPacing : Option Pacing
  foreground : List (OperationDeclaration × Handler σ)
  /-- Operations that run as a fixed sequence beside the foreground mix, on the same thread. -/
  background : List (OperationDeclaration × Handler σ)
  /-- None, one for all, or one for each of the background operations. -/
  backgroundPacings : List Pacing
  mix : Option MixDeclaration
  mixDeviation : Binary64
  initialDelay : Span
  backgroundInitialDelay : Span
  beforeRun : Option (Hook σ)
  afterRun : Option (Hook σ)

/-- A workload whose definition has been checked. The foreground operations come first. -/
structure Workload (σ : Type) where
  name : String
  create : Nat → Creation σ
  percentiles : List Percentile
  responseTimeUnit : TimeUnit
  histogramUnit : TimeUnit
  threadPerScale : Binary64
  operations : List Operation
  handlers : List (Handler σ)
  foregroundCount : Nat
  mix : Mix
  backgroundMix : Option Mix
  initialDelay : Pacing
  backgroundInitialDelay : Pacing
  /-- The largest limit of a response time, in its unit. -/
  largestLimit : Binary64
  beforeRun : Option (Hook σ)
  afterRun : Option (Hook σ)

namespace WorkloadDraft

variable {σ : Type}

/-- A draft with nothing declared but a name and the creation of instances. -/
def named (name : String) (create : Nat → Creation σ) : WorkloadDraft σ :=
  { name := name, create := create, percentiles := [], responseTimeUnit := .seconds,
    histogramUnit := .milliseconds, threadPerScale := 1, defaultPacing := none, foreground := [],
    background := [], backgroundPacings := [], mix := none, mixDeviation := Mix.defaultDeviation,
    initialDelay := Span.zero, backgroundInitialDelay := Span.zero, beforeRun := none,
    afterRun := none }

/-- The first name that occurs a second time, `seen` having occurred before. -/
def firstDuplicate? (seen : List String) : List String → Option String
  | [] => none
  | name :: rest => if name ∈ seen then some name else firstDuplicate? (name :: seen) rest

def checkUnits (d : WorkloadDraft σ) : Except DefinitionError Unit :=
  if d.responseTimeUnit = .nanoseconds then .error .nanosecondResponseUnit
  else if d.histogramUnit = .nanoseconds then .error .nanosecondHistogramUnit
  else if ¬ d.threadPerScale.isFinite ∨ d.threadPerScale ≤ 0 then
    .error (.threadPerScale d.threadPerScale)
  else .ok ()

def checkNames (d : WorkloadDraft σ) : Except DefinitionError Unit :=
  match firstDuplicate? [] ((d.foreground ++ d.background).map (·.1.name)) with
  | some name => .error (.duplicateOperation name)
  | none => .ok ()

def checkBackgroundPacings (d : WorkloadDraft σ) : Except DefinitionError Unit :=
  if 1 < d.backgroundPacings.length ∧ d.backgroundPacings.length ≠ d.background.length then
    .error (.backgroundTimings d.background.length d.backgroundPacings.length)
  else .ok ()

/-- The pacing given for the background operation at a place, which overrides its own. -/
def backgroundPacing? (d : WorkloadDraft σ) (i : Nat) : Option Pacing :=
  match d.backgroundPacings with
  | [] => none
  | [shared] => some shared
  | several => several[i]?

def resolveForeground (d : WorkloadDraft σ) (percentiles : List Percentile) :
    Except DefinitionError (List Operation) :=
  d.foreground.mapM fun (declaration, _) =>
    Operation.resolve declaration percentiles d.defaultPacing

def resolveBackground (d : WorkloadDraft σ) (percentiles : List Percentile) :
    Except DefinitionError (List Operation) :=
  d.background.zipIdx.mapM fun ((declaration, _), i) =>
    match d.backgroundPacing? i with
    | some pacing =>
      (Operation.resolve declaration percentiles (some pacing)).map fun operation =>
        { operation with pacing := pacing }
    | none => Operation.resolve declaration percentiles d.defaultPacing

def largest (xs : List Binary64) : Binary64 := xs.foldl Binary64.larger 0

/-- The largest limit of the operations, which has to be positive. -/
def checkLimits (percentiles : List Percentile) (operations : List Operation) :
    Except DefinitionError Binary64 :=
  if percentiles.isEmpty then
    let most := largest (operations.map (·.max90th))
    if most ≤ 0 then .error .noMax90th else .ok most
  else
    let most := largest (operations.flatMap (·.limits))
    if most ≤ 0 then .error .noPercentileLimit else .ok most

def placeOf (foreground : List Operation) (name : String) : Except DefinitionError Nat :=
  match foreground.findIdx? fun operation => operation.name = name with
  | some i => .ok i
  | none => .error (.unknownOperation name)

def resolveMix (d : WorkloadDraft σ) (foreground : List Operation) :
    Except DefinitionError Mix := do
  let mix ←
    match d.mix with
    | none => .error .missingMix
    | some (.flat entries) => do
      let places ← entries.mapM fun (name, _) => placeOf foreground name
      Mix.flat places (entries.map (·.2)) (entries.map (·.1))
    | some (.sequence names) => do
      let places ← names.mapM (placeOf foreground)
      Mix.fixedSequence places
  mix.withDeviation d.mixDeviation

/-- The background operations one after the other, if there are any. -/
def resolveBackgroundMix (foreground background : Nat) : Except DefinitionError (Option Mix) :=
  if background = 0 then .ok none
  else (Mix.fixedSequence (List.range' foreground background)).map some

/-- Checks the draft. Of several faults, the first one in the order of the checks is reported. -/
def build (d : WorkloadDraft σ) : Except DefinitionError (Workload σ) := do
  d.checkUnits
  let percentiles ← d.percentiles.mapM fun label => Percentile.read label.toList
  d.checkNames
  let foreground ← d.resolveForeground percentiles
  d.checkBackgroundPacings
  let background ← d.resolveBackground percentiles
  let operations := foreground ++ background
  let largestLimit ← checkLimits percentiles operations
  let mix ← d.resolveMix foreground
  let backgroundMix ← resolveBackgroundMix foreground.length background.length
  return {
    name := d.name
    create := d.create
    percentiles := percentiles
    responseTimeUnit := d.responseTimeUnit
    histogramUnit := d.histogramUnit
    threadPerScale := d.threadPerScale
    operations := operations
    handlers := d.foreground.map (·.2) ++ d.background.map (·.2)
    foregroundCount := foreground.length
    mix := mix
    backgroundMix := backgroundMix
    initialDelay := Pacing.initialDelay d.initialDelay
    backgroundInitialDelay := Pacing.initialDelay d.backgroundInitialDelay
    largestLimit := largestLimit
    beforeRun := d.beforeRun
    afterRun := d.afterRun }

end WorkloadDraft

namespace Workload

variable {σ : Type}

/-- The threads for a scale, at least one. -/
def threadsForScale (w : Workload σ) (scale : Nat) : Nat :=
  max (Binary64.ofNat scale * w.threadPerScale).roundWord 1

def foregroundOperations (w : Workload σ) : List Operation := w.operations.take w.foregroundCount

def backgroundOperations (w : Workload σ) : List Operation := w.operations.drop w.foregroundCount

def operationName (w : Workload σ) (i : Nat) : String := (w.operations[i]?.map (·.name)).getD ""

end Workload

end LoadGen
