import LoadGen.DefinitionError
import LoadGen.Random.Real
import LoadGen.Span

namespace LoadGen

/-- Where a delay is measured from: the previous invocation's start, or its end. -/
inductive PacingBasis
  | cycleTime
  | thinkTime
  deriving DecidableEq

/-- A distribution as it is declared, in milliseconds. -/
inductive PacingDeclaration
  | fixed (time : Binary64)
  | uniform (least most : Binary64)
  /-- Without a bound, the delays are cut off at five times the mean. -/
  | exponential (mean : Binary64) (most : Option Binary64)

inductive PacingShape
  | fixed (time : Span)
  | uniform (least most : Span)
  | exponential (mean most : Span)
  deriving DecidableEq

/-- A distribution of delays with its basis, and the deviation in percent that the observed delays
may show. -/
structure Pacing where
  shape : PacingShape
  basis : PacingBasis
  deviation : Binary64
  deriving DecidableEq

namespace Pacing

def defaultDeviation : Binary64 := 5

/-- A declared count of milliseconds, to the nearest nanosecond. -/
def millis (field : String) (x : Binary64) : Except DefinitionError Span :=
  if ¬ x.isFinite then .error (.nonFinite field x)
  else if x < 0 then .error (.negativeBound field x)
  else .ok ⟨(x * 1000000).roundWord⟩

/-- Checks a declared distribution, its bounds in the order they are declared. -/
def declaredShape : PacingDeclaration → Except DefinitionError PacingShape
  | .fixed time => do
    let time ← millis "cycle_time" time
    return .fixed time
  | .uniform least most => do
    let low ← millis "cycle_min" least
    let high ← millis "cycle_max" most
    if high.nanos < low.nanos then throw (.invertedBounds least most)
    return .uniform low high
  | .exponential mean most => do
    let center ← millis "cycle_mean" mean
    let high ←
      match most with
      | some most => millis "cycle_max" most
      | none => pure ⟨center.nanos * 5⟩
    if high.nanos < center.nanos then throw (.invertedBounds mean (most.getD 0))
    return .exponential center high

/-- Checks a declaration. A faulty deviation is reported before a fault of the distribution. -/
def declared (declaration : PacingDeclaration) (basis : PacingBasis) (deviation : Binary64) :
    Except DefinitionError Pacing :=
  if isDeviation deviation then
    (declaredShape declaration).map fun shape => ⟨shape, basis, deviation⟩
  else .error (.deviation deviation)

/-- The same think time after every operation. -/
def fixed (time : Span) : Pacing := ⟨.fixed time, .thinkTime, defaultDeviation⟩

/-- The delay before the first operation, uniform up to a bound. -/
def initialDelay (most : Span) : Pacing :=
  ⟨if most.nanos = 0 then .fixed Span.zero else .uniform Span.zero most, .cycleTime, 0⟩

variable {ρ : Type} [WordSource ρ]

/-- Draws a delay. A distribution with a single value takes no word. -/
def delay (p : Pacing) (r : ρ) : Span × ρ :=
  match p.shape with
  | .fixed time => (time, r)
  | .uniform least most =>
    if least = most then (least, r)
    else
      let (nanos, r) := Random.between least.wordNanos most.wordNanos r
      (⟨nanos⟩, r)
  | .exponential mean most =>
    if mean.nanos = 0 then (Span.zero, r)
    else
      let (x, r) := Random.exponential (Binary64.ofNat mean.nanos) r
      (⟨((x.smaller (Binary64.ofNat most.nanos)).larger 0).toWord⟩, r)

/-- Draws a delay as a difference of clock readings. -/
def delayStamp (p : Pacing) (r : ρ) : Stamp × ρ :=
  let (span, r) := p.delay r
  (Stamp.ofSpan span, r)

/-- The longest delay that the histograms of delays tell apart, unless it is too long for a span. -/
def histogramMost? (p : Pacing) : Option Span :=
  match p.shape with
  | .fixed time => time.times? 2
  | .uniform _ most | .exponential _ most => some most

end Pacing

end LoadGen
