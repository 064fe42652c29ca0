import LoadGen.Metrics

namespace LoadGen

structure ResponseCheck where
  operation : String
  percentile : String
  /-- The limit and the measured value, in the unit of response times. -/
  limit : Binary64
  actual : Binary64
  passed : Bool
  deriving DecidableEq

structure MixCheck where
  operation : String
  expected : Binary64
  actual : Binary64
  passed : Bool
  deriving DecidableEq

structure DelayCheck where
  operation : String
  /-- Mean delays in nanoseconds. -/
  targeted : Binary64
  actual : Binary64
  passed : Bool
  deriving DecidableEq

structure Compliance where
  response : List ResponseCheck
  mix : List MixCheck
  delay : List DelayCheck
  deriving DecidableEq

namespace Compliance

def passed (c : Compliance) : Bool :=
  c.response.all (·.passed) && c.mix.all (·.passed) && c.delay.all (·.passed)

end Compliance

namespace Metrics

/-- Measures a percentile of the response times against its limit. -/
def checkResponse (m : Metrics) (s : OperationStats) (label : String)
    (percentile limit : Binary64) : ResponseCheck :=
  let actual := m.responseTimeUnit.ofNanos (s.response.percentile percentile)
  ⟨s.name, label, limit, actual, decide (actual ≤ limit)⟩

/-- The checks of one operation's response times; a limit that is not positive is no limit. -/
def checkResponses (m : Metrics) (s : OperationStats) : List ResponseCheck :=
  if m.percentiles.isEmpty then
    if 0 < s.max90th then [m.checkResponse s "90th" 90 s.max90th] else []
  else
    (m.percentiles.zip s.limits).filterMap fun (percentile, limit) =>
      if 0 < limit then some (m.checkResponse s percentile.display percentile.value limit) else none

/-- The mean delay may differ from the targeted one by the deviation in percent. -/
def checkDelay? (s : OperationStats) : Option DelayCheck :=
  match s.meanTargeted?, s.meanActual? with
  | some targeted, some actual =>
    let allowed := targeted * s.deviation / 100
    some ⟨s.name, targeted, actual, decide ((actual - targeted).abs ≤ allowed)⟩
  | _, _ => none

/-- The operations whose response times and delays are checked. -/
def checked (m : Metrics) : List OperationStats :=
  m.operations.filter fun s => s.countToMetric && s.transactions.steadyState != 0

/-- The transactions of the steady state, an operation counting as often as the mix lists it. -/
def steadyOfMix (m : Metrics) : Nat :=
  total (m.expectedMix.filterMap fun (i, _) =>
    m.operations[i]?.map (·.transactions.steadyState))

def checkShare (m : Metrics) (steady : Nat) (expected : Binary64) (s : OperationStats) : MixCheck :=
  let actual := Binary64.ofNat s.transactions.steadyState / Binary64.ofNat steady
  ⟨s.name, expected, actual, decide ((actual - expected).abs * 100 ≤ m.mixDeviation)⟩

/-- The shares of the listed operations, if the steady state saw any of them. -/
def checkMix (m : Metrics) : List MixCheck :=
  let steady := m.steadyOfMix
  if steady = 0 then []
  else m.expectedMix.filterMap fun (i, expected) =>
    m.operations[i]?.map (m.checkShare steady expected)

def compliance (m : Metrics) : Compliance :=
  { response := m.checked.flatMap m.checkResponses
    mix := m.checkMix
    delay := m.checked.filterMap checkDelay? }

end Metrics

end LoadGen
