import LoadGen.Arguments
import LoadGen.Random.ChaCha
import LoadGen.Workload

namespace LoadGen

/-- One visitor's instance of the shop. -/
structure Shop where
  random : ChaCha
  serviceTime : Span
  errorRate : Binary64

/-- Why the shop cannot be set up. -/
inductive ShopError
  | errorRate (rate : Binary64)
  | pacing (e : DefinitionError)
  | definition (e : DefinitionError)
  deriving DecidableEq

def ShopError.chain : ShopError → ErrorChain
  | errorRate rate => .plain ("Error rate must be within [0, 1], got " ++ rate.text)
  | pacing e => .plain e.message
  | definition e => (ErrorChain.plain e.message).inContext "Invalid shop driver definition"

namespace Shop

/-- Takes the service time and then fails with the chance of an error. Without such a chance no
word is drawn. -/
def serve (shop : Shop) (operation : String) (next : Shop → Behaviour Shop) : Behaviour Shop :=
  .calls (.sleep shop.serviceTime) fun _ =>
    if 0 < shop.errorRate then
      let (failed, random) := Random.chance shop.errorRate shop.random
      let shop := { shop with random := random }
      if failed then .fails shop (.plain ("simulated " ++ operation ++ " timeout")) else next shop
    else next shop

def browse : Handler Shop := fun shop => shop.serve "browse" .succeeds

def search : Handler Shop := fun shop => shop.serve "search" .succeeds

/-- Captures its own times and takes a pause of the visitor out of the response time. -/
def purchase : Handler Shop := fun shop =>
  .calls .recordTime fun
    | .cancelled => .fails shop .aborted
    | .reached => shop.serve "purchase" fun shop =>
      let pause := shop.serviceTime.half
      .calls (.sleep pause) fun _ =>
      .calls (.addPause (Stamp.ofSpan pause)) fun _ =>
      .calls .recordTime fun
        | .cancelled => .fails shop .aborted
        | .reached => .succeeds shop

def heartbeat : Handler Shop := fun shop => .succeeds shop

/-- The pacing of the visitors: exponential think times, or none at all. -/
def pacing (thinkTime : Span) : Except DefinitionError Pacing :=
  if thinkTime.nanos = 0 then .ok (Pacing.fixed Span.zero)
  else
    Pacing.declared (.exponential (thinkTime.toSeconds * 1000) none) .thinkTime
      Pacing.defaultDeviation

def limited (name : String) (limits : List Binary64) : OperationDeclaration :=
  { OperationDeclaration.named name with limits := limits }

def foreground : List (OperationDeclaration × Handler Shop) :=
  [(limited "Browse" [50, 100], browse),
    (limited "Search" [50, 100], search),
    ({ limited "Purchase" [100, 200] with mode := .manual }, purchase)]

def background : List (OperationDeclaration × Handler Shop) :=
  [({ limited "Heartbeat" [10, 10] with countToMetric := false }, heartbeat)]

/-- The definition of the shop. Every visitor's own draws are seeded with the bits in which the
seed and the thread differ. -/
def draft (a : Arguments) (seed : Nat) (pacing : Pacing) (withBackground : Bool) :
    WorkloadDraft Shop :=
  { WorkloadDraft.named "ShopDriver" fun thread =>
      Creation.created
        { random := ChaCha.ofSeed (UInt64.ofNat (seed ^^^ thread))
          serviceTime := a.serviceTime
          errorRate := a.errorRate } with
    percentiles := ["90th", "99th"]
    responseTimeUnit := .milliseconds
    defaultPacing := some pacing
    initialDelay := a.thinkTime
    foreground := foreground
    background := if withBackground then background else []
    backgroundPacings := if withBackground then [Pacing.fixed (Span.ofMillis 1000)] else []
    mix := some (.flat [("Browse", 60), ("Search", 30), ("Purchase", 10)])
    beforeRun := some fun shop => (shop, .succeeded) }

/-- The shop that the arguments ask for. -/
def workload (a : Arguments) (seed : Nat) (withBackground : Bool) :
    Except ShopError (Workload Shop) :=
  if 0 ≤ a.errorRate ∧ a.errorRate ≤ 1 then
    match pacing a.thinkTime with
    | .error e => .error (.pacing e)
    | .ok pacing =>
      match (draft a seed pacing withBackground).build with
      | .error e => .error (.definition e)
      | .ok w => .ok w
  else .error (.errorRate a.errorRate)

end Shop

end LoadGen
