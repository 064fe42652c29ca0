import LoadGen.Pacing
import LoadGen.Percentile

namespace LoadGen

/-- Who captures the times of an invocation. -/
inductive TimingMode
  /-- The virtual user, right before and right after the handler. -/
  | automatic
  /-- The handler, through its context. -/
  | manual
  deriving DecidableEq

structure OperationDeclaration where
  name : String
  /-- A limit for each percentile of the workload; one that is not positive is no limit. -/
  limits : List Binary64
  /-- The limit of the 90th percentile for workloads that declare no percentiles. -/
  max90th : Binary64
  mode : TimingMode
  countToMetric : Bool
  pacing : Option Pacing

def OperationDeclaration.named (name : String) : OperationDeclaration :=
  ⟨name, [], 0, .automatic, true, none⟩

structure Operation where
  name : String
  limits : List Binary64
  max90th : Binary64
  mode : TimingMode
  countToMetric : Bool
  pacing : Pacing
  deriving DecidableEq

/-- Resolves a declaration: the limits have to match the percentiles in number, and the pacing is
the operation's own or else the given one. -/
def Operation.resolve (d : OperationDeclaration) (percentiles : List Percentile)
    (fallback : Option Pacing) : Except DefinitionError Operation :=
  if d.limits.length ≠ percentiles.length then
    .error (.percentileLimitCount d.name percentiles.length d.limits.length)
  else
    match d.pacing <|> fallback with
    | none => .error (.noCycle d.name)
    | some pacing => .ok ⟨d.name, d.limits, d.max90th, d.mode, d.countToMetric, pacing⟩

end LoadGen
