import LoadGen.Pacing
import LoadGen.Phase

namespace LoadGen

structure Sample where
  /-- The place of the operation in the workload. -/
  operation : Nat
  phase : Phase
  intended : Stamp
  invoke : Stamp
  respond : Stamp
  pause : Stamp
  deriving DecidableEq

namespace Sample

def ofTiming (operation : Nat) (phase : Phase) (r : Timing) : Sample :=
  let intended := r.intended.getD 0
  let invoke := r.invoke.getD intended
  ⟨operation, phase, intended, invoke, r.respond.getD invoke, r.pause⟩

/-- The time from the invocation to the response without the pause, never negative. -/
def responseTime (s : Sample) : Nat :=
  (Stamp.minus (Stamp.minus s.respond s.invoke) s.pause).toNat

end Sample

structure DelaySample where
  /-- The operation whose pacing gave the delay: the one before. -/
  operation : Nat
  /-- The phase of the invocation after the delay. -/
  phase : Phase
  basis : PacingBasis
  targeted : Stamp
  actual : Stamp
  deriving DecidableEq

end LoadGen
