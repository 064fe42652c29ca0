import LoadGen.LoadSchedule
import LoadGen.RunError
import LoadGen.Workload

namespace LoadGen

inductive RunMode
  /-- Counts of cycles completed by each thread. -/
  | cycles (rampUp steadyState rampDown : Nat)
  /-- Spans from the start time on. -/
  | time (rampUp steadyState rampDown : Span)
  deriving DecidableEq

namespace RunMode

def isTime : RunMode → Bool
  | cycles .. => false
  | time .. => true

def hasSteadyState : RunMode → Bool
  | cycles _ steadyState _ => decide (steadyState ≠ 0)
  | time _ steadyState _ => decide (steadyState.nanos ≠ 0)

end RunMode

inductive ThreadCount
  | fixed (threads : Nat)
  /-- As many as the workload asks for at a scale. -/
  | scale (scale : Nat)
  deriving DecidableEq

/-- What a run needs beside its workload. -/
structure RunControl where
  mode : RunMode
  threads : ThreadCount
  /-- Whether every thread waits for the start time before its first operation. -/
  simultaneous : Bool
  load : Option LoadSchedule
  /-- The seed of the first thread; every other thread's is one more than that before it. -/
  seed : Option Nat
  /-- The time between the last thread's initialization and the start time. -/
  startDelay : Span
  /-- Whether threads stay on one core each. -/
  pinned : Bool
  deriving DecidableEq

/-- A run of one thread that starts as soon as it is ready. -/
def RunControl.ofMode (mode : RunMode) : RunControl :=
  ⟨mode, .fixed 1, false, none, none, Span.zero, false⟩

/-- Why a control does not fit a workload. -/
inductive MisfitError
  | noThreads
  | loadWithoutTime
  | backgroundWithoutTime (workload : String)
  | loadTooHigh (wanted threads : Nat)
  deriving DecidableEq

def MisfitError.message : MisfitError → String
  | noThreads => "run needs at least one thread"
  | loadWithoutTime => "variable load is only supported in time mode"
  | backgroundWithoutTime workload =>
    "driver " ++ workload ++ " defines a background mix, which is only supported in time mode"
  | loadTooHigh wanted threads =>
    "variable load asks for " ++ toString wanted ++ " threads but the run has " ++ toString threads

/-- Why a control is refused whatever its workload is. -/
inductive LimitError
  | noThreads
  | tooManyThreads (threads : Nat)
  | zeroScale
  | noSteadyState
  deriving DecidableEq

namespace RunControl

/-- The most threads that can be asked for directly. -/
def maxThreads : Nat := 10000

end RunControl

def LimitError.message : LimitError → String
  | noThreads => "Thread count cannot be zero"
  | tooManyThreads threads =>
    "Thread count " ++ toString threads ++ " is too high (maximum " ++
      toString RunControl.maxThreads ++ ")"
  | zeroScale => "Scale cannot be zero"
  | noSteadyState => "Steady state cannot be empty"

namespace RunControl

variable {σ : Type}

def checkThreads (threads : Nat) : Except LimitError Unit :=
  if threads = 0 then .error .noThreads
  else if maxThreads < threads then .error (.tooManyThreads threads)
  else .ok ()

def checkScale (scale : Nat) : Except LimitError Unit :=
  if scale = 0 then .error .zeroScale else .ok ()

def checkSteadyState (mode : RunMode) : Except LimitError Unit :=
  if mode.hasSteadyState then .ok () else .error .noSteadyState

/-- The threads of a run of the workload. -/
def threadCount (c : RunControl) (w : Workload σ) : Nat :=
  match c.threads with
  | .fixed threads => threads
  | .scale scale => w.threadsForScale scale

/-- Checks the control against a workload. Load schedules and background operations need phases
measured by time, and no level of load may ask for more threads than there are. -/
def check (c : RunControl) (w : Workload σ) : Except MisfitError Unit :=
  let threads := c.threadCount w
  if threads = 0 then .error .noThreads
  else if ¬ c.mode.isTime ∧ c.load.isSome then .error .loadWithoutTime
  else if ¬ c.mode.isTime ∧ w.backgroundMix.isSome then .error (.backgroundWithoutTime w.name)
  else
    match c.load with
    | none => .ok ()
    | some load =>
      if threads < load.maxThreads then .error (.loadTooHigh load.maxThreads threads) else .ok ()

end RunControl

end LoadGen
