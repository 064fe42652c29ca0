import LoadGen.Sample

namespace LoadGen

/-- What an operation itself puts into the sequence of events. -/
inductive Note
  | flag (value : Bool)
  | failure (cause : ErrorChain)
  | names (thread : Nat) (workload : String) (operation : Option String)
  | timing (record : Timing)
  | threadName (name : String)
  deriving DecidableEq

inductive Event
  | hookBefore
  | hookAfter
  | hookAfterFailed (cause : ErrorChain)
  | initializationFailed (cause : ErrorChain)
  | runStarted
  | runEnded
  /-- The load level has this many active threads, and the user is not among them. -/
  | parked (active : Nat)
  | resumed
  /-- A slot has chosen its next operation, the time for it, and the delay that leads there. -/
  | planned (background : Bool) (operation : Nat) (intended delay : Stamp)
  | invoking (operation : Nat) (intended : Stamp)
  | called (background : Bool) (operation : Nat) (intended : Stamp)
  | note (content : Note)
  | returned (operation : Nat) (record : Timing)
  | panicked (operation : Nat)
  | completed (record : Timing)
  | transaction (sample : Sample)
  | error (sample : Sample)
  | delay (sample : DelaySample)
  /-- A failed operation had got an interim response. -/
  | openRequest (operation : Nat)
  | skipped (operation : Nat) (cause : ErrorChain)
  | failed (operation : Nat) (phase : Phase) (cause : ErrorChain)
  | aborting (operation : Nat) (cause : ErrorChain)
  deriving DecidableEq

namespace Event

/-- The response time that the metrics account for, if the event is the end of an invocation. -/
def responseTime? : Event → Option Nat
  | transaction sample | error sample => some sample.responseTime
  | _ => none

end Event

end LoadGen
