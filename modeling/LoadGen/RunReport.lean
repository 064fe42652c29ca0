import LoadGen.Run

namespace LoadGen

structure ThreadReport where
  thread : Nat
  /-- There are none when the thread failed before its first iteration or broke down. -/
  metrics : Option Metrics
  error : Option RunError
  /-- All that happened on the thread, in order. -/
  trace : List Event

structure RunReport where
  runId : String
  workload : String
  /-- In the order of the threads. -/
  threads : List ThreadReport
  abort : Option AbortCause
  abortTime : Option Stamp
  start : Option Stamp
  /-- From the fixing of the start time to the end of the last thread. -/
  elapsed : Span

namespace ThreadReport

variable {σ : Type}

/-- The report of a thread that has come to its end. -/
def ofEnd (w : Workload σ) (trace : List Event) (result : ThreadEnd) : ThreadReport :=
  let metrics :=
    if result.completed then
      match Metrics.empty w result.thread with
      | .ok m => some (m.recordAll trace)
      | .error _ => none
    else none
  ⟨result.thread, metrics, result.error, trace⟩

end ThreadReport

namespace RunReport

variable {σ : Type}

def endOf? : Stage σ → Option ThreadEnd
  | .finished result => some result
  | _ => none

def conductedAt? : Stage σ → Option Stamp
  | .conducted now => some now
  | _ => none

/-- The report on an ensemble whose threads have all come to their end, the clock showing `now`. -/
def ofEnsemble (p : RunPlan σ) (runId : String) (e : Ensemble (Stage σ)) (now : Stamp) :
    RunReport :=
  let members := e.members.toList
  let threads := members.filterMap fun m =>
    (m.stage?.bind endOf?).map (ThreadReport.ofEnd p.workload m.trace)
  let conducted := (members.filterMap fun m => m.stage?.bind conductedAt?).headD now
  { runId := runId
    workload := p.workload.name
    threads := threads
    abort := e.signals.cause
    abortTime := e.signals.abortTime
    start := if e.signals.startFixed then some e.signals.startCell else none
    elapsed := ⟨(now - conducted).toNat⟩ }

def isAborted (r : RunReport) : Bool := r.abort.isSome

def metrics (r : RunReport) : List Metrics := r.threads.filterMap (·.metrics)

def totalTransactions (r : RunReport) : Nat := total (r.metrics.map (·.totalTransactions))

def steadyTransactions (r : RunReport) : Nat := total (r.metrics.map (·.steadyTransactions))

def totalErrors (r : RunReport) : Nat := total (r.metrics.map (·.totalErrors))

/-- How often an event has happened on all threads together. -/
def count (r : RunReport) (e : Event) : Nat := total (r.threads.map fun t => t.trace.count e)

/-- The error of an aborted run: that of the thread which raised the abort, or else the first one
there is, or else one made from the cause. -/
def error? (r : RunReport) : Option RunError :=
  r.abort.map fun cause =>
    let own := r.threads.find? fun t => t.thread = cause.thread && t.error.isSome
    let first := r.threads.find? fun t => t.error.isSome
    ((own <|> first).bind (·.error)).getD
      (.fatal cause.thread cause.operation (.plain cause.message))

end RunReport

end LoadGen
