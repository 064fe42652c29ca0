import LoadGen.LogFile
import LoadGen.LogLine
import LoadGen.Shop
import LoadGen.Summary

namespace LoadGen.CommandLine

def versionText : String := "workload-driver 0.1.0"

/-- The options there are, one a line. -/
def usageText : String :=
  String.intercalate "\n" ("Usage: workload-driver [options]" ::
    (ValueOption.all.map (fun o => "  --" ++ o.name ++ " <value>") ++
      Flag.all.map (fun f => "  --" ++ f.name)))

/-- How the program ends without a run. -/
inductive Ending
  | usage (e : UsageError)
  | failed (cause : ErrorChain)
  /-- A computation has left its range. -/
  | brokenDown
  deriving DecidableEq

/-- What is told about arguments that are not accepted. -/
def Ending.advice? : Ending → Option String
  | usage .helpRequested | usage .versionRequested => none
  | usage e => some (e.message ++ "\n\n" ++ usageText)
  | failed _ | brokenDown => none

/-- What the program does once its arguments have been read. The log file is created in any case. -/
structure Task where
  verbosity : LogLevel
  logFile : Option LogFile
  outcome : Except Ending (RunPlan Shop)

/-- Why a log file cannot be created. -/
def noFileName (path : String) : ErrorChain :=
  .plain ("Log file path " ++ path ++ " has no file name")

/-- The plan of the run. Seeds that are not given are taken from `entropy`. -/
def plan (a : Arguments) (entropy : Nat) : Except Ending (RunPlan Shop) :=
  match a.control with
  | .error .overflow => .error .brokenDown
  | .error (.refused e) => .error (.failed e.chain)
  | .ok control =>
    let seed := a.seed.getD entropy
    match Shop.workload a seed control.mode.isTime with
    | .error e => .error (.failed e.chain)
    | .ok workload =>
      match RunPlan.create workload control seed with
      | .error e => .error (.failed e.chain)
      | .ok plan => .ok plan

def taskOf (a : Arguments) (entropy : Nat) : Task :=
  let verbosity := LogLevel.ofVerbosity a.verbosity
  match a.logFile with
  | none => ⟨verbosity, none, plan a entropy⟩
  | some path =>
    match LogFile.ofPath? path with
    | none => ⟨verbosity, none, .error (.failed (noFileName path))⟩
    | some file => ⟨verbosity, some file, plan a entropy⟩

/-- What the program does for the arguments. -/
def task (arguments : List String) (entropy : Nat) : Task :=
  match Arguments.read arguments with
  | .ok a => taskOf a entropy
  | .error .overflow => ⟨.info, none, .error .brokenDown⟩
  | .error (.refused e) => ⟨.info, none, .error (.usage e)⟩

/-- The end of the program as its surroundings see it. -/
structure Outcome where
  code : Nat
  /-- The text put out before the summary. -/
  notice : Option String
  summary : List Summary.Line
  /-- The failure that is told last. -/
  error : Option String

def Ending.outcome : Ending → Outcome
  | usage .helpRequested => ⟨0, none, [], none⟩
  | usage .versionRequested => ⟨0, some versionText, [], none⟩
  | usage _ => ⟨2, none, [], none⟩
  | failed cause => ⟨1, none, [], some ("Error: " ++ cause.report)⟩
  | brokenDown => ⟨101, none, [], none⟩

/-- The end of the program after a run. -/
def conclude (p : RunPlan Shop) (r : RunReport) : Outcome :=
  let summary := Summary.lines (p.workload.operations.map (·.name)) r
  match r.error? with
  | none => ⟨0, none, summary, none⟩
  | some e => ⟨1, none, summary, some ("Error: " ++ e.chain.report)⟩

/-- The line of the log before a run. -/
def opening (p : RunPlan Shop) (runId : String) : LogLine :=
  ⟨.info, "Starting run " ++ runId ++ " of " ++ p.workload.name ++ " with " ++
    toString p.threads ++ " threads"⟩

/-- The line of the log after a run. -/
def closing (r : RunReport) : LogLine :=
  match r.abort with
  | some cause =>
    ⟨.warn, "Run " ++ r.runId ++ " aborted by thread " ++ toString cause.thread ++ ": " ++
      cause.message⟩
  | none => ⟨.info, "Run " ++ r.runId ++ " completed in " ++ r.elapsed.readable⟩

def Outcome.lines (o : Outcome) : List String := o.notice.toList ++ o.summary.map (·.text)

end LoadGen.CommandLine
