import LoadGen.Compliance
import LoadGen.RunReport
import LoadGen.Span.Readable

namespace LoadGen

namespace Summary

/-- Blanks before a text, up to a width. -/
def padStart (width : Nat) (s : String) : String :=
  String.ofList (List.replicate (width - s.length) ' ') ++ s

/-- Blanks after a text, up to a width. -/
def padEnd (width : Nat) (s : String) : String :=
  s ++ String.ofList (List.replicate (width - s.length) ' ')

/-- The largest of the threads' 90th percentiles of the response times. -/
def slowest? (stats : List OperationStats) : Option Nat :=
  ((stats.filter fun s => s.response.size ≠ 0).map fun s =>
    s.response.percentile 90).max?

inductive Line
  | rule
  | title (runId workload : String)
  | elapsed (span : Span)
  | total (label : String) (count : Nat)
  | operation (name : String) (transactions errors : Nat) (slowest : Option Nat)
  | verdict (thread : Nat) (passed : Bool)
  | response (c : ResponseCheck)
  | mix (c : MixCheck)
  | delay (c : DelayCheck)

/-- The figures of an operation, without the threads' response times. -/
def figures (name : String) (transactions errors : Nat) : String :=
  "  " ++ padEnd 12 name ++ " tx " ++ padStart 8 (toString transactions) ++ "  errors " ++
    padStart 6 (toString errors)

def readableNanos (nanos : Nat) : String := (Span.mk nanos).readable

def Line.text : Line → String
  | rule => String.ofList (List.replicate 65 '-')
  | title runId workload => "Run " ++ runId ++ " of " ++ workload
  | elapsed span => "  " ++ padEnd 21 "Elapsed:" ++ span.readable
  | total label count => "  " ++ padEnd 21 (label ++ ":") ++ toString count
  | operation name transactions errors slowest =>
    figures name transactions errors ++ "  slowest thread p90 " ++
      (slowest.map readableNanos).getD "-"
  | verdict thread passed =>
    "  Thread " ++ padStart 4 (toString thread) ++ (if passed then ": passed" else ": failed")
  | response c =>
    "    " ++ c.operation ++ " " ++ c.percentile ++ " " ++ c.actual.fixedText 3 ++
      " exceeds limit " ++ c.limit.fixedText 3
  | mix c =>
    "    " ++ c.operation ++ " mix " ++ (c.actual * 100).fixedText 2 ++ "% outside expected " ++
      (c.expected * 100).fixedText 2 ++ "%"
  | delay c =>
    "    " ++ c.operation ++ " delay " ++ readableNanos c.actual.toWord ++ " vs targeted " ++
      readableNanos c.targeted.toWord

/-- What a line says apart from clock readings and the name of the run, if it is not about times. -/
def Line.timelessText? : Line → Option String
  | title _ workload => some ("Run <id> of " ++ workload)
  | elapsed _ | response _ | delay _ => none
  | operation name transactions errors _ => some (figures name transactions errors)
  | line => some line.text

def operationLine (stats : List OperationStats) (name : String) : Line :=
  .operation name (total (stats.map (·.transactions.total))) (total (stats.map (·.errors.total)))
    (slowest? stats)

/-- The verdict on one thread, followed by the checks that have failed. -/
def threadLines (m : Metrics) : List Line :=
  let compliance := m.compliance
  if compliance.passed then [.verdict m.thread true]
  else
    .verdict m.thread false ::
      ((compliance.response.filter (!·.passed)).map .response ++
        (compliance.mix.filter (!·.passed)).map .mix ++
        (compliance.delay.filter (!·.passed)).map .delay)

/-- The lines of the summary, the operations being named in their order. -/
def lines (operations : List String) (r : RunReport) : List Line :=
  let totals :=
    [.rule, .title r.runId r.workload, .elapsed r.elapsed,
      .total "Transactions" r.totalTransactions, .total "Steady state" r.steadyTransactions,
      .total "Errors" r.totalErrors]
  let ofOperations := operations.zipIdx.map fun (name, i) =>
    operationLine (r.metrics.filterMap fun m => m.operations[i]?) name
  totals ++ ofOperations ++ r.metrics.flatMap threadLines ++ [.rule]

end Summary

end LoadGen
