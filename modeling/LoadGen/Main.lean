import LoadGen.CommandLine
import LoadGen.RunId

namespace LoadGen.Main

/-- Where the lines of the log go. -/
abbrev Log := LogLine → IO Unit

/-- The log in a file, in plain text. The directory is created with it. -/
def fileLog (file : LogFile) : IO Log := do
  IO.FS.createDirAll file.directory
  let handle ← IO.FS.Handle.mk (file.directory ++ "/" ++ file.name) .append
  return fun line => do
    handle.putStrLn (line.level.name ++ " " ++ line.text)
    handle.flush

/-- The log in a file, or else in colours on the console. -/
def openLog : Option LogFile → IO Log
  | some file => fileLog file
  | none => pure fun line => IO.eprintln line.coloured

/-- The nanoseconds since the epoch. -/
def reading (epoch : Nat) : IO Stamp := do
  let now ← IO.monoNanosNow
  return ((now - epoch : Nat) : Int)

/-- Sleeps for the whole milliseconds up to a reading, at most a second. -/
def sleepTowards (epoch : Nat) (wake : Stamp) : IO Unit := do
  let now ← reading epoch
  IO.sleep (UInt32.ofNat (min ((wake - now) / 1000000).toNat 1000))

/-- Lets the members with the last `left` numbers take a step each, and says whether one did. -/
def round (p : RunPlan Shop) (epoch : Nat) (log : Log) :
    Nat → Bool → Ensemble (Stage Shop) → IO (Bool × Ensemble (Stage Shop))
  | 0, moved, e => pure (moved, e)
  | left + 1, moved, e => do
    let i := e.members.size - (left + 1)
    let now ← reading epoch
    match e.attempt p.follow i now with
    | none => round p epoch log left moved e
    | some (signals, m) => do
      let voice : LogLine.Voice := ⟨p.workload.name, i, p.workload.operations.map (·.name)⟩
      let told := (e.members[i]?.bind (·.thread.emission?)).bind voice.line?
      told.forM log
      round p epoch log left true (e.withMember i signals m)

/-- Goes on until no member can ever move again. -/
partial def settle (p : RunPlan Shop) (epoch : Nat) (log : Log) (e : Ensemble (Stage Shop)) :
    IO (Ensemble (Stage Shop)) := do
  let (moved, e) ← round p epoch log e.members.size false e
  if moved then settle p epoch log e
  else
    match e.wakeTime? with
    | none => pure e
    | some wake => do
      sleepTowards epoch wake
      settle p epoch log e

def run (p : RunPlan Shop) (log : Log) : IO CommandLine.Outcome := do
  let bytes ← IO.getRandomBytes 16
  let runId := RunId.ofBytes bytes.toList
  log (CommandLine.opening p runId)
  let epoch ← IO.monoNanosNow
  let e ← settle p epoch log p.ensemble
  let now ← reading epoch
  let report := RunReport.ofEnsemble p runId e now
  log (CommandLine.closing report)
  return CommandLine.conclude p report

def perform (task : CommandLine.Task) : IO CommandLine.Outcome := do
  let log ← openLog task.logFile
  match task.outcome with
  | .ok plan => run plan fun line => if task.verbosity.shows line.level then log line else pure ()
  | .error ending => do
    if ending = .usage .helpRequested then IO.println CommandLine.usageText
    else ending.advice?.forM IO.eprintln
    return ending.outcome

/-- Runs the program for its arguments and gives its exit code. -/
def start (arguments : List String) : IO UInt32 := do
  let entropy ← IO.getRandomBytes 8
  let seed := entropy.toList.foldl (fun n b => 256 * n + b.toNat) 0
  let outcome ← perform (CommandLine.task arguments seed)
  outcome.lines.forM fun line => IO.println line
  outcome.error.forM fun e => IO.eprintln e
  return UInt32.ofNat outcome.code

end LoadGen.Main

def main (arguments : List String) : IO UInt32 := LoadGen.Main.start arguments
