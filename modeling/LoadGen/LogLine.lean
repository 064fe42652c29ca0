import LoadGen.Event

namespace LoadGen

/-- Levels from the most to the least severe. -/
inductive LogLevel
  | error
  | warn
  | info
  | debug
  | trace
  deriving DecidableEq

namespace LogLevel

def name : LogLevel → String
  | error => "error"
  | warn => "warn"
  | info => "info"
  | debug => "debug"
  | trace => "trace"

def severity : LogLevel → Nat
  | error => 0
  | warn => 1
  | info => 2
  | debug => 3
  | trace => 4

/-- The least severe level shown for a count of requests to be verbose. -/
def ofVerbosity : Nat → LogLevel
  | 0 => info
  | 1 => debug
  | _ => trace

/-- Whether lines of a level are shown when `l` is the least severe one. -/
def shows (l level : LogLevel) : Bool := level.severity ≤ l.severity

/-- The number of the level's colour on a terminal. -/
def colour : LogLevel → String
  | error => "31"
  | warn => "33"
  | info => "37"
  | debug => "34"
  | trace => "35"

end LogLevel

structure LogLine where
  level : LogLevel
  text : String
  deriving DecidableEq

namespace LogLine

/-- A control character that could steer a terminal, written out. -/
def visibleChar (c : Char) : List Char :=
  let n := c.toNat
  let hex := Nat.toDigits 16 n
  if n = 0x1b ∨ n = 0x07 ∨ n = 0x08 ∨ n = 0x0c ∨ n = 0x7f then
    '\\' :: 'x' :: (List.replicate (2 - hex.length) '0' ++ hex)
  else if 0x80 ≤ n ∧ n ≤ 0x9f then '\\' :: 'u' :: '\x7b' :: (hex ++ ['\x7d'])
  else [c]

/-- The line in the colour of its level. -/
def coloured (l : LogLine) : String :=
  "\x1b[" ++ l.level.colour ++ "m" ++ String.ofList (l.text.toList.flatMap visibleChar) ++ "\x1b[0m"

def readingText : Option Stamp → String
  | some t => "Some(" ++ toString t ++ ")"
  | none => "None"

/-- The names that the lines of a thread use. -/
structure Voice where
  workload : String
  thread : Nat
  operations : List String

namespace Voice

def speaker (v : Voice) : String := v.workload ++ "." ++ toString v.thread

def operation (v : Voice) (i : Nat) : String := v.operations.getD i ""

/-- The line that tells an event. Single invocations are told of the first thread only. -/
def line? (v : Voice) : Event → Option LogLine
  | .runStarted => some ⟨.debug, v.speaker ++ ": Start of run."⟩
  | .runEnded => some ⟨.debug, v.speaker ++ ": End of run."⟩
  | .parked active =>
    some ⟨.debug, "Current load level: (" ++ toString active ++ ") Thread " ++ toString v.thread ++
      " sleeping."⟩
  | .invoking i intended =>
    if v.thread = 0 then
      some ⟨.trace, v.speaker ++ ": Invoking " ++ v.operation i ++ " at time " ++
        toString intended ++ "."⟩
    else none
  | .completed r =>
    if v.thread = 0 then
      some ⟨.trace, "Invoke: " ++ readingText r.invoke ++ ", Respond: " ++ readingText r.respond ++
        ", Pause: " ++ toString r.pause⟩
    else none
  | .panicked i =>
    some ⟨.error, v.speaker ++ ": handler for operation " ++ v.operation i ++ " panicked"⟩
  | .openRequest i =>
    some ⟨.debug, "Potential open request in operation " ++ v.operation i ++ "."⟩
  | .skipped i cause =>
    some ⟨.debug, v.speaker ++ ": " ++ v.operation i ++ " failed before its invoke time: " ++
      cause.full⟩
  | .failed i phase cause =>
    some ⟨.debug, v.speaker ++ ": Error in " ++ v.operation i ++ " (" ++ phase.name ++ "): " ++
      cause.full⟩
  | .aborting i cause =>
    some ⟨.error, v.speaker ++ ": Fatal error in " ++ v.operation i ++ ", aborting run: " ++
      cause.full⟩
  | .initializationFailed cause =>
    some ⟨.error, "Error initializing driver " ++ v.workload ++ ": " ++ cause.full⟩
  | .hookAfterFailed cause => some ⟨.error, "Once-after hook failed: " ++ cause.full⟩
  | .hookBefore | .hookAfter | .resumed | .planned .. | .called .. | .note _ | .returned .. |
    .transaction _ | .error _ | .delay _ => none

def lines (v : Voice) (events : List Event) : List LogLine := events.filterMap v.line?

end Voice

end LogLine

end LoadGen
