import LoadGen.LoadSchedule
import LoadGen.PhaseLength
import LoadGen.RunControl

namespace LoadGen

inductive PhaseMeasure
  | cycles
  | time
  deriving DecidableEq

/-- What the command line asks for. The lengths of the phases are read later, as the mode
demands. -/
structure Arguments where
  measure : PhaseMeasure
  rampUp : String
  steadyState : String
  rampDown : String
  threads : Option Nat
  scale : Nat
  simultaneous : Bool
  startDelay : Span
  load : Option LoadSchedule
  seed : Option Nat
  pinned : Bool
  thinkTime : Span
  serviceTime : Span
  errorRate : Binary64
  verbosity : Nat
  logFile : Option String
  deriving DecidableEq

/-- Why arguments are not accepted, requests for information among them. -/
inductive UsageError
  | unknownArgument (argument : String)
  /-- An option without a value, or with one that is not among the possible ones. -/
  | invalidValue (option : String)
  | badValue (option value reason : String)
  | repeated (option : String)
  | unneededValue (option : String)
  | helpRequested
  | versionRequested
  deriving DecidableEq

def UsageError.message : UsageError → String
  | unknownArgument argument => "unexpected argument " ++ argument
  | invalidValue option => "--" ++ option ++ " has no value or an impossible one"
  | badValue option value reason =>
    "invalid value " ++ value ++ " for --" ++ option ++ ": " ++ reason
  | repeated option => "--" ++ option ++ " is given more than once"
  | unneededValue option => "--" ++ option ++ " takes no value"
  | helpRequested => "help requested"
  | versionRequested => "version requested"

inductive ValueOption
  | mode
  | rampUp
  | steadyState
  | rampDown
  | threads
  | scale
  | startDelay
  | load
  | seed
  | thinkTime
  | serviceTime
  | errorRate
  | logFile
  deriving DecidableEq

inductive Flag
  | simultaneous
  | pinned
  | verbose
  | help
  | version
  deriving DecidableEq

namespace ValueOption

def name : ValueOption → String
  | mode => "mode"
  | rampUp => "ramp-up"
  | steadyState => "steady-state"
  | rampDown => "ramp-down"
  | threads => "threads"
  | scale => "scale"
  | startDelay => "start-delay"
  | load => "variable-load"
  | seed => "seed"
  | thinkTime => "think-time"
  | serviceTime => "service-time"
  | errorRate => "error-rate"
  | logFile => "log-file"

def all : List ValueOption :=
  [mode, rampUp, steadyState, rampDown, threads, scale, startDelay, load, seed, thinkTime,
    serviceTime, errorRate, logFile]

def ofName? (s : String) : Option ValueOption := all.find? fun o => o.name = s

def ofLetter? : Char → Option ValueOption
  | 'm' => some mode
  | 't' => some threads
  | 's' => some scale
  | _ => none

end ValueOption

namespace Flag

def name : Flag → String
  | simultaneous => "simultaneous-start"
  | pinned => "pin-threads"
  | verbose => "verbose"
  | help => "help"
  | version => "version"

def all : List Flag := [simultaneous, pinned, verbose, help, version]

def ofName? (s : String) : Option Flag := all.find? fun f => f.name = s

def ofLetter? : Char → Option Flag
  | 'v' => some verbose
  | 'h' => some help
  | 'V' => some version
  | _ => none

end Flag

namespace Arguments

/-- The arguments of an empty command line. -/
def defaults : Arguments :=
  { measure := .time, rampUp := "10", steadyState := "60", rampDown := "5", threads := none,
    scale := 1, simultaneous := false, startDelay := Span.zero, load := none, seed := none,
    pinned := false, thinkTime := Span.ofMillis 50, serviceTime := Span.ofMillis 5, errorRate := 0,
    verbosity := 0, logFile := none }

def maxScale : Nat := 4294967295

def maxVerbosity : Nat := 255

/-- A scale is read as a whole number of 64 bits before its range is checked. -/
def readScale (value : List Char) : Except String Nat :=
  match Text.signedWord value with
  | .error e => .error e.message
  | .ok n =>
    if 0 ≤ n ∧ n ≤ maxScale then .ok n.toNat
    else .error (toString n ++ " is not in 0..=" ++ toString maxScale)

def readRate (value : List Char) : Except String Binary64 :=
  match Binary64.read? value with
  | some x => .ok x
  | none =>
    .error (if value.isEmpty then "cannot parse float from empty string"
      else "invalid float literal")

/-- A value that could not be read, as a fault of its option. -/
def refuseValue {α : Type} (o : ValueOption) (value : List Char) (reason : String) :
    Except (Fault UsageError) α :=
  refuse (.badValue o.name (String.ofList value) reason)

def takeWord (o : ValueOption) (value : List Char) : Except (Fault UsageError) Nat :=
  match Text.word value with
  | .ok n => .ok n
  | .error e => refuseValue o value e.message

def takeSpan (o : ValueOption) (value : List Char) : Except (Fault UsageError) Span :=
  match Span.read value with
  | .ok span => .ok span
  | .error .overflow => .error .overflow
  | .error (.refused e) => refuseValue o value e.message

def takeLoad (o : ValueOption) (value : List Char) : Except (Fault UsageError) LoadSchedule :=
  match LoadSchedule.read value with
  | .ok load => .ok load
  | .error .overflow => .error .overflow
  | .error (.refused e) => refuseValue o value e.message

def takePlain (o : ValueOption) (value : List Char) {α : Type} :
    Except String α → Except (Fault UsageError) α
  | .ok x => .ok x
  | .error reason => refuseValue o value reason

/-- The arguments with the value of an option. -/
def withValue (a : Arguments) (o : ValueOption) (value : List Char) :
    Except (Fault UsageError) Arguments :=
  let text := String.ofList value
  match o with
  | .mode =>
    if text = "cycles" then .ok { a with measure := .cycles }
    else if text = "time" then .ok { a with measure := .time }
    else refuse (.invalidValue o.name)
  | .rampUp => .ok { a with rampUp := text }
  | .steadyState => .ok { a with steadyState := text }
  | .rampDown => .ok { a with rampDown := text }
  | .threads => (takeWord o value).map fun n => { a with threads := some n }
  | .scale => (takePlain o value (readScale value)).map fun n => { a with scale := n }
  | .startDelay => (takeSpan o value).map fun span => { a with startDelay := span }
  | .load => (takeLoad o value).map fun load => { a with load := some load }
  | .seed => (takeWord o value).map fun n => { a with seed := some n }
  | .thinkTime => (takeSpan o value).map fun span => { a with thinkTime := span }
  | .serviceTime => (takeSpan o value).map fun span => { a with serviceTime := span }
  | .errorRate => (takePlain o value (readRate value)).map fun x => { a with errorRate := x }
  | .logFile =>
    if value.isEmpty then refuse (.invalidValue o.name) else .ok { a with logFile := some text }

/-- What has been read so far: the arguments, the options seen, and an option whose value has not
been looked at yet, if it has one already. -/
structure Reader where
  arguments : Arguments
  values : List ValueOption
  flags : List Flag
  pending : Option (ValueOption × Option (List Char))

namespace Reader

def fresh : Reader := ⟨defaults, [], [], none⟩

/-- Takes the value of an option, which must not have been given before. -/
def take (r : Reader) (o : ValueOption) (value : List Char) : Except (Fault UsageError) Reader :=
  if o ∈ r.values then refuse (.repeated o.name)
  else (r.arguments.withValue o value).map fun a =>
    { r with arguments := a, values := o :: r.values }

def resolve (r : Reader) : Except (Fault UsageError) Reader :=
  match r.pending with
  | none => .ok r
  | some (o, none) => refuse (.invalidValue o.name)
  | some (o, some value) => take { r with pending := none } o value

/-- Takes a flag after the pending option. -/
def takeFlag (r : Reader) (f : Flag) : Except (Fault UsageError) Reader := do
  let r ← r.resolve
  match f with
  | .help => refuse .helpRequested
  | .version => refuse .versionRequested
  | .verbose =>
    .ok { r with arguments :=
            { r.arguments with verbosity := min (r.arguments.verbosity + 1) maxVerbosity } }
  | .simultaneous =>
    if f ∈ r.flags then refuse (.repeated f.name)
    else .ok ⟨{ r.arguments with simultaneous := true }, r.values, f :: r.flags, r.pending⟩
  | .pinned =>
    if f ∈ r.flags then refuse (.repeated f.name)
    else .ok ⟨{ r.arguments with pinned := true }, r.values, f :: r.flags, r.pending⟩

/-- Takes an option with its value, or has it wait for one. -/
def takeOption (r : Reader) (o : ValueOption) (attached : Option (List Char)) :
    Except (Fault UsageError) Reader := do
  let r ← r.resolve
  match attached with
  | some value => r.take o value
  | none => .ok { r with pending := some (o, none) }

/-- Takes an option by its long name, with what follows an equals sign. -/
def takeLong (r : Reader) (argument : String) (body : List Char) :
    Except (Fault UsageError) Reader :=
  let (name, attached) :=
    match Text.cutAt? '=' body with
    | some (name, value) => (String.ofList name, some value)
    | none => (String.ofList body, none)
  match ValueOption.ofName? name with
  | some o => r.takeOption o attached
  | none =>
    match Flag.ofName? name with
    | none => refuse (.unknownArgument argument)
    | some f => if attached.isSome then refuse (.unneededValue f.name) else r.takeFlag f

/-- The value that follows a letter in the same argument; an equals sign before it does not
count. -/
def attachedTo : List Char → Option (List Char)
  | [] => none
  | '=' :: value => some value
  | value => some value

/-- Takes options by their letters. What follows the letter of an option with a value is its
value. -/
def takeLetters (r : Reader) (argument : String) : List Char → Except (Fault UsageError) Reader
  | [] => .ok r
  | c :: rest =>
    match ValueOption.ofLetter? c with
    | some o => r.takeOption o (attachedTo rest)
    | none =>
      match Flag.ofLetter? c with
      | none => refuse (.unknownArgument argument)
      | some f => do
        let r ← r.takeFlag f
        r.takeLetters argument rest

/-- Takes an argument that is no option: the value that an option waits for. -/
def takeValue (r : Reader) (argument : String) : Except (Fault UsageError) Reader :=
  match r.pending with
  | some (o, none) => .ok { r with pending := some (o, some argument.toList) }
  | _ => refuse (.unknownArgument argument)

/-- Takes all arguments. After `--` none may follow. -/
def takeAll (r : Reader) : List String → Except (Fault UsageError) Reader
  | [] => r.resolve
  | argument :: rest =>
    match argument.toList with
    | ['-', '-'] =>
      match rest with
      | [] => r.resolve
      | extra :: _ => refuse (.unknownArgument extra)
    | '-' :: '-' :: body => do
      let r ← r.takeLong argument body
      r.takeAll rest
    | '-' :: c :: letters => do
      let r ← r.takeLetters argument (c :: letters)
      r.takeAll rest
    | _ => do
      let r ← r.takeValue argument
      r.takeAll rest

end Reader

/-- Reads the arguments of a command line. -/
def read (arguments : List String) : Except (Fault UsageError) Arguments :=
  (Reader.fresh.takeAll arguments).map (·.arguments)

/-- Why arguments give no run control. -/
inductive ControlError
  | length (e : PhaseLengthError)
  | limit (e : LimitError)
  deriving DecidableEq

def ControlError.chain : ControlError → ErrorChain
  | length e => e.chain
  | limit e => .plain e.message

def cycleCount (phase value : String) : Except (Fault ControlError) Nat :=
  match PhaseLength.readCycles phase value with
  | .ok n => .ok n
  | .error e => refuse (.length e)

def phaseSpan (phase value : String) : Except (Fault ControlError) Span :=
  match PhaseLength.readSpan phase value with
  | .ok span => .ok span
  | .error e => .error (e.map .length)

def runMode (a : Arguments) : Except (Fault ControlError) RunMode :=
  match a.measure with
  | .cycles => do
    let rampUp ← cycleCount Phase.rampUp.name a.rampUp
    let steadyState ← cycleCount Phase.steadyState.name a.steadyState
    let rampDown ← cycleCount Phase.rampDown.name a.rampDown
    return .cycles rampUp steadyState rampDown
  | .time => do
    let rampUp ← phaseSpan Phase.rampUp.name a.rampUp
    let steadyState ← phaseSpan Phase.steadyState.name a.steadyState
    let rampDown ← phaseSpan Phase.rampDown.name a.rampDown
    return .time rampUp steadyState rampDown

def withinLimit {α : Type} (x : α) : Except LimitError Unit → Except (Fault ControlError) α
  | .ok () => .ok x
  | .error e => refuse (.limit e)

/-- A count of threads takes precedence over a scale, which is then not looked at. -/
def threadCount (a : Arguments) : Except (Fault ControlError) ThreadCount :=
  match a.threads with
  | some threads => withinLimit (.fixed threads) (RunControl.checkThreads threads)
  | none => withinLimit (.scale a.scale) (RunControl.checkScale a.scale)

/-- The run control that the arguments ask for. -/
def control (a : Arguments) : Except (Fault ControlError) RunControl := do
  let mode ← a.runMode
  let threads ← a.threadCount
  withinLimit
    { mode := mode
      threads := threads
      simultaneous := a.simultaneous
      load := a.load
      seed := a.seed
      startDelay := a.startDelay
      pinned := a.pinned }
    (RunControl.checkSteadyState mode)

end Arguments

end LoadGen
