import LoadGen.Operation
import LoadGen.Program

namespace LoadGen

/-- What a handler can do while it runs. -/
inductive ContextCall
  /-- Captures the invocation the first time and the response every time after that. -/
  | recordTime
  /-- Waits for the intended time and captures the invocation. -/
  | recordStart
  | recordEnd
  | recordLast
  /-- Takes a length of time out of the response time. -/
  | addPause (length : Stamp)
  /-- Asks whether the invocation is in the steady state. -/
  | isSteady
  | timing
  | names
  | now
  | sleep (s : Span)
  | fixStart (t : Stamp)
  | abort (cause : AbortCause)
  | note (content : Note)

/-- The names that a handler sees: its thread, the workload and the operation. -/
structure ContextNames where
  thread : Nat
  workload : String
  operation : Option String

def ContextCall.Answer : ContextCall → Type
  | recordTime | recordStart => Wait
  | recordEnd | recordLast | addPause _ | sleep _ | note _ => Unit
  /-  None when the invocation has not been captured yet. -/
  | isSteady => Option Bool
  | timing => Timing
  | names => ContextNames
  | now => Stamp
  | fixStart _ | abort _ => Bool

/-- A course of a handler: the calls it makes, each with what follows on the answer, and how it
ends. -/
inductive Behaviour (σ : Type)
  | succeeds (state : σ)
  | fails (state : σ) (cause : ErrorChain)
  | panics (state : σ)
  | calls (c : ContextCall) (next : c.Answer → Behaviour σ)

/-- The handler of an operation, acting on the thread's instance of the workload. -/
abbrev Handler (σ : Type) := σ → Behaviour σ

inductive Ending
  | succeeded
  | failed (cause : ErrorChain)
  | panicked
  deriving DecidableEq

/-- What a thread's handlers share: names, and the timing of the current invocation. -/
structure Context where
  thread : Nat
  workload : String
  operations : List String
  current : Option Nat
  mode : TimingMode
  timing : Timing
  view : PhaseView

namespace Context

def fresh (thread : Nat) (workload : String) (operations : List String) (view : PhaseView) :
    Context :=
  ⟨thread, workload, operations, none, .automatic, Timing.empty, view⟩

/-- The context at the beginning of an invocation. -/
def begin (c : Context) (operation : Nat) (mode : TimingMode) (intended : Stamp)
    (view : PhaseView) : Context :=
  { c with
    current := some operation, mode := mode, timing := Timing.intendedAt intended, view := view }

def contextNames (c : Context) : ContextNames :=
  ⟨c.thread, c.workload, c.current.bind fun i => c.operations[i]?⟩

def recordStart (c : Context) : Program (Context × Wait) :=
  match c.mode with
  | .automatic => pure (c, .reached)
  | .manual => do
    let wait ←
      match c.timing.intended with
      | some intended => Program.sleepUntil intended
      | none => pure Wait.reached
    match wait with
    | .cancelled => pure (c, .cancelled)
    | .reached => do
      let now ← Program.clock
      pure ({ c with timing := c.timing.withInvoke now }, .reached)

def recordEnd (c : Context) : Program Context :=
  match c.mode with
  | .automatic => pure c
  | .manual => do
    let now ← Program.clock
    pure { c with timing := c.timing.withRespond now }

def recordTime (c : Context) : Program (Context × Wait) :=
  if c.timing.invoke.isSome then do
    let c ← c.recordEnd
    pure (c, .reached)
  else c.recordStart

def recordLast (c : Context) : Program Context := do
  let now ← Program.clock
  pure { c with timing := c.timing.withLastRespond now }

def perform (c : Context) : (call : ContextCall) → Program (Context × call.Answer)
  | .recordTime => c.recordTime
  | .recordStart => c.recordStart
  | .recordEnd => do
    let c ← c.recordEnd
    pure (c, ())
  | .recordLast => do
    let c ← c.recordLast
    pure (c, ())
  | .addPause length => pure ({ c with timing := c.timing.addPause length }, ())
  | .isSteady => pure (c, c.view.isSteady? c.timing)
  | .timing => pure (c, c.timing)
  | .names => pure (c, c.contextNames)
  | .now => do
    let now ← Program.clock
    pure (c, now)
  | .sleep span => do
    Program.pass span
    pure (c, ())
  | .fixStart t => do
    let fixed ← Program.fixStart t
    pure (c, fixed)
  | .abort cause => do
    let first ← Program.abort cause
    pure (c, first)
  | .note content => do
    Program.emit (.note content)
    pure (c, ())

end Context

def Behaviour.run {σ : Type} (c : Context) : Behaviour σ → Program (Context × σ × Ending)
  | succeeds state => pure (c, state, .succeeded)
  | fails state cause => pure (c, state, .failed cause)
  | panics state => pure (c, state, .panicked)
  | calls call next => do
    let (c, answer) ← c.perform call
    (next answer).run c

end LoadGen
