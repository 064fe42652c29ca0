import LoadGen.LoadSchedule
import LoadGen.Program

namespace LoadGen

/-- Phases measured in completed cycles. Without a simultaneous start, the cycles begun before the
start time are warm-up; they count as ramp-up and are not completed ones. -/
structure CyclePolicy where
  bounds : CycleBounds
  simultaneous : Bool
  started : Bool
  completed : Nat
  start : Option Stamp
  deriving DecidableEq

/-- Phases measured by the clock. The bounds are set once, as soon as the start time is seen. -/
structure TimePolicy where
  rampUp : Span
  steadyState : Span
  rampDown : Span
  simultaneous : Bool
  start : Option Stamp
  bounds : Option TimeBounds
  deriving DecidableEq

/-- What a thread does with its next iteration. -/
inductive Gate
  | proceed
  /-- The thread was inactive and has been woken; its slots forget their history. -/
  | resumed
  | stop
  | cancelled
  deriving DecidableEq

namespace CyclePolicy

def ofLengths (rampUp steadyState rampDown : Nat) (simultaneous : Bool) : CyclePolicy :=
  ⟨CycleBounds.ofLengths rampUp steadyState rampDown, simultaneous, false, 0, none⟩

def gate (p : CyclePolicy) : Gate :=
  if p.started ∧ p.bounds.endRampDown ≤ p.completed then .stop else .proceed

def count (p : CyclePolicy) : CyclePolicy × Phase :=
  ({ p with completed := p.completed + 1 }, p.bounds.phaseOf (p.completed + 1))

/-- Classifies an invocation, the start time being what is seen at that moment. -/
def classify (p : CyclePolicy) (start : Option Stamp) (r : Timing) : CyclePolicy × Phase :=
  if p.started then p.count
  else
    match start, r.invoke with
    | some start, some invoke =>
      if start ≤ invoke then { p with started := true }.count else (p, .rampUp)
    | _, _ => (p, .rampUp)

def view (p : CyclePolicy) : PhaseView := .cycles p.started p.completed p.bounds

end CyclePolicy

namespace TimePolicy

def ofLengths (rampUp steadyState rampDown : Span) (simultaneous : Bool) : TimePolicy :=
  ⟨rampUp, steadyState, rampDown, simultaneous, none, none⟩

/-- Sets the bounds, unless they are set already. -/
def withStart (p : TimePolicy) (start : Stamp) : TimePolicy :=
  match p.bounds with
  | some _ => p
  | none =>
    { p with
      start := some start
      bounds := some (TimeBounds.ofStart start p.rampUp p.steadyState p.rampDown) }

def classify (p : TimePolicy) (r : Timing) : Phase :=
  let invoke := r.invoke.getD 0
  match p.bounds with
  | some bounds => bounds.phaseOf invoke (r.respond.getD invoke)
  | none => .rampUp

def stopBefore (p : TimePolicy) (intended : Stamp) : Bool :=
  p.bounds.any fun bounds => decide (bounds.endRampDown ≤ intended)

def stopAfter (p : TimePolicy) (r : Timing) : Bool :=
  match p.bounds, r.respond with
  | some bounds, some respond => decide (bounds.endRampDown ≤ respond)
  | _, _ => false

def view (p : TimePolicy) : PhaseView := .time p.bounds

/-- What a load schedule has a thread do at a time after the start. -/
inductive Duty
  | active
  /-- Inactive until a time, when the next level begins; with the number of active threads. -/
  | park (active : Nat) (wake : Stamp)
  | leave
  deriving DecidableEq

/-- A thread is active while its number is below the count of the level. It leaves when no later
level within the run could take it back. -/
def duty (p : TimePolicy) (schedule : LoadSchedule) (thread : Nat) (start now : Stamp) : Duty :=
  let (active, next) := schedule.levelAt (max (Stamp.minus now start) 0)
  if thread < active then .active
  else
    match next with
    | none => .leave
    | some offset =>
      let wake := Stamp.plus start offset
      if p.bounds.any fun bounds => decide (bounds.endRampDown ≤ wake) then .leave
      else .park active wake

/-- Takes notice of the start time if it has been fixed. -/
def noticeStart (p : TimePolicy) : Program TimePolicy :=
  match p.bounds with
  | some _ => pure p
  | none => do
    let start ← Program.startTime
    match start with
    | some start => pure (p.withStart start)
    | none => pure p

/-- The start time, waiting for it if need be. -/
def requireStart : Program (Option Stamp) := do
  let start ← Program.startTime
  match start with
  | some start => pure (some start)
  | none => Program.awaitStart

def gate (p : TimePolicy) (load : Option LoadSchedule) (thread : Nat) :
    Program (TimePolicy × Gate) :=
  match load with
  | none => do
    let p ← p.noticeStart
    pure (p, .proceed)
  | some schedule => do
    let start ← requireStart
    match start with
    | none => pure (p, .cancelled)
    | some start => do
      let p := p.withStart start
      let now ← Program.clock
      match p.duty schedule thread start now with
      | .active => pure (p, .proceed)
      | .leave => pure (p, .stop)
      | .park active wake => do
        Program.emit (.parked active)
        let wait ← Program.sleepUntil wake
        match wait with
        | .reached => pure (p, .resumed)
        | .cancelled => pure (p, .cancelled)

end TimePolicy

/-- What decides how long a thread runs and in which phase an invocation counts. -/
inductive Policy
  | cycles (p : CyclePolicy)
  | time (p : TimePolicy)
  deriving DecidableEq

namespace Policy

/-- Waits for a simultaneous start; none when the run is aborted before it. -/
def prepare : Policy → Program (Option Policy)
  | cycles p =>
    if p.simultaneous then do
      let start ← Program.awaitStart
      pure (start.map fun start => cycles { p with start := some start, started := true })
    else pure (some (cycles p))
  | time p =>
    if p.simultaneous then do
      let start ← Program.awaitStart
      pure (start.map fun start => time (p.withStart start))
    else pure (some (time p))

/-- The time from which the first delays are counted. -/
def initialReference (now : Stamp) : Policy → Stamp
  | cycles p => p.start.getD now
  | time p => if p.simultaneous then p.start.getD now else now

/-- Evaluated before each iteration. -/
def gate (load : Option LoadSchedule) (thread : Nat) : Policy → Program (Policy × Gate)
  | cycles p => pure (cycles p, p.gate)
  | time p => do
    let (p, gate) ← p.gate load thread
    pure (time p, gate)

/-- Whether an invocation intended for a time must not take place any more. -/
def stopBefore (intended : Stamp) : Policy → Bool
  | cycles _ => false
  | time p => p.stopBefore intended

/-- Classifies a completed invocation and counts it. -/
def classify (r : Timing) : Policy → Program (Policy × Phase)
  | cycles p =>
    if p.started then
      let (p, phase) := p.classify none r
      pure (cycles p, phase)
    else do
      let start ← Program.startTime
      let (p, phase) := p.classify start r
      pure (cycles p, phase)
  | time p => pure (time p, p.classify r)

/-- Whether the thread stops after the invocation just classified. -/
def stopAfter (r : Timing) : Policy → Bool
  | cycles _ => false
  | time p => p.stopAfter r

def view : Policy → PhaseView
  | cycles p => p.view
  | time p => p.view

def earlyFailure : Policy → Timing.EarlyFailure
  | cycles _ => .reusePrevious
  | time _ => .skip

end Policy

end LoadGen
