import LoadGen.Policy
import LoadGen.RunError
import LoadGen.Workload

namespace LoadGen

/-- A delay on the way to an invocation. -/
structure PlannedDelay where
  /-- The operation whose pacing gave it. -/
  previous : Nat
  basis : PacingBasis
  targeted : Stamp
  deriving DecidableEq

structure Pending where
  operation : Nat
  intended : Stamp
  /-- Where the delay is counted from. -/
  reference : Stamp
  delay : Option PlannedDelay
  deriving DecidableEq

/-- One mix on one thread: what has been selected, and when the previous invocation was. -/
structure Slot where
  selector : Selector
  background : Bool
  current : Option Nat
  previousStart : Stamp
  previousEnd : Stamp
  pending : Option Pending

namespace Slot

variable {σ ρ : Type} [WordSource ρ]

def fresh (selector : Selector) (background : Bool) (reference : Stamp) : Slot :=
  ⟨selector, background, none, reference, reference, none⟩

/-- The slot without its history: its next delay is an initial one again. -/
def reset (s : Slot) (reference : Stamp) : Slot :=
  { s with
    current := none, pending := none, previousStart := reference, previousEnd := reference }

def due (s : Slot) : Stamp :=
  match s.pending with
  | some pending => pending.intended
  | none => Stamp.greatest

/-- The reference of a delay. -/
def reference (s : Slot) : PacingBasis → Stamp
  | .cycleTime => s.previousStart
  | .thinkTime => s.previousEnd

def initialDelay (s : Slot) (w : Workload σ) : Pacing :=
  if s.background then w.backgroundInitialDelay else w.initialDelay

/-- The invocation of an operation after the given one, or the first one of the slot. -/
def nextPending (s : Slot) (w : Workload σ) (operation : Nat) (previous : Option Nat) (r : ρ) :
    Pending × Stamp × ρ :=
  match previous with
  | none =>
    let (delay, r) := (s.initialDelay w).delayStamp r
    (⟨operation, Stamp.plus s.previousStart delay, s.previousStart, none⟩, delay, r)
  | some previous =>
    let pacing := (w.operations[previous]?.map (·.pacing)).getD w.initialDelay
    let (delay, r) := pacing.delayStamp r
    let reference := s.reference pacing.basis
    (⟨operation, Stamp.plus reference delay, reference, some ⟨previous, pacing.basis, delay⟩⟩,
      delay, r)

/-- Selects the next operation and draws the delay before it, unless one is pending. -/
def plan (s : Slot) (w : Workload σ) (r : ρ) : Slot × ρ × List Event :=
  match s.pending with
  | some _ => (s, r, [])
  | none =>
    let (operation, selector) := s.selector.select
    let (pending, delay, r) := s.nextPending w operation s.current r
    ({ s with selector := selector, current := some operation, pending := some pending }, r,
      [.planned s.background operation pending.intended delay])

/-- Takes over the times of an invocation, if it has both. -/
def follow (s : Slot) (r : Timing) : Slot :=
  match r.invoke, r.respond with
  | some invoke, some respond => { s with previousStart := invoke, previousEnd := respond }
  | _, _ => s

end Slot

structure Slots where
  foreground : Slot
  background : Option Slot

namespace Slots

variable {σ ρ : Type} [WordSource ρ]

/-- The slots of a workload, every delay being counted from the reference. -/
def fresh (w : Workload σ) (r : ρ) (reference : Stamp) : Slots × ρ :=
  let (selector, r) := w.mix.selector r
  let foreground := Slot.fresh selector false reference
  match w.backgroundMix with
  | none => (⟨foreground, none⟩, r)
  | some mix =>
    let (selector, r) := mix.selector r
    (⟨foreground, some (Slot.fresh selector true reference)⟩, r)

def reset (s : Slots) (reference : Stamp) : Slots :=
  ⟨s.foreground.reset reference, s.background.map (·.reset reference)⟩

def plan (s : Slots) (w : Workload σ) (r : ρ) : Slots × ρ × List Event :=
  let (foreground, r, planned) := s.foreground.plan w r
  match s.background with
  | none => (⟨foreground, none⟩, r, planned)
  | some slot =>
    let (background, r, more) := slot.plan w r
    (⟨foreground, some background⟩, r, planned ++ more)

/-- The slot that is due first, the foreground one in a tie. -/
def earliest (s : Slots) : Slot :=
  match s.background with
  | some slot => if slot.due < s.foreground.due then slot else s.foreground
  | none => s.foreground

/-- Puts a slot in the place of the one it stems from. -/
def put (s : Slots) (slot : Slot) : Slots :=
  if slot.background then { s with background := some slot } else { s with foreground := slot }

end Slots

/-- A thread on its way through a run. An iteration chooses an operation for every slot, waits for
the earliest one, invokes it, and accounts for its outcome. -/
structure VirtualUser (σ : Type) where
  id : Nat
  state : σ
  policy : Policy
  random : ChaCha
  context : Context

/-- What became of a thread. -/
structure ThreadEnd where
  thread : Nat
  /-- Whether the thread came to its end with its metrics. -/
  completed : Bool
  error : Option RunError
  deriving DecidableEq

/-- Where a thread of a run is between two programs. -/
inductive Stage (σ : Type)
  | starting (id : Nat)
  | ready (user : VirtualUser σ)
  | iterating (user : VirtualUser σ) (slots : Slots)
  /-- The virtual user has left its loop. -/
  | ended (user : VirtualUser σ) (error : Option RunError)
  | finished (result : ThreadEnd)
  /-- The thread is the one that fixes the start time. -/
  | conducting
  /-- The start time has been fixed; this is the clock reading after it. -/
  | conducted (now : Stamp)

namespace VirtualUser

variable {σ : Type}

def create (w : Workload σ) (id : Nat) (state : σ) (policy : Policy) (seed : Nat) : VirtualUser σ :=
  { id := id, state := state, policy := policy, random := ChaCha.ofSeed (UInt64.ofNat seed),
    context := Context.fresh id w.name (w.operations.map (·.name)) policy.view }

def withTiming (u : VirtualUser σ) (r : Timing) : VirtualUser σ :=
  { u with context := { u.context with timing := r } }

def timing (u : VirtualUser σ) : Timing := u.context.timing

def emitAll : List Event → Program Unit
  | [] => pure ()
  | e :: rest => do
    Program.emit e
    emitAll rest

def finish (u : VirtualUser σ) (error : Option RunError) : Program (Stage σ) := do
  Program.emit .runEnded
  pure (.ended u error)

/-- Aborts the run for a fatal cause. -/
def fail (u : VirtualUser σ) (operation : Nat) (name : String) (cause : ErrorChain) :
    Program (Stage σ) := do
  let first ← Program.abort ⟨u.id, name, cause.fatalCause?.getD cause.display⟩
  if first then Program.emit (.aborting operation cause)
  u.finish (some (.fatal u.id name cause))

/-- Aborts the run because a handler could not be used. -/
def failBinding (u : VirtualUser σ) (name message : String) (events : List Event) :
    Program (Stage σ) := do
  let _ ← Program.abort ⟨u.id, name, message⟩
  emitAll events
  u.finish (some (.binding u.id message))

/-- The delay before an invocation, when there was one and the invocation has begun. -/
def delaySample? (pending : Pending) (phase : Phase) (r : Timing) : Option DelaySample :=
  match pending.delay, r.invoke with
  | some delay, some invoke =>
    some ⟨delay.previous, phase, delay.basis, delay.targeted, Stamp.minus invoke pending.reference⟩
  | _, _ => none

def emitDelay (pending : Pending) (phase : Phase) (r : Timing) : Program Unit :=
  match delaySample? pending phase r with
  | some sample => Program.emit (.delay sample)
  | none => pure ()

/-- Goes on after an invocation that has been accounted for. -/
def proceed (u : VirtualUser σ) (slots : Slots) (slot : Slot) : Program (Stage σ) :=
  if u.policy.stopAfter u.timing then u.finish none
  else pure (.iterating u (slots.put (slot.follow u.timing)))

def accountSuccess (u : VirtualUser σ) (slots : Slots) (slot : Slot) (pending : Pending)
    (name : String) : Program (Stage σ) := do
  let (record, fault) := u.timing.complete
  let u := u.withTiming record
  match fault with
  | some fault => u.fail pending.operation name (.fatal (fault.message name))
  | none => do
    Program.emit (.completed record)
    let (policy, phase) ← u.policy.classify record
    let u := { u with policy := policy }
    Program.emit (.transaction (Sample.ofTiming pending.operation phase record))
    emitDelay pending phase record
    u.proceed slots slot

/-- Reports a failed invocation, the user's record of it being repaired. -/
def reportFailure (u : VirtualUser σ) (slots : Slots) (slot : Slot) (pending : Pending)
    (cause : ErrorChain) (repair : Timing.Repair) : Program (Stage σ) := do
  if repair.skip then do
    Program.emit (.skipped pending.operation cause)
    pure (.iterating u (slots.put slot))
  else do
    let (policy, phase) ← u.policy.classify u.timing
    let u := { u with policy := policy }
    Program.emit (.error (Sample.ofTiming pending.operation phase u.timing))
    Program.emit (.failed pending.operation phase cause)
    if repair.delayValid then emitDelay pending phase u.timing
    u.proceed slots slot

/-- Accounts for a failed invocation, or aborts the run. No abort has been raised by then, so that
a cancelled wait in the cause is one that the handler made up. -/
def accountFailure (u : VirtualUser σ) (slots : Slots) (slot : Slot) (pending : Pending)
    (name : String) (cause : ErrorChain) : Program (Stage σ) := do
  if cause.stopsRun then u.fail pending.operation name cause
  else do
    let now ← Program.clock
    let (record, repair) :=
      u.timing.repair now u.policy.earlyFailure (slot.previousStart, slot.previousEnd)
    if repair.openRequest then Program.emit (.openRequest pending.operation)
    (u.withTiming record).reportFailure slots slot pending cause repair

/-- Captures the response of an automatically timed operation. -/
def captureRespond (u : VirtualUser σ) (operation : Operation) : Program (VirtualUser σ) :=
  match operation.mode with
  | .manual => pure u
  | .automatic => do
    let now ← Program.clock
    pure (u.withTiming (u.timing.withRespond now))

/-- Accounts for the outcome of a handler, unless the run has been aborted in the meantime. -/
def account (u : VirtualUser σ) (slots : Slots) (slot : Slot) (pending : Pending)
    (operation : Operation) (ending : Ending) : Program (Stage σ) := do
  match ending with
  | .panicked =>
    let message := "handler for operation " ++ operation.name ++ " panicked"
    u.failBinding operation.name message [.panicked pending.operation]
  | .succeeded => do
    Program.emit (.returned pending.operation u.timing)
    let u ← u.captureRespond operation
    let aborted ← Program.isAborted
    if aborted then u.finish none
    else u.accountSuccess slots slot pending operation.name
  | .failed cause => do
    Program.emit (.returned pending.operation u.timing)
    let aborted ← Program.isAborted
    if aborted then u.finish none
    else u.accountFailure slots slot pending operation.name cause

def callHandler (u : VirtualUser σ) (slots : Slots) (slot : Slot) (pending : Pending)
    (operation : Operation) (handler : Handler σ) : Program (Stage σ) := do
  Program.emit (.called slot.background pending.operation pending.intended)
  let (context, state, ending) ← (handler u.state).run u.context
  { u with context := context, state := state }.account slots slot pending operation ending

/-- Waits for the time of an automatically timed operation and captures its invocation. -/
def awaitInvocation (u : VirtualUser σ) (operation : Operation) (pending : Pending) :
    Program (VirtualUser σ × Wait) :=
  match operation.mode with
  | .manual => pure (u, .reached)
  | .automatic => do
    let wait ← Program.sleepUntil pending.intended
    match wait with
    | .cancelled => pure (u, .cancelled)
    | .reached => do
      let now ← Program.clock
      pure (u.withTiming (u.timing.withInvoke now), .reached)

/-- Makes the pending invocation of a slot, which no longer holds it. -/
def invoke (w : Workload σ) (u : VirtualUser σ) (slots : Slots) (slot : Slot) (pending : Pending) :
    Program (Stage σ) :=
  if u.policy.stopBefore pending.intended then u.finish none
  else
    match w.operations[pending.operation]?, w.handlers[pending.operation]? with
    | some operation, some handler => do
      Program.emit (.invoking pending.operation pending.intended)
      let u := { u with
        context :=
          u.context.begin pending.operation operation.mode pending.intended u.policy.view }
      let (u, wait) ← u.awaitInvocation operation pending
      match wait with
      | .cancelled => u.finish none
      | .reached => u.callHandler slots slot pending operation handler
    | _, _ =>
      let name := w.operationName pending.operation
      u.failBinding name ("no handler bound to operation " ++ name) []

/-- Selects the next operation of every slot and makes the invocation that is due first. -/
def advance (w : Workload σ) (u : VirtualUser σ) (slots : Slots) : Program (Stage σ) := do
  let (slots, random, planned) := slots.plan w u.random
  let u := { u with random := random }
  emitAll planned
  let slot := slots.earliest
  match slot.pending with
  | none => u.finish none
  | some pending =>
    let slot := { slot with pending := none }
    invoke w u (slots.put slot) slot pending

/-- Goes on as the gate of the iteration says. -/
def obey (w : Workload σ) (u : VirtualUser σ) (slots : Slots) : Gate → Program (Stage σ)
  | .stop | .cancelled => u.finish none
  | .resumed => do
    let now ← Program.clock
    Program.emit .resumed
    pure (.iterating u (slots.reset now))
  | .proceed => advance w u slots

def iterate (w : Workload σ) (load : Option LoadSchedule) (u : VirtualUser σ) (slots : Slots) :
    Program (Stage σ) := do
  let aborted ← Program.isAborted
  if aborted then u.finish none
  else do
    let (policy, gate) ← u.policy.gate load u.id
    obey w { u with policy := policy } slots gate

def enter (w : Workload σ) (u : VirtualUser σ) : Program (Stage σ) := do
  let now ← Program.clock
  let (slots, random) := Slots.fresh w u.random (u.policy.initialReference now)
  Program.emit .runStarted
  pure (.iterating { u with random := random } slots)

/-- The way into the loop. A run that is aborted before a simultaneous start is over without it. -/
def start (w : Workload σ) (u : VirtualUser σ) : Program (Stage σ) := do
  Program.enrol
  let prepared ← u.policy.prepare
  match prepared with
  | none => pure (.ended u none)
  | some policy => enter w { u with policy := policy }

end VirtualUser

end LoadGen
