import LoadGen.Ensemble
import LoadGen.Metrics
import LoadGen.RunControl
import LoadGen.VirtualUser

namespace LoadGen

/-- The policy of every thread at its beginning. -/
def RunControl.policy (c : RunControl) : Policy :=
  match c.mode with
  | .cycles rampUp steadyState rampDown =>
    .cycles (CyclePolicy.ofLengths rampUp steadyState rampDown c.simultaneous)
  | .time rampUp steadyState rampDown =>
    .time (TimePolicy.ofLengths rampUp steadyState rampDown c.simultaneous)

/-- A workload with its control and the seed of the first thread. -/
structure RunPlan (σ : Type) where
  workload : Workload σ
  control : RunControl
  seed : Nat

namespace RunPlan

variable {σ : Type}

/-- Accepts a control that fits the workload. -/
def create (w : Workload σ) (c : RunControl) (seed : Nat) : Except RunError (RunPlan σ) :=
  match c.check w with
  | .ok () => .ok ⟨w, c, seed⟩
  | .error e => .error (.runControl e.message)

def threads (p : RunPlan σ) : Nat := p.control.threadCount p.workload

def user (p : RunPlan σ) (id : Nat) (state : σ) : VirtualUser σ :=
  VirtualUser.create p.workload id state p.control.policy (p.seed + id)

/-- A thread whose initialization has failed aborts the run. -/
def failInitialization (p : RunPlan σ) (id : Nat) (cause : ErrorChain) : Program (Stage σ) := do
  Program.emit (.initializationFailed cause)
  let _ ← Program.abort ⟨id, "", cause.full⟩
  Program.arrive
  pure (.finished ⟨id, false, some (.initialization id p.workload.name cause)⟩)

/-- A thread that breaks down while it is initialized. -/
def breakDown (id : Nat) : Program (Stage σ) := do
  Program.arrive
  pure (.finished ⟨id, false, some (.panicked id)⟩)

def enter (p : RunPlan σ) (id : Nat) (state : σ) : Program (Stage σ) := do
  Program.arrive
  pure (.ready (p.user id state))

/-- The hook before the run belongs to the first thread. -/
def prepare (p : RunPlan σ) (id : Nat) (state : σ) : Program (Stage σ) :=
  match id, p.workload.beforeRun with
  | 0, some hook => do
    Program.emit .hookBefore
    match hook state with
    | (state, .succeeded) => p.enter id state
    | (_, .failed cause) => p.failInitialization id (cause.inContext "once-before hook failed")
    | (_, .panicked) => breakDown id
  | _, _ => p.enter id state

/-- The initialization of a thread: its metrics, its instance, and the hook before the run. -/
def launch (p : RunPlan σ) (id : Nat) : Program (Stage σ) :=
  match Metrics.empty p.workload id with
  | .error .overflow => breakDown id
  | .error (.refused e) => p.failInitialization id (.plain e.message)
  | .ok _ =>
    match p.workload.create id with
    | .created state => p.prepare id state
    | .failed cause => p.failInitialization id cause
    | .panicked => breakDown id

/-- The end of a thread. The hook after the run belongs to the first one, and its failure changes
nothing. -/
def conclude (p : RunPlan σ) (u : VirtualUser σ) (error : Option RunError) : Program (Stage σ) :=
  match u.id, p.workload.afterRun with
  | 0, some hook => do
    Program.emit .hookAfter
    match (hook u.state).2 with
    | .succeeded => pure (.finished ⟨u.id, true, error⟩)
    | .failed cause => do
      Program.emit (.hookAfterFailed cause)
      pure (.finished ⟨u.id, true, error⟩)
    | .panicked => pure (.finished ⟨u.id, false, some (.panicked u.id)⟩)
  | _, _ => pure (.finished ⟨u.id, true, error⟩)

/-- Fixes the start time after the last initialization. -/
def conduct (p : RunPlan σ) : Program (Stage σ) := do
  Program.awaitAll
  let now ← Program.clock
  let _ ← Program.fixStart (Stamp.plus now (Stamp.ofSpan p.control.startDelay))
  let now ← Program.clock
  pure (.conducted now)

def follow (p : RunPlan σ) : Stage σ → Option (Program (Stage σ))
  | .starting id => some (p.launch id)
  | .ready u => some (u.start p.workload)
  | .iterating u slots => some (u.iterate p.workload p.control.load slots)
  | .ended u error => some (p.conclude u error)
  | .conducting => some p.conduct
  | .finished _ | .conducted _ => none

/-- The threads of the virtual users in order, and the conducting one after them. -/
def ensemble (p : RunPlan σ) : Ensemble (Stage σ) :=
  let users := (List.range p.threads).map fun id => Member.atStage (Stage.starting id)
  ⟨Signals.fresh p.threads, (users ++ [Member.atStage Stage.conducting]).toArray⟩

end RunPlan

end LoadGen
