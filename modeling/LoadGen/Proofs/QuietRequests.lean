import LoadGen.Proofs.Launch
import LoadGen.Proofs.ProgramLogic
import LoadGen.Proofs.SlotInvariants

namespace LoadGen

open Program

/-- The request neither plans an invocation nor reports a sample. -/
def Request.Silent : Request → Prop
  | .emit (.planned ..) | .emit (.transaction _) | .emit (.error _) => False
  | _ => True

/-- The event is neither the call of a handler nor the report of a sample. -/
def Event.isQuiet : Event → Bool
  | called .. | transaction _ | error _ => false
  | _ => true

/-- The event is quiet, and neither begins or resumes a loop, nor plans, drops or delays an
invocation. -/
def Event.isIdle : Event → Bool
  | runStarted | resumed | planned .. | called .. | transaction _ | error _ | delay _
  | skipped .. => false
  | _ => true

/-- The call looks at the start signal or at the abort signal. -/
@[simp] def Call.isPoll : Call → Bool
  | startTime | awaitStart | isAborted => true
  | _ => false

def Request.Quiet : Request → Prop
  | .emit e => e.isQuiet
  | .call c => c.isPoll = false

def Request.Idle : Request → Prop
  | .emit e => e.isIdle
  | .call c => c.isPoll = false

/-- The request is a call, or emits an idle event. -/
def Request.Plain : Request → Prop
  | .emit e => e.isIdle
  | .call _ => True

def Request.Plans (request : Request) : Prop :=
  ∃ background operation intended delay,
    request = .emit (.planned background operation intended delay)

def Request.Delays (request : Request) : Prop := ∃ sample, request = .emit (.delay sample)

@[simp] theorem quiet_emit {e : Event} : (Request.emit e).Quiet ↔ e.isQuiet := Iff.rfl

@[simp] theorem idle_call {c : Call} : (Request.call c).Idle ↔ c.isPoll = false := Iff.rfl

@[simp] theorem idle_emit {e : Event} : (Request.emit e).Idle ↔ e.isIdle := Iff.rfl

theorem Request.Idle.quiet {request : Request} (idle : request.Idle) : request.Quiet := by
  cases request with
  | call c => exact idle
  | emit e => cases e <;> first | rfl | cases idle

theorem Request.Idle.plain {request : Request} (idle : request.Idle) : request.Plain := by
  cases request with
  | call c => trivial
  | emit e => exact idle

theorem Request.Plans.quiet {request : Request} (plans : request.Plans) : request.Quiet := by
  obtain ⟨background, operation, intended, delay, rfl⟩ := plans
  rfl

theorem Request.Delays.quiet {request : Request} (delays : request.Delays) : request.Quiet := by
  obtain ⟨sample, rfl⟩ := delays
  rfl

namespace Context

theorem recordStart_only (c : Context) : c.recordStart.Only Request.Idle fun _ => True := by
  unfold recordStart
  cases c.mode with
  | automatic => simp
  | manual =>
    cases c.timing.intended with
    | none => simp
    | some intended =>
      simp only [only_bind, only_sleepUntil, idle_call]
      refine ⟨rfl, fun wait => ?_⟩
      cases wait <;> simp

theorem recordEnd_only (c : Context) : c.recordEnd.Only Request.Idle fun _ => True := by
  unfold recordEnd
  cases c.mode <;> simp

theorem recordTime_only (c : Context) : c.recordTime.Only Request.Idle fun _ => True := by
  unfold recordTime
  split
  · simpa using c.recordEnd_only
  · exact c.recordStart_only

theorem perform_only (c : Context) (call : ContextCall) :
    (c.perform call).Only Request.Idle fun _ => True := by
  cases call with
  | recordTime => exact c.recordTime_only
  | recordStart => exact c.recordStart_only
  | recordEnd => simpa [perform] using c.recordEnd_only
  | note content => simp [perform, Event.isIdle]
  | _ => simp [perform, recordLast]

end Context

/-- The policy classifies the record so, whatever it is told of the start. -/
def Policy.Classifies (r : Timing) (result : Policy × Phase) : Policy → Prop
  | cycles q => ∃ start, result = (cycles (q.classify start r).1, (q.classify start r).2)
  | time q => result = (time q, q.classify r)

/-- Classifying an invocation takes nothing but a look at the start. -/
theorem Policy.classify_only (policy : Policy) (r : Timing) :
    (policy.classify r).Only (· = .call .startTime) (policy.Classifies r) := by
  cases policy with
  | time q => rfl
  | cycles q =>
    simp only [classify]
    split
    next => exact ⟨none, rfl⟩
    next =>
      simp only [only_bind, only_startTime]
      exact ⟨trivial, fun start => ⟨start, rfl⟩⟩

theorem Policy.Classifies.earlyFailure {policy : Policy} {r : Timing} {result : Policy × Phase}
    (classified : policy.Classifies r result) : result.1.earlyFailure = policy.earlyFailure := by
  cases policy with
  | time q => rw [show result = _ from classified]
  | cycles q =>
    obtain ⟨start, rfl⟩ := classified
    rfl

theorem Behaviour.run_only {σ : Type} (b : Behaviour σ) (c : Context) :
    (b.run c).Only Request.Idle fun _ => True := by
  induction b generalizing c with
  | calls call next ih =>
    simp only [run, only_bind]
    exact (c.perform_only call).mono fun reply _ => ih reply.2 reply.1
  | _ => simp [run]

namespace VirtualUser

variable {σ : Type}

theorem emitAll_only {kind : Request → Prop} {events : List Event}
    (all : ∀ e ∈ events, kind (.emit e)) : (emitAll events).Only kind fun _ => True := by
  induction events with
  | nil => simp [emitAll]
  | cons e rest ih =>
    simp only [emitAll, only_bind, only_emit]
    exact ⟨all e (by simp), ih fun other mem => all other (List.mem_cons_of_mem e mem)⟩

theorem finish_only (u : VirtualUser σ) (error : Option RunError) :
    (u.finish error).Only Request.Idle (· = .ended u error) := by
  simp [finish, Event.isIdle]

theorem fail_only (u : VirtualUser σ) (operation : Nat) (name : String) (cause : ErrorChain) :
    (u.fail operation name cause).Only Request.Idle
      (· = .ended u (some (.fatal u.id name cause))) := by
  simp only [fail, only_bind, only_abort, idle_call]
  refine ⟨rfl, fun first => ?_⟩
  cases first
  · simpa using u.finish_only _
  · simpa [Event.isIdle] using u.finish_only _

theorem failBinding_only (u : VirtualUser σ) (name message : String) {events : List Event}
    (idle : ∀ e ∈ events, e.isIdle) :
    (u.failBinding name message events).Only Request.Idle
      (· = .ended u (some (.binding u.id message))) := by
  simp only [failBinding, only_bind, only_abort, idle_call]
  refine ⟨rfl, fun _ => ?_⟩
  exact (emitAll_only idle).mono fun _ _ => u.finish_only _

theorem awaitInvocation_only (u : VirtualUser σ) (operation : Operation) (pending : Pending) :
    (u.awaitInvocation operation pending).Only Request.Idle (·.1.policy = u.policy) := by
  unfold awaitInvocation
  cases operation.mode with
  | manual => simp
  | automatic =>
    simp only [only_bind, only_sleepUntil, idle_call]
    refine ⟨rfl, fun wait => ?_⟩
    cases wait <;> simp [withTiming]

theorem captureRespond_only (u : VirtualUser σ) (operation : Operation) :
    (u.captureRespond operation).Only Request.Idle (·.policy = u.policy) := by
  unfold captureRespond
  cases operation.mode <;> simp [withTiming]

theorem emitDelay_only (pending : Pending) (phase : Phase) (r : Timing) :
    (emitDelay pending phase r).Only Request.Delays fun _ => True := by
  unfold emitDelay
  split <;> simp [Request.Delays]

theorem plan_only (slots : Slots) (w : Workload σ) (r : ChaCha) :
    (emitAll (slots.plan w r).2.2).Only Request.Plans fun _ => True := by
  have all : slots.All fun _ => True := ⟨trivial, fun _ _ => trivial⟩
  refine emitAll_only fun e mem => ?_
  obtain ⟨_, _, _, -, -, rfl⟩ := all.exists_of_mem_plan (fun _ _ holds => holds) mem
  exact ⟨_, _, _, _, rfl⟩

end VirtualUser

namespace RunPlan

variable {σ : Type} (p : RunPlan σ)

theorem conclude_only (u : VirtualUser σ) (error : Option RunError) :
    (p.conclude u error).Only Request.Idle fun stage => ∃ result, stage = .finished result := by
  unfold conclude
  split
  next id hook _ _ =>
    simp only [only_bind, only_emit, idle_emit]
    refine ⟨rfl, ?_⟩
    split <;> simp [Event.isIdle]
  next => exact ⟨_, rfl⟩

theorem conduct_only :
    p.conduct.Only Request.Idle fun stage => ∃ now, stage = .conducted now := by
  simp [conduct]

/-- The thread has been initialized as a user of the plan, or is over. -/
def Launched (p : RunPlan σ) (id : Nat) (stage : Stage σ) : Prop :=
  (∃ state, stage = .ready (p.user id state)) ∨ ∃ result, stage = .finished result

theorem enter_only (id : Nat) (state : σ) :
    (p.enter id state).Only Request.Idle (p.Launched id) := by
  simp only [enter, only_bind, only_arrive, idle_call]
  exact ⟨rfl, Or.inl ⟨state, rfl⟩⟩

theorem failInitialization_only (id : Nat) (cause : ErrorChain) :
    (p.failInitialization id cause).Only Request.Idle (p.Launched id) := by
  simp [failInitialization, Event.isIdle, Launched]

theorem breakDown_only (id : Nat) : (breakDown id).Only Request.Idle (p.Launched id) := by
  simp [breakDown, Launched]

theorem settle_only (id : Nat) (outcome : Creation σ) :
    (p.settle id outcome).Only Request.Idle (p.Launched id) := by
  cases outcome with
  | created state => exact p.enter_only id state
  | failed cause => exact p.failInitialization_only id cause
  | panicked => exact p.breakDown_only id

theorem launch_only (id : Nat) : (p.launch id).Only Request.Idle (p.Launched id) := by
  rcases p.launch_cases id with same | ⟨same, -⟩
  · simp only [same, only_bind, only_emit, idle_emit]
    exact ⟨rfl, p.settle_only id _⟩
  · rw [same]
    exact p.settle_only id _

end RunPlan

end LoadGen
