import LoadGen.Proofs.GateReadings

namespace LoadGen

open Program

/-- The operation that an event tells of, by its place in the workload. -/
def Event.operation? : Event → Option Nat
  | planned _ operation _ _ | invoking operation _ | called _ operation _ | returned operation _
  | panicked operation | openRequest operation | skipped operation _ | failed operation _ _
  | aborting operation _ => some operation
  | transaction sample | error sample => some sample.operation
  | delay sample => some sample.operation
  | _ => none

namespace Request

/-- The request is not an attempt to abort the run. -/
def Calm (request : Request) : Prop := ∀ cause, request ≠ .call (.abort cause)

/-- The request neither aborts the run nor tells of an operation. -/
def Modest : Request → Prop
  | .call c => ∀ cause, c ≠ .abort cause
  | .emit e => e.operation? = none

@[simp] theorem modest_call {c : Call} : Modest (.call c) ↔ ∀ cause, c ≠ .abort cause := Iff.rfl

@[simp] theorem modest_emit {e : Event} : Modest (.emit e) ↔ e.operation? = none := Iff.rfl

@[simp] theorem calm_emit {e : Event} : Calm (.emit e) := by
  intro cause aborts
  cases aborts

theorem Modest.calm {request : Request} (modest : request.Modest) : request.Calm := by
  intro cause aborts
  subst aborts
  exact modest cause rfl

end Request

namespace Context

theorem recordStart_modest (c : Context) : c.recordStart.Only Request.Modest fun _ => True := by
  unfold recordStart
  cases c.mode with
  | automatic => simp
  | manual =>
    cases c.timing.intended with
    | none => simp
    | some intended =>
      simp only [only_bind, only_sleepUntil]
      refine ⟨by simp, fun wait => ?_⟩
      cases wait <;> simp

theorem recordEnd_modest (c : Context) : c.recordEnd.Only Request.Modest fun _ => True := by
  unfold recordEnd
  cases c.mode <;> simp

theorem recordTime_modest (c : Context) : c.recordTime.Only Request.Modest fun _ => True := by
  unfold recordTime
  split
  · simpa using c.recordEnd_modest
  · exact c.recordStart_modest

theorem perform_modest (c : Context) {call : ContextCall} (calm : ∀ cause, call ≠ .abort cause) :
    (c.perform call).Only Request.Modest fun _ => True := by
  cases call with
  | abort cause => exact absurd rfl (calm cause)
  | recordTime => exact c.recordTime_modest
  | recordStart => exact c.recordStart_modest
  | recordEnd => simpa [perform] using c.recordEnd_modest
  | note content => simp [perform, Event.operation?]
  | _ => simp [perform, recordLast]

end Context

namespace Policy

theorem prepare_modest (policy : Policy) : policy.prepare.Only Request.Modest fun _ => True := by
  cases policy <;> simp only [prepare] <;> split <;> simp

theorem classify_modest (policy : Policy) (r : Timing) :
    (policy.classify r).Only Request.Modest fun _ => True :=
  ((policy.classify_only r).mono fun _ _ => trivial).weaken fun request asks => by simp [asks]

theorem requireStart_modest : TimePolicy.requireStart.Only Request.Modest fun _ => True :=
  TimePolicy.requireStart_only.weaken fun request asks => by
    rcases asks with rfl | rfl <;> simp

theorem gate_modest (policy : Policy) (load : Option LoadSchedule) (thread : Nat) :
    (policy.gate load thread).Only Request.Modest fun _ => True := by
  cases policy with
  | cycles q => trivial
  | time q =>
    simp only [gate, only_bind]
    unfold TimePolicy.gate
    cases load with
    | none =>
      unfold TimePolicy.noticeStart
      cases q.bounds with
      | some bounds => trivial
      | none =>
        simp only [only_bind, only_startTime]
        refine ⟨by simp, fun start => ?_⟩
        cases start <;> trivial
    | some schedule =>
      simp only [only_bind]
      refine requireStart_modest.mono fun start _ => ?_
      cases start with
      | none => trivial
      | some start =>
        simp only [only_bind, only_clock]
        refine ⟨by simp, fun now => ?_⟩
        split
        next => trivial
        next => trivial
        next =>
          simp only [only_bind, only_emit, only_sleepUntil]
          refine ⟨rfl, by simp, fun wait => ?_⟩
          cases wait <;> trivial

end Policy

namespace VirtualUser

variable {σ : Type}

theorem captureRespond_modest (u : VirtualUser σ) (operation : Operation) :
    (u.captureRespond operation).Only Request.Modest (·.id = u.id) := by
  unfold captureRespond
  cases operation.mode <;> simp [withTiming]

theorem awaitInvocation_modest (u : VirtualUser σ) (operation : Operation) (pending : Pending) :
    (u.awaitInvocation operation pending).Only Request.Modest (·.1.id = u.id) := by
  unfold awaitInvocation
  cases operation.mode with
  | manual => simp
  | automatic =>
    simp only [only_bind, only_sleepUntil]
    refine ⟨by simp, fun wait => ?_⟩
    cases wait <;> simp [withTiming]

theorem isAborted_modest : isAborted.Only Request.Modest fun _ => True := by simp

theorem clock_modest : clock.Only Request.Modest fun _ => True := by simp

theorem enrol_modest : enrol.Only Request.Modest fun _ => True := ⟨by simp, fun _ => trivial⟩

theorem arrive_modest : arrive.Only Request.Modest fun _ => True := ⟨by simp, fun _ => trivial⟩

end VirtualUser

end LoadGen
