import LoadGen.Proofs.StartKnowledge

namespace LoadGen

open Program

/-- The thread goes on with a policy, or leaves its loop with it. -/
def Stage.Carries {σ : Type} (policy : Policy) : Stage σ → Prop
  | .iterating u _ | .ended u _ => u.policy = policy
  | _ => False

namespace VirtualUser

variable {σ : Type} {u : VirtualUser σ} {q : TimePolicy} {w : Workload σ}

theorem carries_of_ends {p : Program (Stage σ)} {v : VirtualUser σ} {error : Option RunError}
    (only : p.Only Request.Idle (· = .ended v error)) :
    p.Only Request.Settled (Stage.Carries v.policy) := by
  have settled := only.weaken fun _ => Request.Idle.settled
  refine settled.mono fun stage ends => ?_
  subst ends
  rfl

theorem finish_carries (policy : u.policy = .time q) (error : Option RunError) :
    (u.finish error).Only Request.Settled (Stage.Carries (.time q)) :=
  policy ▸ carries_of_ends (u.finish_only error)

theorem fail_carries (policy : u.policy = .time q) (operation : Nat) (name : String)
    (cause : ErrorChain) :
    (u.fail operation name cause).Only Request.Settled (Stage.Carries (.time q)) :=
  policy ▸ carries_of_ends (u.fail_only operation name cause)

theorem failBinding_carries (policy : u.policy = .time q) (name message : String)
    {events : List Event} (idle : ∀ e ∈ events, e.isIdle) :
    (u.failBinding name message events).Only Request.Settled (Stage.Carries (.time q)) :=
  policy ▸ carries_of_ends (u.failBinding_only name message idle)

theorem proceed_carries (policy : u.policy = .time q) (slots : Slots) (slot : Slot) :
    (u.proceed slots slot).Only Request.Settled (Stage.Carries (.time q)) := by
  unfold proceed
  split
  next => exact finish_carries policy none
  next => exact policy

theorem emitDelay_settled (pending : Pending) (phase : Phase) (r : Timing) :
    (emitDelay pending phase r).Only Request.Settled fun _ => True :=
  (emitDelay_only pending phase r).weaken fun _ delays => (Request.Delays.quiet delays).settled

theorem accountSuccess_carries (policy : u.policy = .time q) (slots : Slots) (slot : Slot)
    (pending : Pending) (name : String) :
    (u.accountSuccess slots slot pending name).Only Request.Settled
      (Stage.Carries (.time q)) := by
  unfold accountSuccess
  cases completed : u.timing.complete with
  | mk record fault =>
    have same : (u.withTiming record).policy = .time q := policy
    cases fault with
    | some fault => exact fail_carries same _ _ _
    | none =>
      simp only [only_bind, only_emit, same, Policy.classify, only_pure]
      refine ⟨trivial, trivial, ?_⟩
      exact (emitDelay_settled _ _ _).mono fun _ _ => proceed_carries rfl _ _

theorem reportFailure_carries (policy : u.policy = .time q) (slots : Slots) (slot : Slot)
    (pending : Pending) (cause : ErrorChain) (repair : Timing.Repair) :
    (u.reportFailure slots slot pending cause repair).Only Request.Settled
      (Stage.Carries (.time q)) := by
  unfold reportFailure
  split
  next =>
    simp only [only_bind, only_emit]
    exact ⟨trivial, policy⟩
  next =>
    simp only [only_bind, only_emit, policy, Policy.classify, only_pure]
    refine ⟨trivial, trivial, ?_⟩
    split
    next =>
      rw [only_bind]
      exact (emitDelay_settled _ _ _).mono fun _ _ => proceed_carries rfl _ _
    next => exact proceed_carries rfl _ _

theorem accountFailure_carries (policy : u.policy = .time q) (slots : Slots) (slot : Slot)
    (pending : Pending) (name : String) (cause : ErrorChain) :
    (u.accountFailure slots slot pending name cause).Only Request.Settled
      (Stage.Carries (.time q)) := by
  unfold accountFailure
  split
  next => exact fail_carries policy _ _ _
  next =>
    have same : ∀ record, (u.withTiming record).policy = .time q := fun _ => policy
    simp only [only_bind, only_clock]
    refine ⟨rfl, fun now => ?_⟩
    split
    next =>
      simp only [only_bind, only_emit]
      exact ⟨trivial, reportFailure_carries (same _) _ _ _ _ _⟩
    next => exact reportFailure_carries (same _) _ _ _ _ _

theorem account_carries (policy : u.policy = .time q) (slots : Slots) (slot : Slot)
    (pending : Pending) (operation : Operation) (ending : Ending) :
    (u.account slots slot pending operation ending).Only Request.Settled
      (Stage.Carries (.time q)) := by
  unfold account
  cases ending with
  | panicked => exact failBinding_carries policy _ _ (by simp [Event.isIdle])
  | failed cause =>
    simp only [only_bind, only_emit, only_isAborted]
    refine ⟨trivial, rfl, fun aborted => ?_⟩
    cases aborted with
    | true => exact finish_carries policy _
    | false => exact accountFailure_carries policy _ _ _ _ _
  | succeeded =>
    simp only [only_bind, only_emit, only_isAborted]
    refine ⟨trivial, ?_⟩
    refine ((u.captureRespond_only operation).weaken fun _ => Request.Idle.settled).mono ?_
    intro v same
    have policy : v.policy = .time q := same.trans policy
    refine ⟨rfl, fun aborted => ?_⟩
    cases aborted with
    | true => exact finish_carries policy _
    | false => exact accountSuccess_carries policy _ _ _ _

section Untelling

theorem untelling_of_settled {p : Program (Stage σ)} {result : Stage σ → Prop}
    (only : p.Only Request.Settled result) : p.Only Request.Untelling result :=
  only.weaken fun _ => Request.Settled.untelling

theorem callHandler_carries (policy : u.policy = .time q) (slots : Slots) (slot : Slot)
    (pending : Pending) (operation : Operation) (handler : Handler σ) :
    (u.callHandler slots slot pending operation handler).Only Request.Untelling
      (Stage.Carries (.time q)) := by
  have runs := ((handler u.state).run_only u.context).weaken
    fun _ idle => (Request.Idle.settled idle).untelling
  simp only [callHandler, only_bind, only_emit]
  refine ⟨trivial, runs.mono fun result _ => ?_⟩
  have same : ({ u with context := result.1, state := result.2.1 } : VirtualUser σ).policy
    = .time q := policy
  exact untelling_of_settled (account_carries same _ _ _ _ _)

theorem invoke_carries (policy : u.policy = .time q) (slots : Slots) (slot : Slot)
    (pending : Pending) :
    (u.invoke w slots slot pending).Only Request.Untelling (Stage.Carries (.time q)) := by
  unfold invoke
  split
  next => exact untelling_of_settled (finish_carries policy none)
  next =>
    split
    next operation handler _ _ =>
      simp only [only_bind, only_emit]
      refine ⟨trivial, ((awaitInvocation_only _ operation pending).weaken
        fun _ idle => (Request.Idle.settled idle).untelling).mono fun result same => ?_⟩
      obtain ⟨v, wait⟩ := result
      have policy : v.policy = .time q := same.trans policy
      cases wait with
      | cancelled => exact untelling_of_settled (finish_carries policy none)
      | reached => exact callHandler_carries policy _ _ _ _ _
    next => exact untelling_of_settled (failBinding_carries policy _ _ (by simp))

theorem advance_carries (policy : u.policy = .time q) (slots : Slots) :
    (u.advance w slots).Only Request.Untelling (Stage.Carries (.time q)) := by
  have plans := (plan_only slots w u.random).weaken
    fun _ plans => (Request.Plans.quiet plans).settled.untelling
  simp only [advance, only_bind]
  refine plans.mono fun _ _ => ?_
  split
  next => exact untelling_of_settled (finish_carries policy none)
  next =>
    refine invoke_carries ?_ _ _ _
    exact policy

theorem obey_carries (policy : u.policy = .time q) (slots : Slots) (gate : Gate) :
    (u.obey w slots gate).Only Request.Untelling (Stage.Carries (.time q)) := by
  cases gate with
  | proceed => exact advance_carries policy slots
  | resumed =>
    simp only [obey, only_bind, only_clock, only_emit, only_pure]
    exact ⟨rfl, fun now => ⟨trivial, policy⟩⟩
  | stop => exact untelling_of_settled (finish_carries policy none)
  | cancelled => exact untelling_of_settled (finish_carries policy none)

end Untelling

end VirtualUser

end LoadGen
