import LoadGen.Proofs.FailedThreads
import LoadGen.Proofs.ModestRequests
import LoadGen.Proofs.OneShot

namespace LoadGen

open Program History

/-- No course of the handler aborts the run by itself. The signals of a run are kept from its
handlers; only trials of the coordination let a handler use them. -/
def Behaviour.NeverAborts {σ : Type} : Behaviour σ → Prop
  | calls c next => (∀ cause, c ≠ .abort cause) ∧ ∀ answer, (next answer).NeverAborts
  | succeeds _ | fails _ _ | panics _ => True

def Workload.NeverAborts {σ : Type} (w : Workload σ) : Prop :=
  ∀ handler ∈ w.handlers, ∀ state, (handler state).NeverAborts

namespace Request

/-- The thread aborts the run in no other name than its own. -/
def InNameOf (thread : Nat) (request : Request) : Prop :=
  ∀ cause, request = .call (.abort cause) → cause.thread = thread

theorem Calm.inNameOf {request : Request} (calm : request.Calm) (thread : Nat) :
    request.InNameOf thread :=
  fun cause aborts => absurd aborts (calm cause)

@[simp] theorem calm_call {c : Call} : Calm (.call c) ↔ ∀ cause, c ≠ .abort cause := by
  simp [Calm]

@[simp] theorem inNameOf_emit {thread : Nat} {e : Event} : InNameOf thread (.emit e) :=
  calm_emit.inNameOf thread

@[simp] theorem inNameOf_abort {thread : Nat} {cause : AbortCause} :
    InNameOf thread (.call (.abort cause)) ↔ cause.thread = thread := by
  refine ⟨fun own => own cause rfl, fun own other aborts => ?_⟩
  cases aborts
  exact own

theorem Delays.calm {request : Request} (delays : request.Delays) : request.Calm := by
  obtain ⟨sample, rfl⟩ := delays
  exact calm_emit

theorem Plans.calm {request : Request} (plans : request.Plans) : request.Calm := by
  obtain ⟨background, operation, intended, delay, rfl⟩ := plans
  exact calm_emit

end Request

theorem History.Aborts.of_cons {x : Exchange} {h : History} (aborts : Aborts (x :: h))
    (calm : x.request.Calm) : h.Aborts := by
  obtain ⟨y, mem, cause, asks⟩ := aborts
  rcases List.mem_cons.mp mem with rfl | old
  · exact absurd asks (calm cause)
  · exact ⟨y, old, cause, asks⟩

/-- An error of the thread, as it stands in its report. -/
def RunError.IsOf (thread : Nat) (error : Option RunError) : Prop :=
  ∃ e, error = some e ∧ e.thread? = some thread

/-- Between two programs a thread has not tried to abort the run, or it keeps an error. -/
def Stage.Blames {σ : Type} (thread : Nat) : Stage σ → History → Prop
  | .starting id, h => id = thread ∧ ¬ h.Aborts
  | .ready u, h | .iterating u _, h => u.id = thread ∧ ¬ h.Aborts
  | .ended u error, h => u.id = thread ∧ (h.Aborts → RunError.IsOf thread error)
  | .finished result, h => result.thread = thread ∧ (h.Aborts → RunError.IsOf thread result.error)
  | .conducting, h | .conducted _, h => ¬ h.Aborts

/-- Whatever the program is told, it aborts the run in the thread's own name alone, and ends with an
error of the thread if it does so. -/
def RunPlan.Blames {σ : Type} (thread : Nat) (q : Program (Stage σ)) (h : History) : Prop :=
  q.Ensures (fun _ _ => True) (fun x _ => x.request.InNameOf thread) (Stage.Blames thread) h

section Blames

variable {σ α : Type} {i : Nat} {h : History}

/-- A thread that has an error of its own may have done anything. -/
theorem blames_of_error {q : Program (Stage σ)} (only : q.Only (Request.InNameOf i) fun stage =>
    ∀ h, stage.Blames i h) : RunPlan.Blames i q h :=
  (only.ensures_of_safe fun _ _ own => own).mono fun _ h blames => blames h

/-- What a program does before it tries to abort the run leaves everything open. -/
theorem blames_bind {q : Program α} {f : α → Program (Stage σ)} {result : α → Prop}
    (only : q.Only Request.Calm result) (unaborted : ¬ h.Aborts)
    (rest : ∀ a (h : History), result a → ¬ h.Aborts → RunPlan.Blames i (f a) h) :
    RunPlan.Blames i (q >>= f) h := by
  have step : ∀ (x : Exchange) (h : History), x.request.Calm → True → ¬ h.Aborts →
      x.request.InNameOf i ∧ ¬ Aborts (x :: h) :=
    fun x h calm _ before => ⟨calm.inNameOf i, fun aborts => before (aborts.of_cons calm)⟩
  have ends : q.Ensures (fun _ _ => True) (fun x _ => x.request.InNameOf i)
      (fun a h => result a ∧ ¬ h.Aborts) h := only.ensures step unaborted
  exact ensures_bind.mpr (ends.mono fun a h ends => rest a h ends.1 ends.2)

theorem blames_ask {q : Program α} {f : α → Program (Stage σ)} {result : α → Prop}
    (only : q.Only Request.Modest result) (unaborted : ¬ h.Aborts)
    (rest : ∀ a (h : History), result a → ¬ h.Aborts → RunPlan.Blames i (f a) h) :
    RunPlan.Blames i (q >>= f) h :=
  blames_bind (only.weaken fun _ => Request.Modest.calm) unaborted rest

theorem blames_emit {e : Event} {f : Unit → Program (Stage σ)} (unaborted : ¬ h.Aborts)
    (rest : ∀ h : History, ¬ h.Aborts → RunPlan.Blames i (f ()) h) :
    RunPlan.Blames i (emit e >>= f) h := by
  have emits : (emit e).Only Request.Calm fun _ => True := by simp
  exact blames_bind emits unaborted fun _ h _ => rest h

end Blames

theorem Behaviour.run_calm {σ : Type} {b : Behaviour σ} (never : b.NeverAborts) (c : Context) :
    (b.run c).Only Request.Calm fun _ => True := by
  induction b generalizing c with
  | calls call next ih =>
    simp only [run, only_bind]
    have modest := (c.perform_modest never.1).weaken fun _ => Request.Modest.calm
    exact modest.mono fun reply _ => ih reply.2 (never.2 reply.2) reply.1
  | _ => trivial

namespace VirtualUser

variable {σ : Type} {i : Nat} {h : History}

/-- A thread that leaves its loop without an error has not tried to abort the run. -/
theorem finish_blames (u : VirtualUser σ) (own : u.id = i) (unaborted : ¬ h.Aborts) :
    RunPlan.Blames i (u.finish none) h :=
  blames_emit unaborted fun _ before => ⟨own, fun aborts => absurd aborts before⟩

theorem fail_blames (u : VirtualUser σ) (operation : Nat) (name : String) (cause : ErrorChain)
    (own : u.id = i) : RunPlan.Blames i (u.fail operation name cause) h := by
  have ends : ∀ h, (Stage.ended u (some (.fatal u.id name cause))).Blames i h :=
    fun _ => ⟨own, fun _ => ⟨_, rfl, congrArg some own⟩⟩
  apply blames_of_error
  simp only [fail, finish, only_bind, only_abort, Request.inNameOf_abort]
  refine ⟨own, fun first => ?_⟩
  cases first <;> simp [ends]

theorem failBinding_blames (u : VirtualUser σ) (name message : String) (events : List Event)
    (own : u.id = i) : RunPlan.Blames i (u.failBinding name message events) h := by
  have ends : ∀ h, (Stage.ended u (some (.binding u.id message))).Blames i h :=
    fun _ => ⟨own, fun _ => ⟨_, rfl, congrArg some own⟩⟩
  apply blames_of_error
  simp only [failBinding, finish, only_bind, only_abort, Request.inNameOf_abort]
  refine ⟨own, fun _ => (emitAll_only fun _ _ => Request.inNameOf_emit).mono fun _ _ => ?_⟩
  simp [ends]

theorem proceed_blames (u : VirtualUser σ) (slots : Slots) (slot : Slot) (own : u.id = i)
    (unaborted : ¬ h.Aborts) : RunPlan.Blames i (u.proceed slots slot) h := by
  unfold proceed
  split
  next => exact u.finish_blames own unaborted
  next => exact ⟨own, unaborted⟩

theorem emitDelay_calm (pending : Pending) (phase : Phase) (r : Timing) :
    (emitDelay pending phase r).Only Request.Calm fun _ => True :=
  (emitDelay_only pending phase r).weaken fun _ => Request.Delays.calm

theorem accountSuccess_blames (u : VirtualUser σ) (slots : Slots) (slot : Slot)
    (pending : Pending) (name : String) (own : u.id = i) (unaborted : ¬ h.Aborts) :
    RunPlan.Blames i (u.accountSuccess slots slot pending name) h := by
  unfold accountSuccess
  cases u.timing.complete with
  | mk record fault =>
    cases fault with
    | some fault => exact (u.withTiming record).fail_blames _ _ _ own
    | none =>
      refine blames_emit unaborted fun _ unaborted => ?_
      refine blames_ask (u.policy.classify_modest record) unaborted
        fun classified _ _ unaborted => ?_
      refine blames_emit unaborted fun _ unaborted => ?_
      refine blames_bind (emitDelay_calm _ _ _) unaborted fun _ _ _ unaborted => ?_
      exact proceed_blames _ slots slot own unaborted

theorem reportFailure_blames (u : VirtualUser σ) (slots : Slots) (slot : Slot)
    (pending : Pending) (cause : ErrorChain) (repair : Timing.Repair) (own : u.id = i)
    (unaborted : ¬ h.Aborts) :
    RunPlan.Blames i (u.reportFailure slots slot pending cause repair) h := by
  unfold reportFailure
  split
  next => exact blames_emit unaborted fun _ unaborted => ⟨own, unaborted⟩
  next =>
    refine blames_ask (u.policy.classify_modest u.timing) unaborted
      fun classified _ _ unaborted => ?_
    refine blames_emit unaborted fun _ unaborted => blames_emit unaborted fun _ unaborted => ?_
    split
    next =>
      refine blames_bind (emitDelay_calm _ _ _) unaborted fun _ _ _ unaborted => ?_
      exact proceed_blames _ slots slot own unaborted
    next => exact proceed_blames _ slots slot own unaborted

theorem accountFailure_blames (u : VirtualUser σ) (slots : Slots) (slot : Slot)
    (pending : Pending) (name : String) (cause : ErrorChain) (own : u.id = i)
    (unaborted : ¬ h.Aborts) :
    RunPlan.Blames i (u.accountFailure slots slot pending name cause) h := by
  unfold accountFailure
  split
  next => exact u.fail_blames _ _ _ own
  next =>
    refine blames_ask clock_modest unaborted fun now h _ unaborted => ?_
    dsimp only
    split
    next =>
      refine blames_emit unaborted fun _ unaborted => ?_
      exact reportFailure_blames _ _ _ _ _ _ own unaborted
    next => exact reportFailure_blames _ _ _ _ _ _ own unaborted

theorem account_blames (u : VirtualUser σ) (slots : Slots) (slot : Slot) (pending : Pending)
    (operation : Operation) (ending : Ending) (own : u.id = i) (unaborted : ¬ h.Aborts) :
    RunPlan.Blames i (u.account slots slot pending operation ending) h := by
  unfold account
  cases ending with
  | panicked => exact u.failBinding_blames _ _ _ own
  | succeeded =>
    refine blames_emit unaborted fun _ unaborted => ?_
    refine blames_ask (u.captureRespond_modest operation) unaborted fun v _ same unaborted => ?_
    have own : v.id = i := same.trans own
    refine blames_ask isAborted_modest unaborted fun aborted _ _ unaborted => ?_
    cases aborted with
    | true => exact v.finish_blames own unaborted
    | false => exact v.accountSuccess_blames _ _ _ _ own unaborted
  | failed cause =>
    refine blames_emit unaborted fun _ unaborted => ?_
    refine blames_ask isAborted_modest unaborted fun aborted _ _ unaborted => ?_
    cases aborted with
    | true => exact u.finish_blames own unaborted
    | false => exact u.accountFailure_blames _ _ _ _ _ own unaborted

theorem callHandler_blames (u : VirtualUser σ) (slots : Slots) (slot : Slot) (pending : Pending)
    (operation : Operation) {handler : Handler σ} (never : ∀ state, (handler state).NeverAborts)
    (own : u.id = i) (unaborted : ¬ h.Aborts) :
    RunPlan.Blames i (u.callHandler slots slot pending operation handler) h := by
  unfold callHandler
  refine blames_emit unaborted fun _ unaborted => ?_
  refine blames_bind (Behaviour.run_calm (never u.state) u.context) unaborted
    fun result _ _ unaborted => ?_
  exact account_blames _ _ _ _ _ _ own unaborted

variable {w : Workload σ}

theorem invoke_blames (never : w.NeverAborts) (u : VirtualUser σ) (slots : Slots) (slot : Slot)
    (pending : Pending) (own : u.id = i) (unaborted : ¬ h.Aborts) :
    RunPlan.Blames i (u.invoke w slots slot pending) h := by
  unfold invoke
  split
  next => exact u.finish_blames own unaborted
  next =>
    split
    next operation handler _ bound =>
      refine blames_emit unaborted fun _ unaborted => ?_
      refine blames_ask (awaitInvocation_modest _ operation pending) unaborted
        fun result _ same unaborted => ?_
      obtain ⟨v, wait⟩ := result
      have own : v.id = i := same.trans own
      cases wait with
      | cancelled => exact v.finish_blames own unaborted
      | reached =>
        have never := never handler (List.mem_of_getElem? bound)
        exact v.callHandler_blames _ _ _ _ never own unaborted
    next => exact u.failBinding_blames _ _ _ own

theorem advance_blames (never : w.NeverAborts) (u : VirtualUser σ) (slots : Slots)
    (own : u.id = i) (unaborted : ¬ h.Aborts) : RunPlan.Blames i (u.advance w slots) h := by
  have plans := (plan_only slots w u.random).weaken fun _ => Request.Plans.calm
  unfold advance
  refine blames_bind plans unaborted fun _ _ _ unaborted => ?_
  dsimp only
  split
  next => exact finish_blames _ own unaborted
  next => exact invoke_blames never _ _ _ _ own unaborted

theorem iterate_blames (never : w.NeverAborts) (u : VirtualUser σ) (load : Option LoadSchedule)
    (slots : Slots) (own : u.id = i) (unaborted : ¬ h.Aborts) :
    RunPlan.Blames i (u.iterate w load slots) h := by
  refine blames_ask isAborted_modest unaborted fun aborted _ _ unaborted => ?_
  cases aborted with
  | true => exact u.finish_blames own unaborted
  | false =>
    refine blames_ask (u.policy.gate_modest load u.id) unaborted fun result _ _ unaborted => ?_
    obtain ⟨policy, gate⟩ := result
    cases gate with
    | stop | cancelled => exact finish_blames _ own unaborted
    | resumed =>
      refine blames_ask clock_modest unaborted fun _ _ _ unaborted => ?_
      exact blames_emit unaborted fun _ unaborted => ⟨own, unaborted⟩
    | proceed => exact advance_blames never _ slots own unaborted

theorem start_blames (u : VirtualUser σ) (own : u.id = i) (unaborted : ¬ h.Aborts) :
    RunPlan.Blames i (u.start w) h := by
  refine blames_ask enrol_modest unaborted fun _ _ _ unaborted => ?_
  refine blames_ask u.policy.prepare_modest unaborted fun prepared _ _ unaborted => ?_
  cases prepared with
  | none => exact ⟨own, fun aborts => absurd aborts unaborted⟩
  | some policy =>
    refine blames_ask clock_modest unaborted fun _ _ _ unaborted => ?_
    exact blames_emit unaborted fun _ unaborted => ⟨own, unaborted⟩

end VirtualUser

namespace RunPlan

variable {σ : Type} {p : RunPlan σ} {i : Nat} {h : History}

/-- A thread whose initialization fails ends with that error. -/
theorem failInitialization_blames (p : RunPlan σ) (cause : ErrorChain) :
    RunPlan.Blames i (p.failInitialization i cause) h := by
  have ends : ∀ h, (Stage.finished (σ := σ)
      ⟨i, false, some (.initialization i p.workload.name cause)⟩).Blames i h :=
    fun _ => ⟨rfl, fun _ => ⟨_, rfl, rfl⟩⟩
  apply blames_of_error
  simp [failInitialization, ends, Request.Calm.inNameOf]

theorem settle_blames (p : RunPlan σ) (outcome : Creation σ) (unaborted : ¬ h.Aborts) :
    RunPlan.Blames i (p.settle i outcome) h := by
  cases outcome with
  | created state =>
    exact blames_ask VirtualUser.arrive_modest unaborted fun _ _ _ unaborted => ⟨rfl, unaborted⟩
  | failed cause => exact p.failInitialization_blames cause
  | panicked =>
    exact blames_ask VirtualUser.arrive_modest unaborted fun _ _ _ unaborted =>
      ⟨rfl, fun aborts => absurd aborts unaborted⟩

theorem launch_blames (p : RunPlan σ) (unaborted : ¬ h.Aborts) :
    RunPlan.Blames i (p.launch i) h := by
  rcases p.launch_cases i with same | ⟨same, -⟩
  · rw [same]
    exact blames_emit unaborted fun _ unaborted => p.settle_blames _ unaborted
  · rw [same]
    exact p.settle_blames _ unaborted

/-- The hook after the run leaves the error as it is, or puts one of the thread in its place. -/
theorem conclude_blames (p : RunPlan σ) {u : VirtualUser σ} {error : Option RunError}
    (own : u.id = i) (blamed : h.Aborts → RunError.IsOf i error) :
    RunPlan.Blames i (p.conclude u error) h := by
  have calm : (p.conclude u error).Only Request.Calm fun stage => ∃ completed error',
      stage = .finished ⟨u.id, completed, error'⟩ ∧
        (error' = error ∨ error' = some (.panicked u.id)) := by
    unfold conclude
    split
    next =>
      simp only [only_bind, only_emit]
      refine ⟨by simp, ?_⟩
      split <;> simp
    next => exact ⟨_, _, rfl, Or.inl rfl⟩
  have step : ∀ (x : Exchange) (h' : History), x.request.Calm → True →
      (h'.Aborts → h.Aborts) → x.request.InNameOf i ∧ (Aborts (x :: h') → h.Aborts) :=
    fun x h' calm _ before => ⟨calm.inNameOf i, fun aborts => before (aborts.of_cons calm)⟩
  have ends : (p.conclude u error).Ensures (fun _ _ => True) (fun x _ => x.request.InNameOf i)
      _ h := calm.ensures step id
  refine ends.mono fun stage h' ended => ?_
  obtain ⟨⟨completed, error', rfl, error⟩, before⟩ := ended
  refine ⟨own, fun aborts => ?_⟩
  rcases error with rfl | rfl
  · exact blamed (before aborts)
  · exact ⟨_, rfl, congrArg some own⟩

theorem conduct_blames (p : RunPlan σ) (unaborted : ¬ h.Aborts) :
    RunPlan.Blames i p.conduct h := by
  have calm : p.conduct.Only Request.Calm fun stage => ∃ now, stage = .conducted now := by
    simp [conduct]
  have same : p.conduct = p.conduct >>= pure := (bind_pure _).symm
  rw [same]
  refine blames_bind calm unaborted fun stage _ conducted unaborted => ?_
  obtain ⟨now, rfl⟩ := conducted
  exact unaborted

theorem follow_blames (never : p.workload.NeverAborts) {stage : Stage σ}
    {next : Program (Stage σ)} (blames : stage.Blames i h)
    (follows : p.follow stage = some next) : RunPlan.Blames i next h := by
  cases stage with
  | starting id =>
    cases follows
    obtain ⟨rfl, unaborted⟩ := blames
    exact p.launch_blames unaborted
  | ready u =>
    cases follows
    exact u.start_blames blames.1 blames.2
  | iterating u slots =>
    cases follows
    exact u.iterate_blames never p.control.load slots blames.1 blames.2
  | ended u error =>
    cases follows
    exact p.conclude_blames blames.1 blames.2
  | conducting =>
    cases follows
    exact p.conduct_blames blames
  | finished result => cases follows
  | conducted now => cases follows

variable {e : Ensemble (Stage σ)} {now : Stamp} {hs : Nat → History}

theorem blames_of_run (never : p.workload.NeverAborts)
    (run : Ensemble.Run p.follow p.ensemble now e hs) :
    (∀ x ∈ hs i, x.request.InNameOf i) ∧ ∀ m : Member (Stage σ), e.members[i]? = some m →
      ∀ stage, m.stage? = some stage → stage.Blames i (hs i) := by
  have unaborted : ¬ Aborts [] := by simp [Aborts]
  have possible : (hs i).Each fun _ _ => True := each_of_mem fun _ _ => trivial
  obtain ⟨each, holds⟩ := ensures_of_run (Stage.Blames i) ⟨rfl, unaborted⟩ unaborted
    (fun _ _ _ blames follows => follow_blames never blames follows) run possible
  refine ⟨fun x mem => (each.exists_of_mem mem).elim fun _ there => there.2, ?_⟩
  intro m present stage staged
  have blames := holds m present
  rw [Member.thread_of_stage staged] at blames
  exact blames

end RunPlan

/-- Every thread has come to its end. -/
def Ensemble.IsOver {α : Type} (follow : α → Option (Program α)) (e : Ensemble α) : Prop :=
  ∀ m ∈ e.members, ∃ stage, m.stage? = some stage ∧ follow stage = none

/-- A thread of the run that has come to its end has a report. -/
theorem RunReport.mem_of_finished {σ : Type} {p : RunPlan σ} {e : Ensemble (Stage σ)} {i : Nat}
    {m : Member (Stage σ)} {result : ThreadEnd} (present : e.members[i]? = some m)
    (staged : m.stage? = some (.finished result)) (runId : String) (now : Stamp) :
    ThreadReport.ofEnd p.workload m.trace result ∈ (ofEnsemble p runId e now).threads := by
  refine List.mem_filterMap.mpr ⟨m, ?_, by simp [staged, endOf?]⟩
  exact Array.mem_toList_iff.mpr (Array.mem_of_getElem? present)

/-- A report of a run stems from the member of its thread. -/
theorem RunReport.member_of_mem {σ : Type} {p : RunPlan σ} (never : p.workload.NeverAborts)
    {e : Ensemble (Stage σ)} {now : Stamp} {hs : Nat → History}
    (run : Ensemble.Run p.follow p.ensemble now e hs) {runId : String} {ending : Stamp}
    {r : ThreadReport} (mem : r ∈ (ofEnsemble p runId e ending).threads) :
    ∃ (m : Member (Stage σ)) (result : ThreadEnd), e.members[r.thread]? = some m ∧
      m.stage? = some (.finished result) ∧ r.error = result.error := by
  obtain ⟨i, m, result, present, staged, thread, error⟩ := exists_member mem
  obtain ⟨-, blames⟩ := RunPlan.blames_of_run (i := i) never run
  have own : result.thread = i := (blames m present _ staged).1
  refine ⟨m, result, ?_, staged, error⟩
  rw [thread, own]
  exact present

theorem Exchange.request_of_raised {x : Exchange} {cause : AbortCause}
    (raised : x.raised? = some cause) : x.request = .call (.abort cause) := by
  unfold raised? at raised
  split at raised
  next => exact congrArg (fun c => Request.call (.abort c)) (Option.some.inj raised)
  next => cases raised

section Winner

variable {σ : Type} {p : RunPlan σ} {e : Ensemble (Stage σ)} {now : Stamp} {hs : Nat → History}
  {cause : AbortCause}

/-- Whoever is told to have been first has recorded the cause, and in its own name. -/
theorem raised_by_own (never : p.workload.NeverAborts)
    (run : Ensemble.Run p.follow p.ensemble now e hs) (aborted : e.signals.cause = some cause)
    {i : Nat} {x : Exchange} (mem : x ∈ hs i) (raised : x.raised?.isSome) :
    i = cause.thread ∧ x.raised? = some cause := by
  obtain ⟨given, said⟩ := Option.isSome_iff_exists.mp raised
  have kept := OneShot.kept_of_run (S := OneShot.abort) p.fresh run
  have same : e.signals.cause = some given := kept.given i x mem given said
  obtain rfl : cause = given := Option.some.inj (aborted.symm.trans same)
  obtain ⟨own, -⟩ := RunPlan.blames_of_run (i := i) never run
  refine ⟨(own x mem cause (Exchange.request_of_raised said)).symm, said⟩

/-- When all threads are over, the one that has recorded the cause has an error. -/
theorem first_has_error (never : p.workload.NeverAborts)
    (run : Ensemble.Run p.follow p.ensemble now e hs) (isOver : e.IsOver p.follow)
    (aborted : e.signals.cause = some cause) :
    (∃ x ∈ hs cause.thread, x.raised? = some cause) ∧ ∃ m result,
      e.members[cause.thread]? = some m ∧ m.stage? = some (.finished result) ∧
        RunError.IsOf cause.thread result.error := by
  have kept := OneShot.kept_of_run (S := OneShot.abort) p.fresh run
  obtain ⟨i, m, present, gives⟩ := kept.gave aborted
  obtain ⟨stage, staged, last⟩ := isOver m (Array.mem_of_getElem? present)
  -- The thread is within no call any more, so that it has been told.
  rw [Member.thread_of_stage staged, OneShot.gives_between] at gives
  obtain ⟨x, mem, raised⟩ := gives.resolve_left (by simp)
  have told : x.raised? = some cause := raised
  obtain ⟨rfl, -⟩ := raised_by_own never run aborted mem (by simp [told])
  refine ⟨⟨x, mem, told⟩, m, ?_⟩
  obtain ⟨-, blames⟩ := RunPlan.blames_of_run (i := cause.thread) never run
  have blames := blames m present stage staged
  have aborts : (hs cause.thread).Aborts := ⟨x, mem, cause, Exchange.request_of_raised told⟩
  cases stage with
  | finished result => exact ⟨result, present, staged, blames.2 aborts⟩
  | conducted later => exact absurd aborts blames
  | _ => cases last

/-- All reports of the thread that has recorded the cause carry an error of that thread. -/
theorem first_reports_error (never : p.workload.NeverAborts)
    (run : Ensemble.Run p.follow p.ensemble now e hs) (isOver : e.IsOver p.follow)
    (aborted : e.signals.cause = some cause) {runId : String} {ending : Stamp} {r : ThreadReport}
    (mem : r ∈ (RunReport.ofEnsemble p runId e ending).threads) (first : r.thread = cause.thread) :
    RunError.IsOf cause.thread r.error := by
  obtain ⟨m, result, present, staged, error⟩ := RunReport.member_of_mem never run mem
  obtain ⟨-, m', result', present', staged', has⟩ := first_has_error never run isOver aborted
  rw [first, present', Option.some.injEq] at present
  subst present
  rw [staged', Option.some.injEq, Stage.finished.injEq] at staged
  rw [error, ← staged]
  exact has

end Winner

/-- The error of a report is one of its own thread, if that thread has left one. -/
theorem RunReport.error_of_own {report : RunReport} {cause : AbortCause}
    (aborted : report.abort = some cause)
    (own : ∀ r ∈ report.threads, r.thread = cause.thread → RunError.IsOf cause.thread r.error)
    (there : ∃ r ∈ report.threads, r.thread = cause.thread) :
    ∃ r ∈ report.threads, r.thread = cause.thread ∧ ∃ error, r.error = some error ∧
      report.error? = some error ∧ error.thread? = some cause.thread := by
  obtain ⟨r, mem, thread⟩ := there
  obtain ⟨error, has, -⟩ := own r mem thread
  cases found : report.threads.find? fun t => t.thread = cause.thread && t.error.isSome with
  | none =>
    have missed := List.find?_eq_none.mp found r mem
    simp [thread, has] at missed
  | some r' =>
    have mem' := List.mem_of_find?_eq_some found
    have passes := List.find?_some found
    simp only [Bool.and_eq_true, decide_eq_true_eq] at passes
    obtain ⟨error', has', of⟩ := own r' mem' passes.1
    refine ⟨r', mem', passes.1, error', has', ?_, of⟩
    simp [error?, aborted, found, has']

/-- In a run that is over after an abort, one thread alone is told to have been first, and it is the
one of the cause. The error of the run is the error in that thread's report. -/
theorem first_abort_reported {σ : Type} {p : RunPlan σ} (never : p.workload.NeverAborts)
    {now : Stamp} {e : Ensemble (Stage σ)} {hs : Nat → History}
    (run : Ensemble.Run p.follow p.ensemble now e hs) (isOver : e.IsOver p.follow)
    (runId : String) (ending : Stamp) {cause : AbortCause}
    (aborted : (RunReport.ofEnsemble p runId e ending).abort = some cause) :
    ((∃ x ∈ hs cause.thread, x.raised? = some cause) ∧
      ∀ i, ∀ x ∈ hs i, x.raised?.isSome → i = cause.thread) ∧
    let report := RunReport.ofEnsemble p runId e ending
    ∃ r ∈ report.threads, r.thread = cause.thread ∧ ∃ error, r.error = some error ∧
      report.error? = some error ∧ error.thread? = some cause.thread := by
  have recorded : e.signals.cause = some cause := aborted
  obtain ⟨raised, m, result, present, staged, -⟩ := first_has_error never run isOver recorded
  refine ⟨⟨raised, fun i x mem first => (raised_by_own never run recorded mem first).1⟩, ?_⟩
  have reported := RunReport.mem_of_finished (p := p) present staged runId ending
  obtain ⟨-, blames⟩ := RunPlan.blames_of_run (i := cause.thread) never run
  have own : result.thread = cause.thread := (blames m present _ staged).1
  exact RunReport.error_of_own aborted
    (fun r mem => first_reports_error never run isOver recorded mem) ⟨_, reported, own⟩

/-- A plan of two threads whose only operation fails for good. -/
def RunPlan.failingBoth : RunPlan Unit :=
  { workload := Workload.single (fun _ => .created ())
      ⟨"Ping", [], 0, .manual, true, .fixed Span.zero⟩ fun _ => .fails () (.fatal "down")
    control := { RunControl.ofMode (.cycles 0 1 0) with threads := .fixed 2 }
    seed := 0 }

/-- Both threads are about to abort the run, and the second one comes first. Both have an error in
the end, and the reported one is that of the second. -/
theorem first_abort_reported_failingBoth : ∃ now e hs,
    Ensemble.Run RunPlan.failingBoth.follow RunPlan.failingBoth.ensemble now e hs ∧
      e.IsOver RunPlan.failingBoth.follow ∧
      let report := RunReport.ofEnsemble RunPlan.failingBoth "" e now
      report.abort = some ⟨1, "Ping", "down"⟩ ∧ (∀ r ∈ report.threads, r.error.isSome) ∧
        ∃ r ∈ report.threads, r.thread = 1 ∧ ∃ error, r.error = some error ∧
          report.error? = some error ∧ error.thread? = some 1 := by
  let p := RunPlan.failingBoth
  let order : List (Stamp × Nat) := List.replicate 15 (0, 0) ++ List.replicate 29 (0, 1) ++
    List.replicate 4 (0, 0) ++ List.replicate 10 (0, 2)
  have passed : Ensemble.Run.reached (fun e _ =>
      let report := RunReport.ofEnsemble p "" e 0
      e.members.toList.all (fun m => m.stage?.any fun stage => (p.follow stage).isNone) &&
        (decide (report.abort = some ⟨1, "Ping", "down"⟩) &&
          report.threads.all fun r => r.error.isSome))
      (Ensemble.Run.play p.follow order 0 p.ensemble fun _ => []) = true := by
    decide +kernel
  obtain ⟨now, e, hs, run, passed⟩ := Ensemble.Run.exists_of_reached passed
  simp only [Bool.and_eq_true, List.all_eq_true, Array.mem_toList_iff, decide_eq_true_eq] at passed
  obtain ⟨ended, aborted, failed⟩ := passed
  have isOver : e.IsOver p.follow := by
    intro m mem
    obtain ⟨stage, staged, last⟩ := (Option.any_eq_true _ _).mp (ended m mem)
    exact ⟨stage, staged, Option.isNone_iff_eq_none.mp last⟩
  have never : p.workload.NeverAborts := by
    intro handler mem state
    obtain rfl := List.mem_singleton.mp mem
    trivial
  refine ⟨now, e, hs, run, isOver, aborted, failed, ?_⟩
  exact (first_abort_reported never run isOver "" now aborted).2

end LoadGen
