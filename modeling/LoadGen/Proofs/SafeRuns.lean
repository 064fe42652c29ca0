import LoadGen.Proofs.BuiltWorkload
import LoadGen.Proofs.FailedThreads
import LoadGen.Proofs.ModestRequests

namespace LoadGen

open Program History

/-- The operation belongs to the foreground or to the background. -/
def Workload.OnSide {σ : Type} (w : Workload σ) (background : Bool) (operation : Nat) : Prop :=
  if background then w.foregroundCount ≤ operation ∧ operation < w.operations.length
  else operation < w.foregroundCount

/-- What a run needs of its workload to find every operation and every handler. -/
structure Workload.Sound {σ : Type} (w : Workload σ) : Prop where
  foreground : w.foregroundCount ≤ w.operations.length
  handlers : w.handlers.length = w.operations.length
  mixes : ∀ b m, w.mixOf b = some m → (∀ i ∈ m.operations, w.OnSide b i) ∧ m.Ready

theorem Workload.OnSide.lt {σ : Type} {w : Workload σ} {b : Bool} {i : Nat} (side : w.OnSide b i)
    (sound : w.Sound) : i < w.operations.length := by
  have fits := sound.foreground
  cases b with
  | false =>
    have within : i < w.foregroundCount := side
    omega
  | true => exact side.2

theorem WorkloadDraft.Builds.sound {σ : Type} {d : WorkloadDraft σ} {w : Workload σ}
    {foreground background : List Operation} (builds : d.Builds w foreground background) :
    w.Sound where
  foreground := by
    rw [builds.foregroundCount, builds.operations, List.length_append]
    omega
  handlers := builds.checked.length
  mixes b m has := by
    cases b with
    | false =>
      obtain rfl := Option.some.inj has
      exact builds.mix_ready
    | true => exact builds.backgroundMix_ready has

namespace Selector

/-- Where the next selection stands in the list of operations. -/
def place (s : Selector) : Nat :=
  match s.state with
  | .weighted table random => table.position (WordSource.draw random).1
  | .sequence position => position

/-- The selector finds a place in its list, now and after every selection. -/
def Ready (s : Selector) : Prop :=
  match s.state with
  | .weighted table _ => table.sums.length < s.operations.length
  | .sequence position => position < s.operations.length

/-- The selector after some selections. -/
def after : Nat → Selector → Selector
  | 0, s => s
  | n + 1, s => after n s.select.2

variable {s : Selector}

theorem select_eq (s : Selector) : s.select.1 = s.operations.getD s.place 0 := by
  obtain ⟨operations, state⟩ := s
  cases state <;> rfl

theorem Ready.place_lt (ready : s.Ready) : s.place < s.operations.length := by
  obtain ⟨operations, state⟩ := s
  cases state with
  | weighted table random => exact lt_of_le_of_lt List.countP_le_length ready
  | sequence position => exact ready

theorem Ready.mem_select (ready : s.Ready) : s.select.1 ∈ s.operations := by
  rw [select_eq, List.getD_eq_getElem?_getD, List.getElem?_eq_getElem ready.place_lt]
  exact List.getElem_mem ready.place_lt

theorem select_operations (s : Selector) : s.select.2.operations = s.operations := by
  unfold select
  split <;> rfl

theorem Ready.select (ready : s.Ready) : s.select.2.Ready := by
  obtain ⟨operations, state⟩ := s
  cases state with
  | weighted table random => exact ready
  | sequence position => exact Nat.mod_lt _ (Nat.zero_lt_of_lt ready)

theorem Ready.after (ready : s.Ready) (n : Nat) :
    (s.after n).Ready ∧ (s.after n).operations = s.operations := by
  induction n generalizing s with
  | zero => exact ⟨ready, rfl⟩
  | succ n ih =>
    obtain ⟨later, same⟩ := ih ready.select
    exact ⟨later, same.trans s.select_operations⟩

end Selector

theorem Mix.Ready.selector {ρ : Type} [WordSource ρ] {m : Mix} (ready : m.Ready) (r : ρ) :
    (m.selector r).1.Ready ∧ (m.selector r).1.operations = m.operations := by
  unfold Mix.Ready at ready
  unfold Mix.selector
  cases choice : m.choice with
  | weighted table =>
    rw [choice] at ready
    exact ⟨ready, rfl⟩
  | sequence =>
    rw [choice] at ready
    exact ⟨ready, rfl⟩

/-- Everything that a pending invocation refers to has a property. -/
def Pending.All (P : Nat → Prop) (pending : Pending) : Prop :=
  P pending.operation ∧ ∀ delay, pending.delay = some delay → P delay.previous

/-- Whatever the slot holds or will select is an operation of its side. -/
structure Slot.Within {σ : Type} (w : Workload σ) (s : Slot) : Prop where
  ready : s.selector.Ready
  operations : ∀ i ∈ s.selector.operations, w.OnSide s.background i
  current : ∀ i, s.current = some i → w.OnSide s.background i
  pending : ∀ pending, s.pending = some pending → pending.All (w.OnSide s.background)

namespace Slot.Within

variable {σ ρ : Type} [WordSource ρ] {w : Workload σ} {s : Slot}

theorem fresh {b : Bool} {m : Mix} (sound : w.Sound) (has : w.mixOf b = some m) (r : ρ)
    (reference : Stamp) : (Slot.fresh (m.selector r).1 b reference).Within w := by
  obtain ⟨inside, ready⟩ := sound.mixes b m has
  obtain ⟨ready, same⟩ := ready.selector r
  refine ⟨ready, fun i mem => inside i ?_, nofun, nofun⟩
  exact same ▸ mem

theorem select (within : s.Within w) : w.OnSide s.background s.selector.select.1 :=
  within.operations _ within.ready.mem_select

/-- The next invocation refers to the selected operation and the one before it. -/
theorem nextPending (within : s.Within w) (r : ρ) : Pending.All (w.OnSide s.background)
    (s.nextPending w s.selector.select.1 s.current r).1 := by
  unfold Slot.nextPending
  split
  next => exact ⟨within.select, nofun⟩
  next previous current =>
    refine ⟨within.select, fun delay same => ?_⟩
    cases same
    exact within.current previous current

theorem plan (within : s.Within w) (r : ρ) : (s.plan w r).1.Within w := by
  cases pending : s.pending with
  | some pending' =>
    rw [Slot.plan_of_pending pending]
    exact within
  | none =>
    rw [Slot.plan_of_idle pending]
    refine ⟨within.ready.select, ?_, ?_, ?_⟩
    · rw [s.selector.select_operations]
      exact within.operations
    · intro i same
      cases same
      exact within.select
    · intro next same
      cases same
      exact within.nextPending r

theorem reset (within : s.Within w) (reference : Stamp) : (s.reset reference).Within w :=
  ⟨within.ready, within.operations, nofun, nofun⟩

/-- A slot may give its invocation away. -/
theorem take (within : s.Within w) : ({ s with pending := none } : Slot).Within w :=
  ⟨within.ready, within.operations, within.current, nofun⟩

theorem follow (within : s.Within w) (record : Timing) : (s.follow record).Within w := by
  obtain ⟨first, last, same⟩ := s.exists_of_follow record
  rw [same]
  exact ⟨within.ready, within.operations, within.current, within.pending⟩

end Slot.Within

theorem Slots.within_fresh {σ ρ : Type} [WordSource ρ] {w : Workload σ} (sound : w.Sound) (r : ρ)
    (reference : Stamp) : (Slots.fresh w r reference).1.All (Slot.Within w) := by
  have each : ∀ b s, (Slots.fresh w r reference).1.side b = some s → s.Within w := by
    intro b s has
    obtain ⟨m, r', mixed, rfl⟩ := Slots.exists_of_side_fresh has
    exact .fresh sound mixed r' reference
  exact ⟨each false _ rfl, each true⟩

/-- What the event tells of is an operation of the workload, and of the side that it names. -/
def Workload.Knows {σ : Type} (w : Workload σ) : Event → Prop
  | .planned b i _ _ | .called b i _ => w.OnSide b i
  | e => ∀ i, e.operation? = some i → i < w.operations.length

/-- The request emits nothing about an operation that is not there. -/
def Request.Within {σ : Type} (w : Workload σ) : Request → Prop
  | .call _ => True
  | .emit e => w.Knows e

theorem Request.Modest.within {σ : Type} {w : Workload σ} {request : Request}
    (modest : request.Modest) : request.Within w := by
  cases request with
  | call c => trivial
  | emit e =>
    have silent : e.operation? = none := modest
    cases e <;> first | exact fun i same => nomatch silent.symm.trans same | cases silent

/-- A thread complains about a handler only when that has panicked. -/
def RunError.BlamesPanics {σ : Type} (w : Workload σ) (error : Option RunError) : Prop :=
  ∀ thread message, error = some (.binding thread message) →
    ∃ operation ∈ w.operations, message = "handler for operation " ++ operation.name ++ " panicked"

/-- Between two programs, all slots are within their sides. -/
def Stage.Within {σ : Type} (w : Workload σ) : Stage σ → Prop
  | .iterating _ slots => slots.All (Slot.Within w)
  | .ended _ error => RunError.BlamesPanics w error
  | .finished result => RunError.BlamesPanics w result.error
  | _ => True

section Within

variable {σ α : Type} {w : Workload σ}

theorem within_ask {q : Program α} {f : α → Program (Stage σ)} {result : α → Prop}
    (only : q.Only Request.Modest result)
    (rest : ∀ a, result a → (f a).Only (Request.Within w) (Stage.Within w)) :
    (q >>= f).Only (Request.Within w) (Stage.Within w) :=
  only_bind.mpr ((only.weaken fun _ => Request.Modest.within).mono rest)

theorem within_emit {e : Event} {f : Unit → Program (Stage σ)} (knows : w.Knows e)
    (rest : (f ()).Only (Request.Within w) (Stage.Within w)) :
    (emit e >>= f).Only (Request.Within w) (Stage.Within w) :=
  only_bind.mpr (only_emit.mpr ⟨knows, rest⟩)

theorem Behaviour.run_within (b : Behaviour σ) (c : Context) :
    (b.run c).Only (Request.Within w) fun _ => True := by
  induction b generalizing c with
  | calls call next ih =>
    have performs : (c.perform call).Only (Request.Within w) fun _ => True := by
      by_cases calm : ∀ cause, call ≠ .abort cause
      · exact (c.perform_modest calm).weaken fun _ => Request.Modest.within
      · obtain ⟨cause, same⟩ := not_forall_not.mp calm
        subst same
        exact ⟨trivial, fun _ => trivial⟩
    simp only [run, only_bind]
    exact performs.mono fun reply _ => ih reply.2 reply.1
  | _ => trivial

end Within

namespace VirtualUser

variable {σ : Type} {w : Workload σ} {slots : Slots} {slot : Slot} {pending : Pending}

theorem finish_within (u : VirtualUser σ) {error : Option RunError}
    (blames : RunError.BlamesPanics w error) :
    (u.finish error).Only (Request.Within w) (Stage.Within w) :=
  within_emit nofun blames

theorem finish_none_within (u : VirtualUser σ) :
    (u.finish none).Only (Request.Within w) (Stage.Within w) :=
  u.finish_within nofun

theorem fail_within (u : VirtualUser σ) {operation : Nat} (known : operation < w.operations.length)
    (name : String) (cause : ErrorChain) :
    (u.fail operation name cause).Only (Request.Within w) (Stage.Within w) := by
  have ends : (u.finish (some (.fatal u.id name cause))).Only (Request.Within w) (Stage.Within w) :=
    u.finish_within nofun
  have knows : w.Knows (.aborting operation cause) := fun _ same => Option.some.inj same ▸ known
  refine ⟨trivial, fun first => ?_⟩
  cases first with
  | false => exact ends
  | true => exact within_emit knows ends

/-- The handler of an operation has panicked. -/
theorem panic_within (u : VirtualUser σ) {i : Nat} {operation : Operation}
    (known : w.operations[i]? = some operation) :
    (u.failBinding operation.name ("handler for operation " ++ operation.name ++ " panicked")
      [.panicked i]).Only (Request.Within w) (Stage.Within w) := by
  have knows : w.Knows (.panicked i) := by
    intro j same
    cases same
    exact (List.getElem?_eq_some_iff.mp known).1
  refine ⟨trivial, fun _ => within_emit knows (u.finish_within fun thread message same => ?_)⟩
  cases same
  exact ⟨operation, List.mem_of_getElem? known, rfl⟩

theorem proceed_within (u : VirtualUser σ) (all : slots.All (Slot.Within w))
    (within : slot.Within w) :
    (u.proceed slots slot).Only (Request.Within w) (Stage.Within w) := by
  unfold proceed
  split
  next => exact u.finish_none_within
  next => exact all.put (within.follow u.timing)

/-- An invocation to account for, with the slots that it has left. -/
structure Given (w : Workload σ) (slots : Slots) (slot : Slot) (pending : Pending)
    (operation : Operation) : Prop where
  all : slots.All (Slot.Within w)
  within : slot.Within w
  refers : pending.All fun i => i < w.operations.length
  known : w.operations[pending.operation]? = some operation
  side : w.OnSide slot.background pending.operation

variable {operation : Operation}

theorem emitDelay_within (given : Given w slots slot pending operation) (phase : Phase)
    (r : Timing) : (emitDelay pending phase r).Only (Request.Within w) fun _ => True := by
  unfold emitDelay
  cases sampled : delaySample? pending phase r with
  | none => trivial
  | some sample =>
    refine only_emit.mpr ⟨fun i same => ?_, trivial⟩
    unfold delaySample? at sampled
    split at sampled
    next delay _ delayed _ =>
      cases sampled
      cases same
      exact given.refers.2 delay delayed
    next => cases sampled

theorem accountSuccess_within (u : VirtualUser σ) (given : Given w slots slot pending operation)
    (name : String) :
    (u.accountSuccess slots slot pending name).Only (Request.Within w) (Stage.Within w) := by
  unfold accountSuccess
  cases u.timing.complete with
  | mk record fault =>
    cases fault with
    | some fault => exact fail_within _ given.refers.1 _ _
    | none =>
      refine within_emit nofun (within_ask (u.policy.classify_modest record) fun classified _ => ?_)
      refine within_emit (fun _ same => Option.some.inj same ▸ given.refers.1) ?_
      exact only_bind.mpr ((emitDelay_within given _ _).mono fun _ _ =>
        proceed_within _ given.all given.within)

theorem reportFailure_within (u : VirtualUser σ) (given : Given w slots slot pending operation)
    (cause : ErrorChain) (repair : Timing.Repair) :
    (u.reportFailure slots slot pending cause repair).Only (Request.Within w) (Stage.Within w) := by
  have tells : ∀ {i}, some pending.operation = some i → i < w.operations.length :=
    fun same => Option.some.inj same ▸ given.refers.1
  unfold reportFailure
  split
  next => exact within_emit (fun _ => tells) (given.all.put given.within)
  next =>
    refine within_ask (u.policy.classify_modest u.timing) fun classified _ => ?_
    refine within_emit (fun _ => tells) (within_emit (fun _ => tells) ?_)
    split
    next =>
      exact only_bind.mpr ((emitDelay_within given _ _).mono fun _ _ =>
        proceed_within _ given.all given.within)
    next => exact proceed_within _ given.all given.within

theorem accountFailure_within (u : VirtualUser σ) (given : Given w slots slot pending operation)
    (name : String) (cause : ErrorChain) :
    (u.accountFailure slots slot pending name cause).Only (Request.Within w) (Stage.Within w) := by
  unfold accountFailure
  split
  next => exact u.fail_within given.refers.1 name cause
  next =>
    refine within_ask clock_modest fun now _ => ?_
    dsimp only
    split
    next =>
      refine within_emit (fun _ same => Option.some.inj same ▸ given.refers.1) ?_
      exact reportFailure_within _ given cause _
    next => exact reportFailure_within _ given cause _

theorem account_within (u : VirtualUser σ) (given : Given w slots slot pending operation)
    (ending : Ending) :
    (u.account slots slot pending operation ending).Only (Request.Within w) (Stage.Within w) := by
  have tells : ∀ {i}, some pending.operation = some i → i < w.operations.length :=
    fun same => Option.some.inj same ▸ given.refers.1
  unfold account
  cases ending with
  | panicked => exact u.panic_within given.known
  | succeeded =>
    refine within_emit (fun _ => tells) ?_
    refine within_ask (u.captureRespond_modest operation) fun v _ => ?_
    refine within_ask isAborted_modest fun aborted _ => ?_
    cases aborted with
    | true => exact v.finish_none_within
    | false => exact v.accountSuccess_within given operation.name
  | failed cause =>
    refine within_emit (fun _ => tells) (within_ask isAborted_modest fun aborted _ => ?_)
    cases aborted with
    | true => exact u.finish_none_within
    | false => exact u.accountFailure_within given operation.name cause

theorem callHandler_within (u : VirtualUser σ) (given : Given w slots slot pending operation)
    (handler : Handler σ) : (u.callHandler slots slot pending operation handler).Only
      (Request.Within w) (Stage.Within w) := by
  unfold callHandler
  refine within_emit given.side (only_bind.mpr ?_)
  exact (Behaviour.run_within _ _).mono fun result _ => account_within _ given result.2.2

/-- The invocation of an operation finds the operation and its handler. -/
theorem invoke_within (u : VirtualUser σ) (given : Given w slots slot pending operation)
    {handler : Handler σ} (bound : w.handlers[pending.operation]? = some handler) :
    (u.invoke w slots slot pending).Only (Request.Within w) (Stage.Within w) := by
  unfold invoke
  split
  next => exact u.finish_none_within
  next =>
    rw [given.known, bound]
    refine within_emit (fun _ same => Option.some.inj same ▸ given.refers.1) ?_
    refine within_ask (awaitInvocation_modest _ operation pending) fun result _ => ?_
    obtain ⟨v, wait⟩ := result
    cases wait with
    | cancelled => exact v.finish_none_within
    | reached => exact v.callHandler_within given handler

end VirtualUser

/-- The invocation that a thread takes after planning, with the operation and the handler that it
finds for it. -/
theorem Slots.exists_taken {σ ρ : Type} [WordSource ρ] {w : Workload σ} {slots : Slots}
    (sound : w.Sound) (all : slots.All (Slot.Within w)) (r : ρ) :
    ∃ pending operation handler, (slots.plan w r).1.earliest.pending = some pending ∧
      w.operations[pending.operation]? = some operation ∧
        w.handlers[pending.operation]? = some handler ∧
          pending.All (w.OnSide (slots.plan w r).1.earliest.background) := by
  obtain ⟨pending, taken⟩ := slots.exists_pending_earliest w r
  have planned := (all.plan w r fun _ r within => within.plan r).earliest
  have refers := planned.pending pending taken
  have known := refers.1.lt sound
  have bound : pending.operation < w.handlers.length := sound.handlers ▸ known
  exact ⟨pending, _, _, taken, List.getElem?_eq_getElem known, List.getElem?_eq_getElem bound,
    refers⟩

namespace VirtualUser

variable {σ : Type} {w : Workload σ} {slots : Slots}

theorem advance_within (sound : w.Sound) (u : VirtualUser σ) (all : slots.All (Slot.Within w)) :
    (u.advance w slots).Only (Request.Within w) (Stage.Within w) := by
  obtain ⟨pending, operation, handler, taken, known, bound, refers⟩ :=
    Slots.exists_taken sound all u.random
  have planned := all.plan w u.random fun _ r within => within.plan r
  have knows : ∀ e ∈ (slots.plan w u.random).2.2, w.Knows e := by
    intro e mem
    obtain ⟨s, pending, delay, within, has, rfl⟩ :=
      all.exists_of_mem_plan (fun _ r within => within.plan r) mem
    exact (within.pending pending has).1
  simp only [advance, only_bind]
  refine (emitAll_only knows).mono fun _ _ => ?_
  rw [taken]
  have given : Given w ((slots.plan w u.random).1.put
      { (slots.plan w u.random).1.earliest with pending := none })
      { (slots.plan w u.random).1.earliest with pending := none } pending operation := by
    have within := planned.earliest.take
    refine ⟨planned.put within, within, ⟨refers.1.lt sound, fun delay same => ?_⟩, known, refers.1⟩
    exact (refers.2 delay same).lt sound
  exact invoke_within _ given bound

theorem iterate_within (sound : w.Sound) (u : VirtualUser σ) (load : Option LoadSchedule)
    (all : slots.All (Slot.Within w)) :
    (u.iterate w load slots).Only (Request.Within w) (Stage.Within w) := by
  refine within_ask isAborted_modest fun aborted _ => ?_
  cases aborted with
  | true => exact u.finish_none_within
  | false =>
    refine within_ask (u.policy.gate_modest load u.id) fun result _ => ?_
    obtain ⟨policy, gate⟩ := result
    cases gate with
    | stop | cancelled => exact finish_none_within _
    | resumed =>
      refine within_ask clock_modest fun now _ => within_emit nofun ?_
      exact all.reset fun _ within => within.reset now
    | proceed => exact advance_within sound _ all

theorem enter_within (sound : w.Sound) (u : VirtualUser σ) :
    (u.enter w).Only (Request.Within w) (Stage.Within w) := by
  have fresh : ∀ now, (Slots.fresh w u.random (u.policy.initialReference now)).1.All
      (Slot.Within w) := fun now => Slots.within_fresh sound u.random _
  refine within_ask clock_modest fun now _ => ?_
  exact within_emit nofun (fresh now)

theorem start_within (sound : w.Sound) (u : VirtualUser σ) :
    (u.start w).Only (Request.Within w) (Stage.Within w) := by
  refine within_ask enrol_modest fun _ _ => ?_
  refine within_ask u.policy.prepare_modest fun prepared _ => ?_
  cases prepared with
  | none => exact nofun
  | some policy => exact enter_within sound _

end VirtualUser

namespace RunPlan

variable {σ : Type} (p : RunPlan σ)

theorem settle_within (id : Nat) (outcome : Creation σ) :
    (p.settle id outcome).Only (Request.Within p.workload) (Stage.Within p.workload) := by
  cases outcome with
  | created state => exact within_ask VirtualUser.arrive_modest fun _ _ => trivial
  | failed cause =>
    refine within_emit nofun (only_bind.mpr ⟨trivial, fun _ => ?_⟩)
    exact within_ask VirtualUser.arrive_modest fun _ _ => nofun
  | panicked => exact within_ask VirtualUser.arrive_modest fun _ _ => nofun

theorem launch_within (id : Nat) :
    (p.launch id).Only (Request.Within p.workload) (Stage.Within p.workload) := by
  rcases p.launch_cases id with same | ⟨same, -⟩
  · rw [same]
    exact within_emit nofun (p.settle_within id _)
  · rw [same]
    exact p.settle_within id _

theorem conclude_within (u : VirtualUser σ) {error : Option RunError}
    (blames : RunError.BlamesPanics p.workload error) :
    (p.conclude u error).Only (Request.Within p.workload) (Stage.Within p.workload) := by
  unfold conclude
  split
  next =>
    refine within_emit nofun ?_
    split
    next => exact blames
    next => exact within_emit nofun blames
    next => exact nofun
  next => exact blames

variable {p}

theorem follow_stays (sound : p.workload.Sound) {stage : Stage σ} {next : Program (Stage σ)}
    (within : stage.Within p.workload) (follows : p.follow stage = some next) :
    next.Only (Request.Within p.workload) (Stage.Within p.workload) := by
  cases stage with
  | starting id =>
    cases follows
    exact p.launch_within id
  | ready u =>
    cases follows
    exact u.start_within sound
  | iterating u slots =>
    cases follows
    exact u.iterate_within sound p.control.load within
  | ended u error =>
    cases follows
    exact p.conclude_within u within
  | conducting =>
    cases follows
    simp [conduct, Request.Within, Stage.Within]
  | finished result => cases follows
  | conducted now => cases follows

variable {e : Ensemble (Stage σ)} {now : Stamp} {hs : Nat → History}

theorem within_of_run (sound : p.workload.Sound)
    (run : Ensemble.Run p.follow p.ensemble now e hs) (i : Nat) :
    (∀ x ∈ hs i, x.request.Within p.workload) ∧ ∀ m : Member (Stage σ), e.members[i]? = some m →
      ∀ stage, m.stage? = some stage → stage.Within p.workload := by
  have possible : (hs i).Each fun _ _ => True := each_of_mem fun _ _ => trivial
  have steps : ∀ (stage : Stage σ) next (h : History), stage.Within p.workload →
      p.follow stage = some next → next.Ensures (fun _ _ => True)
        (fun x _ => x.request.Within p.workload) (fun stage _ => stage.Within p.workload) h :=
    fun _ _ _ within follows => (follow_stays sound within follows).ensures_of_safe fun _ _ => id
  obtain ⟨each, holds⟩ := ensures_of_run _ trivial trivial steps run possible
  refine ⟨fun x mem => (each.exists_of_mem mem).elim fun _ there => there.2, ?_⟩
  intro m present stage staged
  have within := holds m present
  rw [Member.thread_of_stage staged] at within
  exact within

end RunPlan

/-- The error that a thread has ended with. -/
def Stage.error? {σ : Type} : Stage σ → Option RunError
  | .ended _ error => error
  | .finished result => result.error
  | _ => none

/-- In the run so far, all operations and handlers that were looked for have been found, and the
next ones will be. -/
structure Workload.SafeRun {σ : Type} (w : Workload σ) (e : Ensemble (Stage σ))
    (hs : Nat → History) : Prop where
  events : ∀ i, ∀ x ∈ hs i, ∀ event, x.event? = some event → w.Knows event
  slots : ∀ m ∈ e.members, ∀ u slots, m.stage? = some (.iterating u slots) →
    slots.All (Slot.Within w)
  taken : ∀ m ∈ e.members, ∀ u slots, m.stage? = some (.iterating u slots) →
    ∃ pending operation handler, (slots.plan w u.random).1.earliest.pending = some pending ∧
      w.operations[pending.operation]? = some operation ∧
        w.handlers[pending.operation]? = some handler
  bound : ∀ m ∈ e.members, ∀ stage, m.stage? = some stage → ∀ thread name,
    stage.error? ≠ some (.binding thread ("no handler bound to operation " ++ name))

theorem RunError.BlamesPanics.bound {σ : Type} {w : Workload σ} {error : Option RunError}
    (blames : BlamesPanics w error) (thread : Nat) (name : String) :
    error ≠ some (.binding thread ("no handler bound to operation " ++ name)) := by
  intro lacking
  obtain ⟨operation, -, same⟩ := blames thread _ lacking
  have heads := congrArg (fun text => text.toList.head?) same
  simp [String.toList_append] at heads

theorem RunPlan.safe_of_run {σ : Type} {p : RunPlan σ} (sound : p.workload.Sound)
    {e : Ensemble (Stage σ)} {now : Stamp} {hs : Nat → History}
    (run : Ensemble.Run p.follow p.ensemble now e hs) : p.workload.SafeRun e hs := by
  have within : ∀ m ∈ e.members, ∀ stage, m.stage? = some stage → stage.Within p.workload := by
    intro m mem stage staged
    obtain ⟨i, inside, rfl⟩ := Array.mem_iff_getElem.mp mem
    exact (within_of_run sound run i).2 _ (Array.getElem?_eq_getElem inside) stage staged
  refine ⟨fun i x mem event emits => ?_, fun m mem u slots staged => within m mem _ staged, ?_, ?_⟩
  · have known := (within_of_run sound run i).1 x mem
    rw [Exchange.eq_of_event emits] at known
    exact known
  · intro m mem u slots staged
    obtain ⟨pending, operation, handler, taken, known, bound, -⟩ :=
      Slots.exists_taken sound (within m mem _ staged) u.random
    exact ⟨pending, operation, handler, taken, known, bound⟩
  · intro m mem stage staged thread name
    have blames := within m mem stage staged
    cases stage with
    | ended u error => exact RunError.BlamesPanics.bound blames thread name
    | finished result => exact RunError.BlamesPanics.bound blames thread name
    | _ => nofun

/-- A workload that could be built is safe to run: its parts are as declared, all selections are of
operations of their side, and no run looks for an operation or a handler in vain. -/
theorem built_workload_safe {σ : Type} {d : WorkloadDraft σ} {w : Workload σ}
    (built : d.build = .ok w) :
    d.Checked w ∧
    (∀ b m, w.mixOf b = some m → ∀ (ρ : Type) [WordSource ρ] (r : ρ) (n : Nat),
      let s := (m.selector r).1.after n
      s.place < s.operations.length ∧ w.OnSide b s.select.1) ∧
    ∀ p : RunPlan σ, p.workload = w → ∀ now e hs,
      Ensemble.Run p.follow p.ensemble now e hs → w.SafeRun e hs := by
  obtain ⟨foreground, background, builds⟩ := WorkloadDraft.exists_builds built
  have sound := builds.sound
  refine ⟨builds.checked, fun b m has ρ _ r n => ?_, fun p same now e hs run => ?_⟩
  · obtain ⟨inside, ready⟩ := sound.mixes b m has
    obtain ⟨ready, same⟩ := ready.selector r
    obtain ⟨ready, later⟩ := ready.after n
    refine ⟨ready.place_lt, inside _ ?_⟩
    rw [← same, ← later]
    exact ready.mem_select
  · subst same
    exact RunPlan.safe_of_run sound run

/-- A draft with two operations in turn, and one in the background with the pacing given there. -/
def WorkloadDraft.withBackground : WorkloadDraft Unit :=
  let ping (name : String) : OperationDeclaration × Handler Unit :=
    ({ OperationDeclaration.named name with limits := [1] }, fun _ => .succeeds ())
  { WorkloadDraft.named "Shop" fun _ => Creation.created () with
    percentiles := ["90th"]
    defaultPacing := some (.fixed ⟨100⟩)
    foreground := [ping "Browse", ping "Buy"]
    background := [ping "Clean"]
    backgroundPacings := [.fixed ⟨80⟩]
    mix := some (.sequence ["Browse", "Buy"]) }

/-- The draft can be built, and a run of it calls handlers of either side. -/
theorem built_workload_safe_withBackground : ∃ w, WorkloadDraft.withBackground.build = .ok w ∧
    WorkloadDraft.withBackground.Checked w ∧ ∃ (p : RunPlan Unit) (now : Stamp)
      (e : Ensemble (Stage Unit)) (hs : Nat → History), p.workload = w ∧
        Ensemble.Run p.follow p.ensemble now e hs ∧
          ((hs 0).filterMap Exchange.event?).filter (fun event => event matches .called ..) =
            [.called true 2 200, .called false 0 200] ∧ w.SafeRun e hs := by
  let d := WorkloadDraft.withBackground
  have builds : d.build.toOption.isSome = true := by decide +kernel
  obtain ⟨w, built⟩ : ∃ w, d.build = .ok w := by
    cases built : d.build with
    | ok w => exact ⟨w, rfl⟩
    | error e => simp [built, Except.toOption] at builds
  let p : RunPlan Unit :=
    { workload := d.build.toOption.getD .beside
      control := RunControl.ofMode (.time ⟨0⟩ ⟨1000⟩ ⟨0⟩)
      seed := 0 }
  have same : p.workload = w := by simp [p, built, Except.toOption]
  let order : List (Stamp × Nat) :=
    List.replicate 3 (0, 0) ++ List.replicate 10 (0, 1) ++ List.replicate 30 (200, 0)
  have called : Ensemble.Run.reached (fun _ hs => decide
      (((hs 0).filterMap Exchange.event?).filter (fun event => event matches .called ..) =
        [.called true 2 200, .called false 0 200]))
      (Ensemble.Run.play p.follow order 0 p.ensemble fun _ => []) = true := by
    decide +kernel
  obtain ⟨now, e, hs, run, called⟩ := Ensemble.Run.exists_of_reached called
  obtain ⟨checked, -, safe⟩ := built_workload_safe built
  exact ⟨w, built, checked, p, now, e, hs, same, run, of_decide_eq_true called,
    safe p same now e hs run⟩

end LoadGen
