import LoadGen.Proofs.GateReadings
import LoadGen.Proofs.RunOfPlan

namespace LoadGen

open Program History

/-- What a virtual user carries from one iteration to the next. -/
structure LoopState where
  policy : Policy
  random : ChaCha
  slots : Slots

/-- An invocation of a slot, which no longer holds it, and its record so far. -/
structure Invocation where
  slot : Slot
  pending : Pending
  record : Timing

def VirtualUser.loop {σ : Type} (u : VirtualUser σ) (slots : Slots) : LoopState :=
  ⟨u.policy, u.random, slots⟩

namespace LoopState

variable {σ : Type}

/-- The loop with the next invocation of every slot. -/
def plan (w : Workload σ) (l : LoopState) : LoopState :=
  { l with slots := (l.slots.plan w l.random).1, random := (l.slots.plan w l.random).2.1 }

def put (l : LoopState) (s : Slot) : LoopState := { l with slots := l.slots.put s }

def reset (l : LoopState) (reference : Stamp) : LoopState :=
  { l with slots := l.slots.reset reference }

def withPolicy (l : LoopState) (policy : Policy) : LoopState := { l with policy := policy }

/-- The loop after an invocation that has been accounted for. -/
def follow (l : LoopState) (i : Invocation) : LoopState := l.put (i.slot.follow i.record)

end LoopState

namespace Invocation

/-- The invocation that is pending in a slot, when nothing has been captured of it. -/
def ofSlot (s : Slot) (pending : Pending) : Invocation :=
  ⟨{ s with pending := none }, pending, .intendedAt pending.intended⟩

def withRecord (i : Invocation) (r : Timing) : Invocation := { i with record := r }

/-- The record after a failure, and what follows for the invocation. -/
def repair (i : Invocation) (now : Stamp) (policy : Policy) : Timing × Timing.Repair :=
  i.record.repair now policy.earlyFailure (i.slot.previousStart, i.slot.previousEnd)

def call (i : Invocation) : Event :=
  .called i.slot.background i.pending.operation i.pending.intended

def sample (i : Invocation) (phase : Phase) : Sample :=
  .ofTiming i.pending.operation phase i.record

def delay? (i : Invocation) (phase : Phase) : Option DelaySample :=
  VirtualUser.delaySample? i.pending phase i.record

theorem phase_of_delay {i : Invocation} {phase : Phase} {sample : DelaySample}
    (delayed : i.delay? phase = some sample) : sample.phase = phase := by
  unfold delay? VirtualUser.delaySample? at delayed
  split at delayed
  next =>
    cases delayed
    rfl
  next => cases delayed

end Invocation

namespace Policy

/-- The policy of a thread that has taken notice of the start time. -/
def noticing (start : Stamp) : Policy → Policy
  | cycles q => cycles q
  | time q => time (q.withStart start)

/-- The policy of a thread that has waited for a simultaneous start. -/
def startedAt (start : Stamp) : Policy → Policy
  | cycles q => cycles { q with start := some start, started := true }
  | time q => time (q.withStart start)

end Policy

namespace RunControl

/-- With this policy a thread comes into its loop. -/
def Prepares (c : RunControl) (policy : Policy) (h : History) : Prop :=
  (c.simultaneous = false ∧ policy = c.policy) ∨
    (c.simultaneous = true ∧ ∃ start, told h = some start ∧ policy = c.policy.startedAt start)

theorem prepare_policy (c : RunControl) : c.policy.prepare =
    if c.simultaneous then do
      let start ← awaitStart
      pure (start.map c.policy.startedAt)
    else pure (some c.policy) := by
  unfold policy
  generalize c.simultaneous = simultaneous
  cases c.mode <;> cases simultaneous <;> rfl

/-- The first delays are counted from a simultaneous start, or else from the present. -/
theorem Prepares.reference {c : RunControl} {policy : Policy} {h : History}
    (prepares : c.Prepares policy h) (now : Stamp) :
    (if c.simultaneous then told h else some now) = some (policy.initialReference now) := by
  unfold Prepares RunControl.policy at prepares
  rcases prepares with ⟨single, rfl⟩ | ⟨simultaneous, start, known, rfl⟩
  · cases c.mode <;> simp [single, Policy.initialReference, CyclePolicy.ofLengths,
      TimePolicy.ofLengths]
  · rw [if_pos simultaneous, known]
    cases c.mode <;> simp [simultaneous, Policy.startedAt, Policy.initialReference,
      TimePolicy.withStart, CyclePolicy.ofLengths, TimePolicy.ofLengths]

end RunControl

/-- The loop in which a thread of the plan begins. -/
def RunPlan.loop {σ : Type} (p : RunPlan σ) (id : Nat) (policy : Policy) (now : Stamp) :
    LoopState :=
  let random := ChaCha.ofSeed (UInt64.ofNat (p.seed + id))
  let begun := Slots.fresh p.workload random (policy.initialReference now)
  ⟨policy, begun.2, begun.1⟩

/-- The latest thing that has happened is the report of an invocation, which has begun at a time of
its own. -/
def History.JustTimed : History → Prop
  | ⟨_, .emit (.transaction _), _⟩ :: _ => True
  | ⟨_, .emit (.failed ..), _⟩ :: ⟨_, .emit (.error _), _⟩ :: h =>
    ∃ record, returned h = some record ∧ record.invoke.isSome
  | _ => False

/-- The latest thing that the thread has done is to plan an invocation. -/
def History.justPlanned : History → Bool
  | ⟨_, .emit (.planned ..), _⟩ :: _ => true
  | _ => false

/-- The event is no plan of an invocation, does not call a handler or account for what it has done,
and neither resumes nor ends the loop. -/
def Event.isMute : Event → Bool
  | planned .. | called .. | transaction _ | error _ | skipped .. | delay _ | resumed
  | runEnded => false
  | _ => true

def Request.Mute : Request → Prop
  | .emit e => e.isMute
  | .call _ => True

theorem Request.Mute.silent {request : Request} (mute : request.Mute) : request.Silent := by
  cases request with
  | call c => trivial
  | emit e => cases e <;> trivial

theorem Request.Plain.silent {request : Request} (plain : request.Plain) : request.Silent := by
  cases request with
  | call c => trivial
  | emit e => cases e <;> trivial

theorem plain_of_told {x : Exchange} {start : Stamp} (told : x.start? = some start) :
    x.request.Plain := by
  obtain ⟨t, request, reply⟩ := x
  cases request with
  | call c => trivial
  | emit e => cases told

theorem plain_of_clear {x : Exchange} (clear : x.isClear) : x.request.Plain := by
  obtain ⟨t, request, reply⟩ := x
  cases request with
  | call c => trivial
  | emit e => cases clear

theorem unplanned_of_plain {x : Exchange} {h : History} (plain : x.request.Plain) :
    justPlanned (x :: h) = false := by
  obtain ⟨t, request, reply⟩ := x
  cases request with
  | call c => rfl
  | emit e => cases e <;> first | rfl | cases plain

theorem Program.Only.unplanned {α : Type} {env : Exchange → History → Prop} {p : Program α}
    {result : α → Prop} {h : History} (only : p.Only Request.Plain result)
    (now : h.justPlanned = false) :
    p.Ensures env (fun _ _ => True) (fun _ h => h.justPlanned = false) h := by
  have step : ∀ x h, x.request.Plain → env x h → h.justPlanned = false →
      True ∧ justPlanned (x :: h) = false :=
    fun x h plain _ _ => ⟨trivial, unplanned_of_plain plain⟩
  exact (only.ensures step now).mono fun _ _ ends => ends.2

/-- What holds at each point of a thread's loop: before it; between two iterations and at their
gate; of an invocation before the call of its handler and after it; once the flag has been found
down after the handler; and when the outcome has been reported with its phase. -/
structure Outline where
  unbegun : History → Prop
  resting : LoopState → History → Prop
  opening : LoopState → Invocation → History → Prop
  serving : LoopState → Invocation → History → Prop
  cleared : LoopState → Invocation → History → Prop
  closing : LoopState → Invocation → Phase → History → Prop

namespace Outline

/-- What is known when the record of a failed invocation is repaired. Its times are made up for by a
reading of the clock that was taken after the flag had been found down. -/
structure Failed (O : Outline) (l : LoopState) (i : Invocation) (now : Stamp) (h : History) :
    Prop where
  cleared : O.cleared l i h
  returned : returned h = some i.record
  reading : reading h = some now
  reached : Reached h now
  read : ∃ since older, h = since ++ older ∧ (∀ x ∈ since, x.request.Plain) ∧
    O.cleared l i older ∧ ∀ t, Reached older t → t ≤ now

/-- What is known when the thread has slept at the gate of an iteration. When the gate read the
clock, all that had been known before had passed. -/
structure Slept (O : Outline) (load : Option LoadSchedule) (thread : Nat) (l : LoopState)
    (h : History) : Prop where
  wakes : l.policy.Wakes load thread h
  read : ∃ since older, h = since ++ older ∧ (∀ x ∈ since, x.request.Plain) ∧
    O.resting l older ∧ ∀ now, gateReading h = some now → ∀ t, Reached older t → t ≤ now

section Weaker

variable {O P : Outline} {l : LoopState} {i : Invocation} {now : Stamp} {h : History}

/-- What an outline knows of a failure, another one does that follows from it. -/
theorem Failed.imp (failed : O.Failed l i now h)
    (implies : ∀ h, O.cleared l i h → P.cleared l i h) : P.Failed l i now h where
  cleared := implies h failed.cleared
  returned := failed.returned
  reading := failed.reading
  reached := failed.reached
  read := by
    obtain ⟨since, older, split, plain, cleared, passed⟩ := failed.read
    exact ⟨since, older, split, plain, implies older cleared, passed⟩

theorem Slept.imp {load : Option LoadSchedule} {thread : Nat} (slept : O.Slept load thread l h)
    (implies : ∀ h, O.resting l h → P.resting l h) : P.Slept load thread l h where
  wakes := slept.wakes
  read := by
    obtain ⟨since, older, split, plain, resting, passed⟩ := slept.read
    exact ⟨since, older, split, plain, implies older resting, passed⟩

end Weaker

/-- Every step of the thread `id` leads from one assertion to the next. -/
structure Sound {σ : Type} (O : Outline) (p : RunPlan σ) (id : Nat)
    (env safe : Exchange → History → Prop) : Prop where
  punctual : ∀ {x h}, env x h → Punctual x h
  mute : ∀ {x h}, x.request.Mute → safe x h
  ends : ∀ {t h}, h.justPlanned = false → safe ⟨t, .emit .runEnded, ()⟩ h
  unbegun_plain : ∀ {x h}, x.request.Plain → env x h → O.unbegun h → O.unbegun (x :: h)
  enters : ∀ {policy t now t' h}, p.control.Prepares policy h → env ⟨t, .call .clock, now⟩ h →
    O.unbegun h → O.resting (p.loop id policy now)
      (⟨t', .emit .runStarted, ()⟩ :: ⟨t, .call .clock, now⟩ :: h)
  resting_plain : ∀ {l x h}, x.request.Plain → env x h → O.resting l h → O.resting l (x :: h)
  notices : ∀ {l x start h}, env x h → x.start? = some start → O.resting l h →
    O.resting (l.withPolicy (l.policy.noticing start)) (x :: h)
  resumes : ∀ {l t now h} (t' : Stamp), O.Slept p.control.load id l h →
    let x : Exchange := ⟨t, .call .clock, now⟩
    let y : Exchange := ⟨t', .emit .resumed, ()⟩
    env x h → O.resting l h → safe y (x :: h) ∧ O.resting (l.reset now) (y :: x :: h)
  plans : ∀ {l h}, l.policy.Passes p.control.load id h → O.resting l h →
    (VirtualUser.emitAll (l.slots.plan p.workload l.random).2.2).Ensures env safe (fun _ h =>
      let l := l.plan p.workload
      let s := l.slots.earliest
      ∀ pending, s.pending = some pending →
        O.opening (l.put { s with pending := none }) (.ofSlot s pending) h) h
  stops : ∀ {l i t h}, O.opening l i h → l.policy.stopBefore i.pending.intended = true →
    safe ⟨t, .emit .runEnded, ()⟩ h
  opening_tracked : ∀ {l} {i : Invocation}, Timing.Tracked env fun r => O.opening l (i.withRecord r)
  calls : ∀ {l i t h}, (p.workload.operations[i.pending.operation]?).isSome →
    env ⟨t, .emit i.call, ()⟩ h → O.opening l i h →
    safe ⟨t, .emit i.call, ()⟩ h ∧ O.serving l i (⟨t, .emit i.call, ()⟩ :: h)
  serving_tracked : ∀ {l} {i : Invocation}, Timing.Tracked env fun r => O.serving l (i.withRecord r)
  clears : ∀ {l i x h}, env x h → x.isClear → O.serving l i h → O.cleared l i (x :: h)
  cleared_plain : ∀ {l i x h}, x.request.Plain → env x h → O.cleared l i h →
    O.cleared l i (x :: h)
  succeeds : ∀ {l i record result t h}, O.cleared l i h → i.record.complete = (record, none) →
    l.policy.Classifies record result →
    let i := i.withRecord record
    let x : Exchange := ⟨t, .emit (.transaction (i.sample result.2)), ()⟩
    env x h → safe x h ∧ O.closing (l.withPolicy result.1) i result.2 (x :: h)
  skips : ∀ {l i now t cause h}, O.Failed l i now h → (i.repair now l.policy).2.skip = true →
    cause.stopsRun = false →
    let x : Exchange := ⟨t, .emit (.skipped i.pending.operation cause), ()⟩
    env x h → safe x h ∧ O.resting (l.put i.slot) (x :: h)
  fails : ∀ {l i now cause result t h} (t' : Stamp), O.Failed l i now h →
    (i.repair now l.policy).2.skip = false → cause.stopsRun = false →
    let i := i.withRecord (i.repair now l.policy).1
    l.policy.Classifies i.record result →
    let x : Exchange := ⟨t, .emit (.error (i.sample result.2)), ()⟩
    let y : Exchange := ⟨t', .emit (.failed i.pending.operation result.2 cause), ()⟩
    env x h → safe x h ∧ O.closing (l.withPolicy result.1) i result.2 (y :: x :: h)
  delays : ∀ {l i phase sample t h}, O.closing l i phase h → h.JustTimed →
    i.delay? phase = some sample →
    let x : Exchange := ⟨t, .emit (.delay sample), ()⟩
    env x h → safe x h ∧ O.resting (l.follow i) (x :: h)
  closes : ∀ {l i phase h}, O.closing l i phase h → O.resting (l.follow i) h

/-- What the outline says of the thread between two programs. -/
def Stands {σ : Type} (O : Outline) (p : RunPlan σ) (id : Nat) : Stage σ → History → Prop
  | .starting me, h => me = id ∧ O.unbegun h
  | .ready u, h => (∃ state, u = p.user id state) ∧ O.unbegun h
  | .iterating u slots, h => u.id = id ∧ O.resting (u.loop slots) h
  | _, _ => True

/-- What holds of the thread between two programs. It does not rest between a plan and a call. -/
structure Holds {σ : Type} (O : Outline) (p : RunPlan σ) (id : Nat) (stage : Stage σ)
    (h : History) : Prop where
  unplanned : h.justPlanned = false
  stands : O.Stands p id stage h

namespace Sound

variable {σ : Type} {O : Outline} {p : RunPlan σ} {id : Nat} {env safe : Exchange → History → Prop}
  {u : VirtualUser σ} {slots : Slots} {slot : Slot} {pending : Pending} {h : History}

/-- An idle exchange is safe, unless it ends the loop right after a plan. -/
theorem idle {x : Exchange} (sound : O.Sound p id env safe) (idle : x.request.Idle)
    (unplanned : h.justPlanned = false) : safe x h := by
  obtain ⟨t, request, reply⟩ := x
  cases request with
  | call c => exact sound.mute trivial
  | emit e => cases e <;> first | exact sound.mute rfl | exact sound.ends unplanned | cases idle

/-- Idle requests end where the thread does not rest between a plan and a call. -/
theorem ensures_idle {α : Type} {q : Program α} {result : α → Prop}
    (sound : O.Sound p id env safe) (only : q.Only Request.Idle result)
    (unplanned : h.justPlanned = false) :
    q.Ensures env safe (fun a h => result a ∧ h.justPlanned = false) h := by
  refine only.ensures (fun x h idle _ unplanned => ?_) unplanned
  exact ⟨sound.idle idle unplanned, unplanned_of_plain idle.plain⟩

theorem failed_plain {l : LoopState} {i : Invocation} {now : Stamp} {x : Exchange}
    (sound : O.Sound p id env safe) (failed : O.Failed l i now h) (plain : x.request.Plain)
    (possible : env x h) (unreturned : x.returned? = none) (unread : x.reading? = none) :
    O.Failed l i now (x :: h) where
  cleared := sound.cleared_plain plain possible failed.cleared
  returned := by rw [History.returned, List.findSome?_cons, unreturned]; exact failed.returned
  reading := by rw [History.reading, List.findSome?_cons, unread]; exact failed.reading
  reached := failed.reached.cons
  read := by
    obtain ⟨since, older, rfl, plains, cleared, passed⟩ := failed.read
    refine ⟨x :: since, older, rfl, fun y mem => ?_, cleared, passed⟩
    rcases List.mem_cons.mp mem with rfl | old
    · exact plain
    · exact plains y old

/-- Classifying an invocation keeps whatever a look at the start keeps. -/
theorem classify {K : History → Prop} (sound : O.Sound p id env safe) (policy : Policy)
    (r : Timing) (now : K h)
    (lasts : ∀ {x h}, x.request = .call .startTime → env x h → K h → K (x :: h)) :
    (policy.classify r).Ensures env safe (fun result h => policy.Classifies r result ∧ K h) h := by
  refine (policy.classify_only r).ensures (fun x h asks possible kept => ?_) now
  have mute : x.request.Mute := by
    rw [asks]
    trivial
  exact ⟨sound.mute mute, lasts asks possible kept⟩

theorem of_ends {q : Program (Stage σ)} {v : VirtualUser σ} {error : Option RunError}
    (sound : O.Sound p id env safe) (only : q.Only Request.Idle (· = .ended v error))
    (unplanned : h.justPlanned = false) : q.Ensures env safe (O.Holds p id) h := by
  refine (sound.ensures_idle only unplanned).mono ?_
  rintro stage h ⟨rfl, unplanned⟩
  exact ⟨unplanned, trivial⟩

theorem proceed (sound : O.Sound p id env safe) (mine : u.id = id)
    (unplanned : h.justPlanned = false)
    (rest : O.resting ((u.loop slots).follow ⟨slot, pending, u.timing⟩) h) :
    (u.proceed slots slot).Ensures env safe (O.Holds p id) h := by
  unfold VirtualUser.proceed
  split
  next => exact sound.of_ends (u.finish_only none) unplanned
  next => exact ⟨unplanned, mine, rest⟩

/-- The delay of an accounted invocation is the last thing that is reported of it. -/
theorem close {phase : Phase} (sound : O.Sound p id env safe) (mine : u.id = id)
    (timed : h.JustTimed) (unplanned : h.justPlanned = false)
    (closing : O.closing (u.loop slots) ⟨slot, pending, u.timing⟩ phase h) :
    (VirtualUser.emitDelay pending phase u.timing).Ensures env safe
      (fun _ => (u.proceed slots slot).Ensures env safe (O.Holds p id)) h := by
  unfold VirtualUser.emitDelay
  split
  next sample has =>
    rw [ensures_emit]
    intro t possible
    obtain ⟨safe, rest⟩ := sound.delays closing timed has possible
    exact ⟨safe, sound.proceed mine rfl rest⟩
  next => exact sound.proceed mine unplanned (sound.closes closing)

theorem accountSuccess {name : String} (sound : O.Sound p id env safe) (mine : u.id = id)
    (unplanned : h.justPlanned = false)
    (cleared : O.cleared (u.loop slots) ⟨slot, pending, u.timing⟩ h) :
    (u.accountSuccess slots slot pending name).Ensures env safe (O.Holds p id) h := by
  unfold VirtualUser.accountSuccess
  cases completed : u.timing.complete with
  | mk record fault =>
    cases fault with
    | some fault => exact sound.of_ends (VirtualUser.fail_only _ _ _ _) unplanned
    | none =>
      simp only [ensures_bind, ensures_emit]
      intro t possible
      have cleared := sound.cleared_plain (x := ⟨t, .emit (.completed record), ()⟩) rfl possible
        cleared
      have lasts : ∀ {x h}, x.request = .call .startTime → env x h →
          O.cleared (u.loop slots) ⟨slot, pending, u.timing⟩ h →
            O.cleared (u.loop slots) ⟨slot, pending, u.timing⟩ (x :: h) :=
        fun asks => sound.cleared_plain (by rw [asks]; trivial)
      refine ⟨sound.mute rfl, (sound.classify u.policy record cleared lasts).mono ?_⟩
      intro result h classified t possible
      obtain ⟨safe, closing⟩ := sound.succeeds classified.2 completed classified.1 possible
      exact ⟨safe, sound.close mine trivial rfl closing⟩

theorem reportFailure {now : Stamp} {cause : ErrorChain} (sound : O.Sound p id env safe)
    (mine : u.id = id)
    (failed : O.Failed (u.loop slots) ⟨slot, pending, u.timing⟩ now h)
    (goesOn : cause.stopsRun = false) :
    let repaired := Invocation.repair ⟨slot, pending, u.timing⟩ now u.policy
    ((u.withTiming repaired.1).reportFailure slots slot pending cause repaired.2).Ensures env safe
      (O.Holds p id) h := by
  intro repaired
  unfold VirtualUser.reportFailure
  cases skipped : repaired.2.skip with
  | true =>
    simp only [↓reduceIte, ensures_bind, ensures_emit, ensures_pure]
    intro t possible
    obtain ⟨safe, rest⟩ := sound.skips failed skipped goesOn possible
    exact ⟨safe, rfl, mine, rest⟩
  | false =>
    simp only [Bool.false_eq_true, ↓reduceIte, ensures_bind, ensures_emit]
    have lasts : ∀ {x h}, x.request = .call .startTime → env x h →
        O.Failed (u.loop slots) ⟨slot, pending, u.timing⟩ now h →
          O.Failed (u.loop slots) ⟨slot, pending, u.timing⟩ now (x :: h) := by
      intro x h asks possible failed
      obtain ⟨t, request, reply⟩ := x
      cases asks
      exact sound.failed_plain failed trivial possible rfl rfl
    refine (sound.classify u.policy repaired.1 failed lasts).mono ?_
    intro result h classified t possible
    obtain ⟨classified, failed⟩ := classified
    have reports := fun t' => sound.fails t' failed skipped goesOn classified possible
    refine ⟨(reports t).1, fun t' _ => ⟨sound.mute rfl, ?_⟩⟩
    have closing := (reports t').2
    split
    next valid =>
      rw [ensures_bind]
      have timed : u.timing.invoke.isSome := Timing.repair_delayValid.symm.trans valid
      exact sound.close mine ⟨_, failed.returned, timed⟩ rfl closing
    next => exact sound.proceed mine rfl (sound.closes closing)

theorem accountFailure {name : String} {cause : ErrorChain} (sound : O.Sound p id env safe)
    (mine : u.id = id) (unplanned : h.justPlanned = false) (ret : returned h = some u.timing)
    (cleared : O.cleared (u.loop slots) ⟨slot, pending, u.timing⟩ h) :
    (u.accountFailure slots slot pending name cause).Ensures env safe (O.Holds p id) h := by
  unfold VirtualUser.accountFailure
  cases goesOn : cause.stopsRun with
  | true => exact sound.of_ends (VirtualUser.fail_only _ _ _ _) unplanned
  | false =>
    simp only [Bool.false_eq_true, ↓reduceIte, ensures_bind, ensures_clock]
    intro t now possible
    refine ⟨sound.mute trivial, ?_⟩
    have timely := (sound.punctual possible).timely
    have failed : O.Failed (u.loop slots) ⟨slot, pending, u.timing⟩ now
        (⟨t, .call .clock, now⟩ :: h) :=
      { cleared := sound.cleared_plain trivial possible cleared
        returned := ret
        reading := rfl
        reached := reached_of_reading timely rfl
        read := ⟨[_], h, rfl, by simp [Request.Plain], cleared,
          fun _ reached => reached.le timely rfl⟩ }
    split
    next =>
      simp only [ensures_bind, ensures_emit]
      intro t' possible'
      have failed := sound.failed_plain (x := ⟨t', .emit (.openRequest pending.operation), ()⟩)
        failed rfl possible' rfl rfl
      exact ⟨sound.mute rfl, sound.reportFailure mine failed goesOn⟩
    next => exact sound.reportFailure mine failed goesOn

theorem account {operation : Operation} {ending : Ending} (sound : O.Sound p id env safe)
    (mine : u.id = id) (unplanned : h.justPlanned = false)
    (serving : O.serving (u.loop slots) ⟨slot, pending, u.timing⟩ h) :
    (u.account slots slot pending operation ending).Ensures env safe (O.Holds p id) h := by
  have tracked := sound.serving_tracked (l := u.loop slots) (i := ⟨slot, pending, u.timing⟩)
  unfold VirtualUser.account
  cases ending with
  | panicked =>
    exact sound.of_ends (VirtualUser.failBinding_only _ _ _ (by simp [Event.isIdle])) unplanned
  | succeeded =>
    simp only [ensures_bind, ensures_emit, ensures_isAborted]
    intro t possible
    have serving := tracked.idle (x := ⟨t, .emit (.returned pending.operation u.timing), ()⟩) rfl
      possible serving
    refine ⟨sound.mute rfl, ?_⟩
    refine ((sound.ensures_idle (u.captureRespond_only operation) rfl).and
      (captureRespond_keeps tracked serving)).mono ?_
    intro v h kept t' aborted possible'
    obtain ⟨-, same, serving⟩ := kept
    refine ⟨sound.mute trivial, ?_⟩
    cases aborted with
    | true => exact sound.of_ends (VirtualUser.finish_only _ _) rfl
    | false =>
      have unmoved : v.loop slots = u.loop slots := by rw [same]; rfl
      have mine : v.id = id := by rw [same]; exact mine
      exact sound.accountSuccess mine rfl (unmoved ▸ sound.clears possible' rfl serving)
  | failed cause =>
    simp only [ensures_bind, ensures_emit, ensures_isAborted]
    intro t possible
    have serving := tracked.idle (x := ⟨t, .emit (.returned pending.operation u.timing), ()⟩) rfl
      possible serving
    refine ⟨sound.mute rfl, fun t' aborted possible' => ⟨sound.mute trivial, ?_⟩⟩
    cases aborted with
    | true => exact sound.of_ends (VirtualUser.finish_only _ _) rfl
    | false => exact sound.accountFailure mine rfl rfl (sound.clears possible' rfl serving)

theorem callHandler {operation : Operation} {handler : Handler σ} (sound : O.Sound p id env safe)
    (mine : u.id = id) (known : (p.workload.operations[pending.operation]?).isSome)
    (opening : O.opening (u.loop slots) ⟨slot, pending, u.timing⟩ h) :
    (u.callHandler slots slot pending operation handler).Ensures env safe (O.Holds p id) h := by
  have tracked := sound.serving_tracked (l := u.loop slots) (i := ⟨slot, pending, u.timing⟩)
  unfold VirtualUser.callHandler
  simp only [ensures_bind, ensures_emit]
  intro t possible
  obtain ⟨safe, serving⟩ := sound.calls known possible opening
  refine ⟨safe, ?_⟩
  refine ((sound.ensures_idle (Behaviour.run_only _ _) rfl).and
    (run_keeps tracked sound.punctual serving)).mono ?_
  intro result h kept
  obtain ⟨⟨-, unplanned⟩, serving⟩ := kept
  exact sound.account mine unplanned serving

theorem invoke (sound : O.Sound p id env safe) (mine : u.id = id)
    (opening : O.opening (u.loop slots) ⟨slot, pending, .intendedAt pending.intended⟩ h) :
    (u.invoke p.workload slots slot pending).Ensures env safe (O.Holds p id) h := by
  have tracked := sound.opening_tracked (l := u.loop slots) (i := ⟨slot, pending, u.timing⟩)
  unfold VirtualUser.invoke
  split
  next stops =>
    simp only [VirtualUser.finish, ensures_bind, ensures_emit, ensures_pure]
    exact fun t _ => ⟨sound.stops opening stops, rfl, trivial⟩
  next =>
    split
    next operation handler has _ =>
      simp only [ensures_bind, ensures_emit]
      intro t possible
      have opening := tracked.idle
        (x := ⟨t, .emit (.invoking pending.operation pending.intended), ()⟩) rfl possible opening
      refine ⟨sound.mute rfl, ?_⟩
      refine Ensures.mono ((sound.ensures_idle (VirtualUser.awaitInvocation_only _ _ _) rfl).and
        (awaitInvocation_keeps tracked sound.punctual opening rfl)) ?_
      intro result h kept
      obtain ⟨v, wait⟩ := result
      obtain ⟨⟨-, unplanned⟩, same, opening⟩ := kept
      cases wait with
      | cancelled => exact sound.of_ends (VirtualUser.finish_only _ _) unplanned
      | reached =>
        have unmoved : v.loop slots = u.loop slots := by rw [show v = _ from same]; rfl
        have mine : v.id = id := by rw [show v = _ from same]; exact mine
        exact sound.callHandler mine (by simp [has]) (unmoved ▸ opening)
    next =>
      simp only [VirtualUser.failBinding, ensures_bind, ensures_abort]
      refine fun t first _ => ⟨sound.mute trivial, ?_⟩
      exact sound.of_ends (VirtualUser.finish_only _ _) rfl

theorem advance (sound : O.Sound p id env safe) (mine : u.id = id)
    (passes : u.policy.Passes p.control.load id h) (rest : O.resting (u.loop slots) h) :
    (u.advance p.workload slots).Ensures env safe (O.Holds p id) h := by
  unfold VirtualUser.advance
  simp only [ensures_bind]
  refine (sound.plans passes rest).mono ?_
  intro _ h opens
  obtain ⟨pending, has⟩ := Slots.exists_pending_earliest slots p.workload u.random
  simp only [has]
  exact sound.invoke mine (opens pending has)

section Gates

variable {q : TimePolicy} {random : ChaCha}

/-- What is kept when the thread may have been told the start time. -/
def Notices (O : Outline) (q : TimePolicy) (random : ChaCha) (slots : Slots)
    (start : Option Stamp) (h : History) : Prop :=
  match start with
  | some start =>
    O.resting ⟨.time (q.withStart start), random, slots⟩ h ∧ told h = some start
  | none => O.resting ⟨.time q, random, slots⟩ h

theorem notices_of_told {x : Exchange} {start : Option Stamp} (sound : O.Sound p id env safe)
    (possible : env x h) (plain : x.request.Plain) (is : x.start? = start)
    (rest : O.resting ⟨.time q, random, slots⟩ h) : Notices O q random slots start (x :: h) := by
  cases start with
  | none => exact sound.resting_plain plain possible rest
  | some start => exact ⟨sound.notices possible is rest, told_cons_of_some is⟩

theorem noticeStart (sound : O.Sound p id env safe)
    (rest : O.resting ⟨.time q, random, slots⟩ h) :
    q.noticeStart.Ensures env safe (fun q h => O.resting ⟨.time q, random, slots⟩ h) h := by
  unfold TimePolicy.noticeStart
  cases q.bounds with
  | some bounds => exact rest
  | none =>
    simp only [ensures_bind, ensures_startTime]
    intro t start possible
    refine ⟨sound.mute trivial, ?_⟩
    have notices := sound.notices_of_told (x := ⟨t, .call .startTime, start⟩) possible trivial rfl
      rest
    cases start with
    | none => exact notices
    | some start => exact notices.1

theorem requireStart (sound : O.Sound p id env safe)
    (rest : O.resting ⟨.time q, random, slots⟩ h) :
    TimePolicy.requireStart.Ensures env safe (Notices O q random slots) h := by
  unfold TimePolicy.requireStart
  simp only [ensures_bind, ensures_startTime]
  intro t start possible
  refine ⟨sound.mute trivial, ?_⟩
  have notices := sound.notices_of_told (x := ⟨t, .call .startTime, start⟩) possible trivial rfl
    rest
  cases start with
  | some start => exact notices
  | none =>
    intro t' start possible'
    exact ⟨sound.mute trivial, sound.notices_of_told possible' trivial rfl notices⟩

theorem requireStart_unread {post : Option Stamp → History → Prop}
    (ensured : TimePolicy.requireStart.Ensures env safe post h) (unread : gateReading h = none) :
    TimePolicy.requireStart.Ensures env safe
      (fun start h => post start h ∧ gateReading h = none) h := by
  have step : ∀ (x : Exchange) h, x.request = .call .startTime ∨ x.request = .call .awaitStart →
      env x h → gateReading h = none → True ∧ gateReading (x :: h) = none := by
    intro x h asks _ unread
    obtain ⟨t, request, reply⟩ := x
    have unpolled : gateReading (⟨t, request, reply⟩ :: h) = (gateReading h).or none := by
      rcases asks with rfl | rfl <;> rfl
    exact ⟨trivial, unpolled.trans (by rw [unread]; rfl)⟩
  refine (ensured.and (TimePolicy.requireStart_only.ensures step unread)).mono ?_
  exact fun _ _ both => ⟨both.1, both.2.2⟩

/-- What holds beyond the gate of an iteration. A thread that is let through has passed; and one
that has been inactive has slept until it is taken back. -/
structure Beyond (O : Outline) (p : RunPlan σ) (id : Nat) (random : ChaCha) (slots : Slots)
    (result : Policy × Gate) (h : History) : Prop where
  resting : O.resting ⟨result.1, random, slots⟩ h
  passes : result.2 = .proceed → result.1.Passes p.control.load id h
  slept : result.2 = .resumed → O.Slept p.control.load id ⟨result.1, random, slots⟩ h

theorem gate (sound : O.Sound p id env safe) (unread : gateReading h = none)
    (rest : O.resting (u.loop slots) h) :
    (u.policy.gate p.control.load id).Ensures env safe (Beyond O p id u.random slots) h := by
  unfold VirtualUser.loop at rest
  cases policy : u.policy with
  | cycles q =>
    refine ⟨policy ▸ rest, fun proceeds => proceeds, fun resumed => ?_⟩
    simp only [CyclePolicy.gate] at resumed
    split at resumed <;> cases resumed
  | time q =>
    rw [policy] at rest
    simp only [Policy.gate, ensures_bind]
    unfold TimePolicy.gate
    cases load : p.control.load with
    | none =>
      simp only [ensures_bind]
      refine (sound.noticeStart rest).mono fun q h rest => ⟨rest, fun _ schedule => ?_, by simp⟩
      simp [load]
    | some schedule =>
      simp only [ensures_bind]
      refine (requireStart_unread (sound.requireStart rest) unread).mono fun start h notices => ?_
      obtain ⟨notices, unread⟩ := notices
      cases start with
      | none => exact ⟨notices, by simp, by simp⟩
      | some start =>
        obtain ⟨rest₀, known⟩ := notices
        simp only [ensures_bind, ensures_clock]
        intro t now possible
        let x : Exchange := ⟨t, .call .clock, now⟩
        have rest := sound.resting_plain (x := x) trivial possible rest₀
        have timely := (sound.punctual possible).timely
        have read : gateReading (x :: h) = some now :=
          (congrArg (Option.or · (some now)) unread).trans rfl
        refine ⟨sound.mute trivial, ?_⟩
        split
        next active =>
          refine ⟨rest, fun _ schedule' same => ?_, by simp⟩
          obtain rfl : schedule = schedule' := Option.some.inj (load.symm.trans same)
          exact ⟨start, now, known, read, TimePolicy.lt_of_active active⟩
        next => exact ⟨rest, by simp, by simp⟩
        next active wake parks =>
          obtain ⟨offset, levels, inactive, rfl, within⟩ := TimePolicy.exists_of_park parks
          have parked : Parked schedule id start now offset (x :: h) :=
            ⟨known, read, by rw [levels]; exact inactive, by rw [levels]⟩
          simp only [ensures_bind, ensures_emit, ensures_sleepUntil]
          intro t' possible'
          let y : Exchange := ⟨t', .emit (.parked active), ()⟩
          have rest := sound.resting_plain (x := y) rfl possible' rest
          refine ⟨sound.mute rfl, fun t'' wait possible'' => ⟨sound.mute trivial, ?_⟩⟩
          let z : Exchange := ⟨t'', .call (.sleepUntil (Stamp.plus start offset)), wait⟩
          have rest := sound.resting_plain (x := z) trivial possible'' rest
          cases wait with
          | cancelled => exact ⟨rest, by simp, by simp⟩
          | reached =>
            obtain ⟨bounds, set⟩ := q.exists_bounds start
            have parked := (parked.idle (x := y) rfl).idle (x := z) rfl
            have plain : ∀ w ∈ [z, y, x], w.request.Plain := by
              simp [x, y, z, Request.Plain, Event.isIdle]
            refine ⟨rest, by simp, fun _ =>
              ⟨⟨schedule, start, now, offset, _, bounds, load, parked, rfl, set, within bounds set,
                reached_of_slept (sound.punctual possible'') rfl⟩, [z, y, x], h, rfl, plain, rest₀,
                fun now' same t reached => ?_⟩⟩
            obtain rfl := Option.some.inj (parked.read.symm.trans same)
            exact reached.le timely rfl

end Gates

theorem iterate (sound : O.Sound p id env safe) (mine : u.id = id)
    (rest : O.resting (u.loop slots) h) :
    (u.iterate p.workload p.control.load slots).Ensures env safe (O.Holds p id) h := by
  unfold VirtualUser.iterate
  simp only [ensures_bind, ensures_isAborted]
  intro t aborted possible
  refine ⟨sound.mute trivial, ?_⟩
  have rest := sound.resting_plain (x := ⟨t, .call .isAborted, aborted⟩) trivial possible rest
  cases aborted with
  | true => exact sound.of_ends (VirtualUser.finish_only _ _) rfl
  | false =>
    have unplanned : (u.policy.gate p.control.load id).Ensures env (fun _ _ => True)
        (fun _ h => h.justPlanned = false) (⟨t, .call .isAborted, false⟩ :: h) :=
      (u.policy.gate_only p.control.load id).unplanned rfl
    simp only [Bool.false_eq_true, ↓reduceIte, ensures_bind, mine]
    refine ((sound.gate rfl rest).and unplanned).mono ?_
    intro result h passed
    obtain ⟨policy, gate⟩ := result
    obtain ⟨beyond, unplanned⟩ := passed
    cases gate with
    | stop => exact sound.of_ends (VirtualUser.finish_only _ _) unplanned
    | cancelled => exact sound.of_ends (VirtualUser.finish_only _ _) unplanned
    | proceed => exact sound.advance rfl (beyond.passes rfl) beyond.resting
    | resumed =>
      simp only [VirtualUser.obey, ensures_bind, ensures_clock, ensures_emit, ensures_pure]
      intro t' now possible'
      refine ⟨sound.mute trivial, fun t'' _ => ?_⟩
      obtain ⟨safe, rest⟩ := sound.resumes t'' (beyond.slept rfl) possible' beyond.resting
      exact ⟨safe, rfl, rfl, rest⟩

theorem enter (state : σ) (policy : Policy) (sound : O.Sound p id env safe)
    (unbegun : O.unbegun h) (prepares : p.control.Prepares policy h) :
    (({ p.user id state with policy := policy } : VirtualUser σ).enter p.workload).Ensures env safe
      (O.Holds p id) h := by
  unfold VirtualUser.enter
  simp only [ensures_bind, ensures_clock, ensures_emit, ensures_pure]
  intro t now possible
  refine ⟨sound.mute trivial, fun t' _ => ⟨sound.mute rfl, rfl, rfl, ?_⟩⟩
  exact sound.enters prepares possible unbegun

theorem start {state : σ} (sound : O.Sound p id env safe) (unbegun : O.unbegun h) :
    ((p.user id state).start p.workload).Ensures env safe (O.Holds p id) h := by
  unfold VirtualUser.start
  have policy : (p.user id state).policy = p.control.policy := rfl
  simp only [ensures_bind, ensures_enrol, policy, p.control.prepare_policy]
  intro t possible
  have unbegun := sound.unbegun_plain (x := ⟨t, .call .enrol, ()⟩) trivial possible unbegun
  refine ⟨sound.mute trivial, ?_⟩
  cases simultaneous : p.control.simultaneous with
  | false =>
    simp only [Bool.false_eq_true, ↓reduceIte, ensures_pure]
    exact sound.enter state _ unbegun (Or.inl ⟨simultaneous, rfl⟩)
  | true =>
    simp only [↓reduceIte, ensures_bind, ensures_awaitStart, ensures_pure]
    intro t' start possible'
    refine ⟨sound.mute trivial, ?_⟩
    have unbegun := sound.unbegun_plain (x := ⟨t', .call .awaitStart, start⟩) trivial possible'
      unbegun
    cases start with
    | none => exact ⟨rfl, trivial⟩
    | some start =>
      exact sound.enter state _ unbegun
        (Or.inr ⟨simultaneous, start, told_cons_of_some rfl, rfl⟩)

theorem follow {stage : Stage σ} {next : Program (Stage σ)} (sound : O.Sound p id env safe)
    (holds : O.Holds p id stage h) (follows : p.follow stage = some next) :
    next.Ensures env safe (O.Holds p id) h := by
  obtain ⟨unplanned, stands⟩ := holds
  cases stage with
  | starting me =>
    cases follows
    obtain ⟨rfl, unbegun⟩ := stands
    have step : ∀ x h, x.request.Idle → env x h → O.unbegun h → True ∧ O.unbegun (x :: h) :=
      fun x h idle possible unbegun =>
        ⟨trivial, sound.unbegun_plain idle.plain possible unbegun⟩
    refine ((sound.ensures_idle (p.launch_only me) unplanned).and
      ((p.launch_only me).ensures step unbegun)).mono ?_
    intro stage h both
    obtain ⟨⟨launched, unplanned⟩, -, unbegun⟩ := both
    rcases launched with ⟨state, rfl⟩ | ⟨result, rfl⟩
    · exact ⟨unplanned, ⟨state, rfl⟩, unbegun⟩
    · exact ⟨unplanned, trivial⟩
  | ready u =>
    cases follows
    obtain ⟨⟨state, rfl⟩, unbegun⟩ := stands
    exact sound.start unbegun
  | iterating u slots =>
    cases follows
    exact sound.iterate stands.1 stands.2
  | ended u error =>
    cases follows
    refine (sound.ensures_idle (p.conclude_only u error) unplanned).mono ?_
    rintro stage h ⟨⟨result, rfl⟩, unplanned⟩
    exact ⟨unplanned, trivial⟩
  | conducting =>
    cases follows
    refine (sound.ensures_idle p.conduct_only unplanned).mono ?_
    rintro stage h ⟨⟨now, rfl⟩, unplanned⟩
    exact ⟨unplanned, trivial⟩
  | finished result => cases follows
  | conducted now => cases follows

variable {e : Ensemble (Stage σ)} {now : Stamp} {hs : Nat → History}

/-- In a run, the thread has reported only what is safe, and at a stage its assertion holds. -/
theorem of_run (sound : O.Sound p id env safe) (begins : O.unbegun [])
    (run : Ensemble.Run p.follow p.ensemble now e hs) (possible : (hs id).Each env) :
    (hs id).Each safe ∧ ∀ m stage, e.members[id]? = some m → m.stage? = some stage →
      O.Holds p id stage (hs id) := by
  obtain ⟨safe, holds⟩ := RunPlan.ensures_of_run (O.Holds p id) ⟨rfl, rfl, begins⟩ ⟨rfl, trivial⟩
    (fun _ _ _ holds follows => sound.follow holds follows) run possible
  refine ⟨safe, fun m stage present staged => ?_⟩
  have rest := holds m present
  rw [Member.thread_of_stage staged] at rest
  exact rest

end Sound

end Outline

end LoadGen
