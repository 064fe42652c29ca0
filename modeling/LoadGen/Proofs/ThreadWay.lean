import LoadGen.Proofs.Launch
import LoadGen.Proofs.RunOfPlan
import LoadGen.Proofs.SlotInvariants

namespace LoadGen

/-- Where a thread stands. -/
inductive Standing
  | launching
  /-- The thread has been initialized, or its initialization has failed. -/
  | arrived
  | ready
  /-- Before the look at the flag with which an iteration begins. -/
  | outside
  /-- The iteration has found the flag down and has not called a handler yet. -/
  | deciding
  /-- A wait before the call has been cancelled. -/
  | leaving
  /-- The handler runs; it may have been told that a wait was cancelled. -/
  | calling (told : Bool)
  | returned (told : Bool)
  /-- The handler has returned, and the flag has been found down after that. -/
  | accounting
  | failing
  /-- The invocation has been accounted for, perhaps with its delay. -/
  | reported (whole : Bool)
  /-- The thread has found the flag raised. -/
  | dropped
  /-- The thread has aborted the run for a fatal cause. -/
  | failed
  | gone
  | conducting
  | fixing
  deriving DecidableEq

/-- Whether the exchange is one that can take a thread away from where it stands. The abort is left
out: it does so in one place only. -/
def Exchange.isLandmark : Exchange → Bool
  | ⟨_, .call .arrive, _⟩ | ⟨_, .call .enrol, _⟩ | ⟨_, .call .awaitAll, _⟩
  | ⟨_, .call .isAborted, _⟩ | ⟨_, .call .awaitStart, none⟩
  | ⟨_, .call (.sleepUntil _), .cancelled⟩
  | ⟨_, .emit .runStarted, _⟩ | ⟨_, .emit .resumed, _⟩ | ⟨_, .emit (.called ..), _⟩
  | ⟨_, .emit (.returned ..), _⟩ | ⟨_, .emit (.transaction _), _⟩ | ⟨_, .emit (.error _), _⟩
  | ⟨_, .emit (.skipped ..), _⟩ | ⟨_, .emit (.delay _), _⟩ | ⟨_, .emit .runEnded, _⟩ => true
  | _ => false

namespace Standing

/-- Where a thread stands after a request and its reply. -/
def next : Standing → (request : Request) → request.Reply → Option Standing
  | launching => fun
    | .emit .hookBefore, _ | .emit (.initializationFailed _), _ | .call (.abort _), _ =>
      some launching
    | .call .arrive, _ => some arrived
    | _, _ => none
  | arrived => fun
    | .call .enrol, _ => some ready
    | _, _ => none
  | ready => fun
    | .call .awaitStart, some _ | .call .clock, _ => some ready
    | .call .awaitStart, none => some gone
    | .emit .runStarted, _ => some outside
    | _, _ => none
  | outside => fun
    | .call .isAborted, false => some deciding
    | .call .isAborted, true => some dropped
    | _, _ => none
  | deciding => fun
    | .call .startTime, _ | .call .awaitStart, some _ | .call .clock, _ | .call (.abort _), _
    | .call (.sleepUntil _), .reached | .emit (.parked _), _ | .emit (.planned ..), _
    | .emit (.invoking ..), _ => some deciding
    | .call .awaitStart, none | .call (.sleepUntil _), .cancelled => some leaving
    | .emit .resumed, _ => some outside
    | .emit (.called ..), _ => some (calling false)
    | .emit .runEnded, _ => some gone
    | _, _ => none
  | leaving => fun
    | .emit .runEnded, _ => some gone
    | _, _ => none
  | calling told => fun
    | .call (.sleepUntil _), .cancelled => some (calling true)
    | .call (.sleepUntil _), .reached | .call .clock, _ | .call (.pass _), _
    | .call (.fixStart _), _ | .call (.abort _), _ | .emit (.note _), _
    | .emit (.panicked _), _ => some (calling told)
    | .emit (.returned ..), _ => some (returned told)
    | .emit .runEnded, _ => some gone
    | _, _ => none
  | returned told => fun
    | .call .clock, _ => some (returned told)
    | .call .isAborted, false => some accounting
    | .call .isAborted, true => some dropped
    | _, _ => none
  | accounting => fun
    | .call .clock, _ | .call .startTime, _ | .emit (.completed _), _
    | .emit (.openRequest _), _ => some accounting
    | .call (.abort _), _ => some failing
    | .emit (.transaction _), _ | .emit (.error _), _ | .emit (.skipped ..), _ =>
      some (reported false)
    | _, _ => none
  | failing => fun
    | .emit (.aborting ..), _ => some failing
    | .emit .runEnded, _ => some failed
    | _, _ => none
  | reported whole => fun
    | .emit (.failed ..), _ => some (reported whole)
    | .emit (.delay _), _ => if whole then none else some (reported true)
    | .call .isAborted, false => some deciding
    | .call .isAborted, true => some dropped
    | .emit .runEnded, _ => some gone
    | _, _ => none
  | dropped => fun
    | .emit .runEnded, _ | .emit .hookAfter, _ | .emit (.hookAfterFailed _), _ => some dropped
    | _, _ => none
  | failed => fun
    | .emit .hookAfter, _ | .emit (.hookAfterFailed _), _ => some failed
    | _, _ => none
  | gone => fun
    | .emit .hookAfter, _ | .emit (.hookAfterFailed _), _ => some gone
    | _, _ => none
  | conducting => fun
    | .call .awaitAll, _ => some fixing
    | _, _ => none
  | fixing => fun
    | .call .clock, _ | .call (.fixStart _), _ => some fixing
    | _, _ => none

/-- How an exchange takes a thread from one standing to another: an ordinary one leaves it where it
is, and the others take it on by what they say. -/
inductive Step : Standing → Exchange → Standing → Prop
  | stays {x : Exchange} {st : Standing} (ordinary : x.isLandmark = false) : Step st x st
  | arrives {t : Stamp} {reply : Call.arrive.Reply} :
      Step launching ⟨t, .call .arrive, reply⟩ arrived
  | enrols {t : Stamp} {reply : Call.enrol.Reply} : Step arrived ⟨t, .call .enrol, reply⟩ ready
  /-- The abort has come before the start. -/
  | startsNever {t : Stamp} : Step ready ⟨t, .call .awaitStart, none⟩ gone
  | begins {t : Stamp} : Step ready ⟨t, .emit .runStarted, ()⟩ outside
  | enters {t : Stamp} : Step outside ⟨t, .call .isAborted, false⟩ deciding
  | resumes {t : Stamp} : Step deciding ⟨t, .emit .resumed, ()⟩ outside
  /-- The gate has asked for the start, and the abort has come before it. -/
  | misses {t : Stamp} : Step deciding ⟨t, .call .awaitStart, none⟩ leaving
  | cancels {t deadline : Stamp} :
      Step deciding ⟨t, .call (.sleepUntil deadline), .cancelled⟩ leaving
  | calls {t intended : Stamp} {background : Bool} {operation : Nat} :
      Step deciding ⟨t, .emit (.called background operation intended), ()⟩ (calling false)
  /-- The handler is told that a wait of it has been cancelled. -/
  | hears {t deadline : Stamp} {told : Bool} :
      Step (calling told) ⟨t, .call (.sleepUntil deadline), .cancelled⟩ (calling true)
  | returns {t : Stamp} {operation : Nat} {record : Timing} {told : Bool} :
      Step (calling told) ⟨t, .emit (.returned operation record), ()⟩ (returned told)
  | clears {t : Stamp} {told : Bool} :
      Step (returned told) ⟨t, .call .isAborted, false⟩ accounting
  | succeeds {t : Stamp} {sample : Sample} :
      Step accounting ⟨t, .emit (.transaction sample), ()⟩ (reported false)
  | errs {t : Stamp} {sample : Sample} :
      Step accounting ⟨t, .emit (.error sample), ()⟩ (reported false)
  | skips {t : Stamp} {operation : Nat} {cause : ErrorChain} :
      Step accounting ⟨t, .emit (.skipped operation cause), ()⟩ (reported false)
  | aborts {t : Stamp} {cause : AbortCause} {first : (Call.abort cause).Reply} :
      Step accounting ⟨t, .call (.abort cause), first⟩ failing
  | delays {t : Stamp} {sample : DelaySample} :
      Step (reported false) ⟨t, .emit (.delay sample), ()⟩ (reported true)
  | goesOn {t : Stamp} {whole : Bool} :
      Step (reported whole) ⟨t, .call .isAborted, false⟩ deciding
  | drops {t : Stamp} {st : Standing}
      (looks : st = outside ∨ (∃ told, st = returned told) ∨ ∃ whole, st = reported whole) :
      Step st ⟨t, .call .isAborted, true⟩ dropped
  | ends {t : Stamp} {st : Standing}
      (leaves : st = deciding ∨ st = leaving ∨ (∃ told, st = calling told) ∨
        ∃ whole, st = reported whole) :
      Step st ⟨t, .emit .runEnded, ()⟩ gone
  | quits {t : Stamp} : Step dropped ⟨t, .emit .runEnded, ()⟩ dropped
  | fails {t : Stamp} : Step failing ⟨t, .emit .runEnded, ()⟩ failed
  | opens {t : Stamp} {reply : Call.awaitAll.Reply} :
      Step conducting ⟨t, .call .awaitAll, reply⟩ fixing

/-- The one place where the steps are read off the standing and the request. -/
theorem step_of_next {st st' : Standing} {x : Exchange}
    (steps : st.next x.request x.reply = some st') : Step st x st' := by
  obtain ⟨t, request, reply⟩ := x
  cases st <;> simp only [next] at steps
  case launching =>
    split at steps <;> cases steps <;> first | exact .arrives | exact .stays rfl
  case arrived =>
    split at steps <;> cases steps
    exact .enrols
  case ready =>
    split at steps <;> cases steps <;>
      first | exact .startsNever | exact .begins | exact .stays rfl
  case outside =>
    split at steps <;> cases steps <;> first | exact .enters | exact .drops (Or.inl rfl)
  case deciding =>
    split at steps <;> cases steps <;>
      first
      | exact .misses | exact .cancels | exact .resumes | exact .calls
      | exact .ends (Or.inl rfl) | exact .stays rfl
  case leaving =>
    split at steps <;> cases steps
    exact .ends (Or.inr (Or.inl rfl))
  case calling told =>
    split at steps <;> cases steps <;>
      first
      | exact .hears | exact .returns | exact .ends (Or.inr (Or.inr (Or.inl ⟨told, rfl⟩)))
      | exact .stays rfl
  case returned told =>
    split at steps <;> cases steps <;>
      first | exact .clears | exact .drops (Or.inr (Or.inl ⟨told, rfl⟩)) | exact .stays rfl
  case accounting =>
    split at steps <;> cases steps <;>
      first | exact .succeeds | exact .errs | exact .skips | exact .aborts | exact .stays rfl
  case failing =>
    split at steps <;> cases steps <;> first | exact .fails | exact .stays rfl
  case reported whole =>
    cases whole <;> split at steps <;> cases steps <;>
      first
      | exact .goesOn | exact .delays | exact .drops (Or.inr (Or.inr ⟨_, rfl⟩))
      | exact .ends (Or.inr (Or.inr (Or.inr ⟨_, rfl⟩))) | exact .stays rfl
  case dropped => split at steps <;> cases steps <;> first | exact .quits | exact .stays rfl
  case failed => split at steps <;> cases steps <;> exact .stays rfl
  case gone => split at steps <;> cases steps <;> exact .stays rfl
  case conducting =>
    split at steps <;> cases steps
    exact .opens
  case fixing => split at steps <;> cases steps <;> exact .stays rfl

/-- Where a thread stands that began at a standing; none if its exchanges are no possible way. -/
def after (first : Standing) : History → Option Standing
  | [] => some first
  | x :: h => (first.after h).bind fun st => st.next x.request x.reply

theorem after_cons {first st st' : Standing} {x : Exchange} {h : History}
    (now : first.after h = some st) (steps : st.next x.request x.reply = some st') :
    first.after (x :: h) = some st' := by
  rw [after, now]
  exact steps

theorem exists_of_after_cons {first st' : Standing} {x : Exchange} {h : History}
    (now : first.after (x :: h) = some st') :
    ∃ st, first.after h = some st ∧ st.next x.request x.reply = some st' :=
  Option.bind_eq_some_iff.mp now

theorem exists_after_of_append {first st : Standing} {new h : History}
    (now : first.after (new ++ h) = some st) : ∃ before, first.after h = some before := by
  induction new generalizing st with
  | nil => exact ⟨st, now⟩
  | cons x new ih =>
    obtain ⟨before, stood, -⟩ := exists_of_after_cons now
    exact ih stood

theorem exists_after_of_suffix {first st : Standing} {h older : History}
    (now : first.after h = some st) (part : older <:+ h) :
    ∃ before, first.after older = some before := by
  obtain ⟨new, rfl⟩ := part
  exact exists_after_of_append now

/-- If every exchange of a kind takes from what is left of a standing, there are no more of them
than were left at first. -/
theorem countP_le_of_next {kind : Exchange → Bool} {left : Standing → Nat} {first st st' : Standing}
    {h new : History}
    (takes : ∀ x ∈ new, ∀ {st st'}, next st x.request x.reply = some st' →
      (kind x).toNat + left st' ≤ left st)
    (before : first.after h = some st) (now : first.after (new ++ h) = some st') :
    new.countP kind + left st' ≤ left st := by
  induction new generalizing st' with
  | nil =>
    obtain rfl : st = st' := Option.some.inj (before.symm.trans now)
    simp
  | cons x new ih =>
    obtain ⟨mid, stood, steps⟩ := exists_of_after_cons now
    have so_far := ih (fun y mem => takes y (List.mem_cons_of_mem x mem)) stood
    have step := takes x List.mem_cons_self steps
    cases is : kind x <;> simp [is] at step ⊢ <;> omega

end Standing

namespace Program

variable {α β : Type}

/-- From a standing on, the program makes only requests that are allowed where it stands, whatever
it is told, and its ends meet a condition. -/
def Walks (post : α → Standing → Prop) : Program α → Standing → Prop
  | done a, st => post a st
  | ask request next, st =>
    ∀ reply, ∃ st', st.next request reply = some st' ∧ (next reply).Walks post st'

variable {st : Standing}

@[simp] theorem walks_pure {post : α → Standing → Prop} {a : α} :
    (pure a : Program α).Walks post st ↔ post a st := Iff.rfl

@[simp] theorem walks_bind {post : β → Standing → Prop} {p : Program α} {f : α → Program β} :
    (p >>= f).Walks post st ↔ p.Walks (fun a st => (f a).Walks post st) st := by
  change (p.bind f).Walks post st ↔ _
  induction p generalizing st with
  | done a => rfl
  | ask request next ih => simp only [Program.bind, Walks, ih]

theorem walks_call {c : Call} {f : c.Reply → Program α} {post : α → Standing → Prop}
    (steps : ∀ reply, ∃ st', st.next (.call c) reply = some st' ∧ (f reply).Walks post st') :
    (call c >>= f).Walks post st := walks_bind.mpr steps

theorem walks_emit {e : Event} {f : Unit → Program α} {post : α → Standing → Prop}
    {st' : Standing} (steps : st.next (.emit e) () = some st') (rest : (f ()).Walks post st') :
    (emit e >>= f).Walks post st := walks_bind.mpr fun _ => ⟨st', steps, rest⟩

theorem Walks.mono {post weaker : α → Standing → Prop} {p : Program α} (walks : p.Walks post st)
    (imp : ∀ a st, post a st → weaker a st) : p.Walks weaker st := by
  induction p generalizing st with
  | done a => exact imp a st walks
  | ask request next ih =>
    intro reply
    obtain ⟨st', steps, rest⟩ := walks reply
    exact ⟨st', steps, ih reply rest⟩

end Program

/-- Programs that lead from standing to standing make the way of a whole course. -/
theorem Course.walks {α : Type} {follow : α → Option (Program α)} {first p : Program α}
    {h : History} {begun : Standing} {post : α → Standing → Prop} (begins : first.Walks post begun)
    (keeps : ∀ stage p st, post stage st → follow stage = some p → p.Walks post st)
    (course : Course follow first p h) : ∃ st, begun.after h = some st ∧ p.Walks post st := by
  induction course with
  | start => exact ⟨begun, rfl, begins⟩
  | follow _ next ih =>
    obtain ⟨st, now, ends⟩ := ih
    exact ⟨st, now, keeps _ _ _ ends next⟩
  | answer t reply _ ih =>
    obtain ⟨st, now, walks⟩ := ih
    obtain ⟨st', steps, rest⟩ := walks reply
    exact ⟨st', Standing.after_cons now steps, rest⟩

def RunError.isFatal : RunError → Bool
  | fatal .. => true
  | _ => false

namespace Stage

variable {σ : Type}

/-- How a thread can end that stands somewhere: who has found the flag raised has no error, and only
who has aborted the run has a fatal one. -/
def Leaves (error : Option RunError) : Standing → Prop
  | .dropped => error = none
  | .failed => True
  | .gone => error.all (! ·.isFatal)
  | _ => False

/-- How a thread can have ended: after what it leaves its loop with, the hook after the run can
still break it down. -/
def Finishes (result : ThreadEnd) : Standing → Prop
  | .dropped => result.error = none ∨ result.error = some (.panicked result.thread)
  | .failed => True
  | .arrived | .gone => result.error.all (! ·.isFatal)
  | _ => False

def At : Stage σ → Standing → Prop
  | .starting _, st => st = .launching
  | .ready _, st => st = .arrived
  | .iterating .., st => st = .outside ∨ ∃ whole, st = .reported whole
  | .ended _ error, st => Leaves error st
  | .finished result, st => Finishes result st
  | .conducting, st => st = .conducting
  | .conducted _, st => st = .fixing

end Stage

namespace Stage

/-- Once out of its loop, a thread stays where it stands. -/
theorem hooks_of_leaves {error : Option RunError} {st : Standing} (leaves : Leaves error st) :
    st.next (.emit .hookAfter) () = some st ∧
      (∀ cause, st.next (.emit (.hookAfterFailed cause)) () = some st) ∧
      (∀ id completed, Finishes ⟨id, completed, error⟩ st) ∧
      ∀ id, Finishes ⟨id, false, some (.panicked id)⟩ st := by
  cases st with
  | dropped => exact ⟨rfl, fun _ => rfl, fun _ _ => Or.inl leaves, fun _ => Or.inr rfl⟩
  | failed => exact ⟨rfl, fun _ => rfl, fun _ _ => trivial, fun _ => trivial⟩
  | gone => exact ⟨rfl, fun _ => rfl, fun _ _ => leaves, fun _ => rfl⟩
  | _ => cases leaves

end Stage

open Program Standing

namespace Context

/-- A part of a handler's way, which may be told that a wait was cancelled. -/
def Runs {α : Type} (p : Program α) : Prop :=
  ∀ told, p.Walks (fun _ st => ∃ told, st = .calling told) (.calling told)

theorem recordStart_runs (c : Context) : Runs c.recordStart := by
  intro told
  unfold recordStart
  cases c.mode with
  | automatic => exact ⟨told, rfl⟩
  | manual =>
    cases c.timing.intended with
    | none => exact walks_call fun now => ⟨_, rfl, told, rfl⟩
    | some intended =>
      refine walks_call fun wait => ?_
      cases wait with
      | reached => exact ⟨_, rfl, walks_call fun now => ⟨_, rfl, told, rfl⟩⟩
      | cancelled => exact ⟨_, rfl, true, rfl⟩

theorem recordEnd_runs (c : Context) : Runs c.recordEnd := by
  intro told
  unfold recordEnd
  cases c.mode with
  | automatic => exact ⟨told, rfl⟩
  | manual => exact fun now => ⟨_, rfl, told, rfl⟩

theorem Runs.map {α β : Type} {p : Program α} (runs : Runs p) (f : α → β) :
    Runs (do
      let a ← p
      pure (f a)) := by
  intro told
  rw [walks_bind]
  exact runs told

theorem recordTime_runs (c : Context) : Runs c.recordTime := by
  unfold recordTime
  split
  next => exact c.recordEnd_runs.map _
  next => exact c.recordStart_runs

theorem perform_runs (c : Context) (call : ContextCall) : Runs (c.perform call) := by
  cases call with
  | recordTime => exact c.recordTime_runs
  | recordStart => exact c.recordStart_runs
  | recordEnd => exact c.recordEnd_runs.map _
  | recordLast | now | sleep _ | fixStart _ | abort _ | note _ =>
    exact fun told reply => ⟨_, rfl, told, rfl⟩
  | addPause _ | isSteady | timing | names => exact fun told => ⟨told, rfl⟩

end Context

theorem Behaviour.run_runs {σ : Type} (b : Behaviour σ) (c : Context) :
    Context.Runs (b.run c) := by
  induction b generalizing c with
  | calls call next ih =>
    intro told
    simp only [run, walks_bind]
    refine (c.perform_runs call told).mono fun reply st runs => ?_
    obtain ⟨told, rfl⟩ := runs
    exact ih reply.2 reply.1 told
  | _ => exact fun told => ⟨told, rfl⟩

theorem Policy.classify_walks (policy : Policy) (r : Timing) :
    (policy.classify r).Walks (fun _ st => st = .accounting) .accounting := by
  cases policy with
  | time q => rfl
  | cycles q =>
    simp only [classify]
    split
    next => rfl
    next => exact walks_call fun start => ⟨_, rfl, rfl⟩

namespace VirtualUser

variable {σ : Type} (u : VirtualUser σ) (w : Workload σ)

theorem finish_walks {st st' : Standing} {error : Option RunError}
    (ends : st.next (.emit .runEnded) () = some st') (leaves : Stage.Leaves error st') :
    (u.finish error).Walks Stage.At st := by
  exact walks_emit ends leaves

theorem fail_walks (operation : Nat) (name : String) (cause : ErrorChain) :
    (u.fail operation name cause).Walks Stage.At .accounting := by
  refine walks_call fun first => ⟨_, rfl, ?_⟩
  cases first with
  | true => exact walks_emit rfl (u.finish_walks rfl trivial)
  | false => exact u.finish_walks rfl trivial

theorem emitAll_walks {st : Standing} {events : List Event}
    (stays : ∀ e ∈ events, st.next (.emit e) () = some st) :
    (emitAll events).Walks (fun _ st' => st' = st) st := by
  induction events with
  | nil => rfl
  | cons e rest ih =>
    refine walks_emit (stays e (by simp)) ?_
    exact ih fun other mem => stays other (List.mem_cons_of_mem e mem)

theorem failBinding_walks {st : Standing} (name message : String) {events : List Event}
    (aborts : ∀ cause first, st.next (.call (.abort cause)) first = some st)
    (stays : ∀ e ∈ events, st.next (.emit e) () = some st)
    (ends : st.next (.emit .runEnded) () = some .gone) :
    (u.failBinding name message events).Walks Stage.At st := by
  refine walks_call fun first => ⟨st, aborts _ first, ?_⟩
  rw [walks_bind]
  refine (emitAll_walks stays).mono fun _ st' same => ?_
  subst same
  exact u.finish_walks ends rfl

theorem proceed_walks (slots : Slots) (slot : Slot) (whole : Bool) :
    (u.proceed slots slot).Walks Stage.At (.reported whole) := by
  unfold proceed
  split
  next => exact u.finish_walks rfl rfl
  next => exact Or.inr ⟨whole, rfl⟩

theorem emitDelay_walks (pending : Pending) (phase : Phase) (r : Timing) :
    (emitDelay pending phase r).Walks (fun _ st => ∃ whole, st = .reported whole)
      (.reported false) := by
  unfold emitDelay
  split
  next => exact fun _ => ⟨_, rfl, true, rfl⟩
  next => exact ⟨false, rfl⟩

theorem accountSuccess_walks (slots : Slots) (slot : Slot) (pending : Pending) (name : String) :
    (u.accountSuccess slots slot pending name).Walks Stage.At .accounting := by
  unfold accountSuccess
  cases completed : u.timing.complete with
  | mk record fault =>
    cases fault with
    | some fault => exact fail_walks _ _ _ _
    | none =>
      refine walks_emit rfl (walks_bind.mpr ?_)
      refine (u.policy.classify_walks record).mono fun counted st now => ?_
      subst now
      refine walks_emit rfl (walks_bind.mpr ?_)
      refine (emitDelay_walks _ _ _).mono fun _ st now => ?_
      obtain ⟨whole, rfl⟩ := now
      exact proceed_walks _ _ _ whole

theorem reportFailure_walks (slots : Slots) (slot : Slot) (pending : Pending) (cause : ErrorChain)
    (repair : Timing.Repair) :
    (u.reportFailure slots slot pending cause repair).Walks Stage.At .accounting := by
  unfold reportFailure
  split
  next => exact walks_emit rfl (Or.inr ⟨false, rfl⟩)
  next =>
    rw [walks_bind]
    refine (u.policy.classify_walks u.timing).mono fun counted st now => ?_
    subst now
    refine walks_emit rfl (walks_emit rfl ?_)
    split
    next =>
      rw [walks_bind]
      refine (emitDelay_walks _ _ _).mono fun _ st now => ?_
      obtain ⟨whole, rfl⟩ := now
      exact proceed_walks _ _ _ whole
    next => exact proceed_walks _ _ _ false

theorem accountFailure_walks (slots : Slots) (slot : Slot) (pending : Pending) (name : String)
    (cause : ErrorChain) :
    (u.accountFailure slots slot pending name cause).Walks Stage.At .accounting := by
  unfold accountFailure
  split
  next => exact u.fail_walks _ _ _
  next =>
    refine walks_call fun now => ⟨_, rfl, ?_⟩
    dsimp only
    split
    next => exact walks_emit rfl (reportFailure_walks _ _ _ _ _ _)
    next => exact reportFailure_walks _ _ _ _ _ _

theorem captureRespond_walks (operation : Operation) (told : Bool) :
    (u.captureRespond operation).Walks (fun _ st => st = .returned told) (.returned told) := by
  unfold captureRespond
  cases operation.mode with
  | manual => rfl
  | automatic => exact walks_call fun now => ⟨_, rfl, rfl⟩

theorem account_walks (slots : Slots) (slot : Slot) (pending : Pending) (operation : Operation)
    (ending : Ending) (told : Bool) :
    (u.account slots slot pending operation ending).Walks Stage.At (.calling told) := by
  unfold account
  cases ending with
  | panicked => exact u.failBinding_walks _ _ (fun _ _ => rfl) (by simp [Standing.next]) rfl
  | succeeded =>
    refine walks_emit rfl (walks_bind.mpr ?_)
    refine (u.captureRespond_walks operation told).mono fun v st now => ?_
    subst now
    refine walks_call fun aborted => ?_
    cases aborted with
    | true => exact ⟨_, rfl, v.finish_walks rfl rfl⟩
    | false => exact ⟨_, rfl, v.accountSuccess_walks _ _ _ _⟩
  | failed cause =>
    refine walks_emit rfl (walks_call fun aborted => ?_)
    cases aborted with
    | true => exact ⟨_, rfl, u.finish_walks rfl rfl⟩
    | false => exact ⟨_, rfl, u.accountFailure_walks _ _ _ _ _⟩

theorem callHandler_walks (slots : Slots) (slot : Slot) (pending : Pending) (operation : Operation)
    (handler : Handler σ) :
    (u.callHandler slots slot pending operation handler).Walks Stage.At .deciding := by
  refine walks_emit rfl (walks_bind.mpr ?_)
  refine ((handler u.state).run_runs u.context false).mono fun result st now => ?_
  obtain ⟨told, rfl⟩ := now
  exact account_walks _ _ _ _ _ _ told

def Waited (wait : Wait) (st : Standing) : Prop :=
  match wait with
  | .reached => st = .deciding
  | .cancelled => st = .leaving

theorem awaitInvocation_walks (operation : Operation) (pending : Pending) :
    (u.awaitInvocation operation pending).Walks (fun result => Waited result.2) .deciding := by
  unfold awaitInvocation
  cases operation.mode with
  | manual => rfl
  | automatic =>
    refine walks_call fun wait => ?_
    cases wait with
    | reached => exact ⟨_, rfl, walks_call fun now => ⟨_, rfl, rfl⟩⟩
    | cancelled => exact ⟨_, rfl, rfl⟩

theorem invoke_walks (slots : Slots) (slot : Slot) (pending : Pending) :
    (u.invoke w slots slot pending).Walks Stage.At .deciding := by
  unfold invoke
  split
  next => exact u.finish_walks rfl rfl
  next =>
    split
    next operation handler _ _ =>
      refine walks_emit rfl (walks_bind.mpr ?_)
      refine (awaitInvocation_walks _ operation pending).mono fun result st waited => ?_
      obtain ⟨v, wait⟩ := result
      cases wait with
      | reached =>
        obtain rfl : st = .deciding := waited
        exact v.callHandler_walks _ _ _ _ _
      | cancelled =>
        obtain rfl : st = .leaving := waited
        exact v.finish_walks rfl rfl
    next => exact u.failBinding_walks _ _ (fun _ _ => rfl) (by simp) rfl

theorem advance_walks (slots : Slots) : (u.advance w slots).Walks Stage.At .deciding := by
  have planned : ∀ e ∈ (slots.plan w u.random).2.2,
      Standing.deciding.next (.emit e) () = some .deciding := by
    intro e mem
    have all : slots.All fun _ => True := ⟨trivial, fun _ _ => trivial⟩
    obtain ⟨_, _, _, -, -, rfl⟩ := all.exists_of_mem_plan (fun _ _ holds => holds) mem
    rfl
  refine walks_bind.mpr ((emitAll_walks planned).mono fun _ st now => ?_)
  subst now
  dsimp only
  split
  next => exact finish_walks _ rfl rfl
  next => exact invoke_walks _ _ _ _ _

end VirtualUser

def Gate.Passed (gate : Gate) (st : Standing) : Prop :=
  match gate with
  | .cancelled => st = .leaving
  | _ => st = .deciding

theorem TimePolicy.noticeStart_walks (q : TimePolicy) :
    q.noticeStart.Walks (fun _ st => st = .deciding) .deciding := by
  unfold noticeStart
  cases q.bounds with
  | some bounds => rfl
  | none =>
    refine walks_call fun start => ⟨_, rfl, ?_⟩
    cases start <;> rfl

theorem TimePolicy.requireStart_walks : requireStart.Walks (fun start st =>
    st = if start.isSome then .deciding else .leaving) .deciding := by
  refine walks_call fun start => ⟨_, rfl, ?_⟩
  cases start with
  | some start => rfl
  | none =>
    intro start
    cases start <;> exact ⟨_, rfl, rfl⟩

theorem TimePolicy.gate_walks (q : TimePolicy) (load : Option LoadSchedule) (thread : Nat) :
    (q.gate load thread).Walks (fun result => result.2.Passed) .deciding := by
  unfold gate
  cases load with
  | none =>
    rw [walks_bind]
    exact q.noticeStart_walks.mono fun _ _ now => now
  | some schedule =>
    rw [walks_bind]
    refine requireStart_walks.mono fun start st now => ?_
    subst now
    cases start with
    | none => rfl
    | some start =>
      refine walks_call fun now => ⟨_, rfl, ?_⟩
      split
      next => rfl
      next => rfl
      next =>
        refine walks_emit rfl (walks_call fun wait => ?_)
        cases wait <;> exact ⟨_, rfl, rfl⟩

theorem Policy.prepare_walks (policy : Policy) : policy.prepare.Walks (fun prepared st =>
    st = if prepared.isSome then .ready else .gone) .ready := by
  cases policy <;> simp only [prepare] <;> split
  all_goals first
    | rfl
    | refine walks_call fun start => ?_
      cases start <;> exact ⟨_, rfl, rfl⟩

theorem Policy.gate_walks (policy : Policy) (load : Option LoadSchedule) (thread : Nat) :
    (policy.gate load thread).Walks (fun result => result.2.Passed) .deciding := by
  cases policy with
  | cycles p =>
    simp only [gate, walks_pure, CyclePolicy.gate]
    split <;> rfl
  | time p =>
    simp only [gate, walks_bind]
    exact p.gate_walks load thread

namespace VirtualUser

variable {σ : Type} (u : VirtualUser σ) (w : Workload σ)

theorem obey_walks (slots : Slots) {gate : Gate} {st : Standing} (passed : gate.Passed st) :
    (u.obey w slots gate).Walks Stage.At st := by
  cases gate with
  | proceed =>
    obtain rfl : st = .deciding := passed
    exact u.advance_walks w slots
  | resumed =>
    obtain rfl : st = .deciding := passed
    exact walks_call fun now => ⟨_, rfl, walks_emit rfl (Or.inl rfl)⟩
  | stop =>
    obtain rfl : st = .deciding := passed
    exact u.finish_walks rfl rfl
  | cancelled =>
    obtain rfl : st = .leaving := passed
    exact u.finish_walks rfl rfl

theorem iterate_walks (load : Option LoadSchedule) (slots : Slots) {st : Standing}
    (begins : st = .outside ∨ ∃ whole, st = .reported whole) :
    (u.iterate w load slots).Walks Stage.At st := by
  have looks : ∀ aborted : Bool, st.next (.call .isAborted) aborted =
      some (if aborted = true then .dropped else .deciding) := by
    intro aborted
    rcases begins with rfl | ⟨whole, rfl⟩ <;> cases aborted <;> rfl
  refine walks_call fun aborted => ⟨_, looks aborted, ?_⟩
  cases aborted with
  | true => exact u.finish_walks rfl rfl
  | false =>
    refine walks_bind.mpr ?_
    exact (u.policy.gate_walks load u.id).mono fun result st passed =>
      obey_walks _ w slots passed

theorem enter_walks : (u.enter w).Walks Stage.At .ready := by
  exact walks_call fun now => ⟨_, rfl, walks_emit rfl (Or.inl rfl)⟩

theorem start_walks : (u.start w).Walks Stage.At .arrived := by
  refine walks_call fun _ => ⟨_, rfl, walks_bind.mpr ?_⟩
  refine u.policy.prepare_walks.mono fun prepared st now => ?_
  subst now
  cases prepared with
  | none => rfl
  | some policy => exact enter_walks _ w

end VirtualUser

namespace RunPlan

variable {σ : Type} (p : RunPlan σ)

theorem failInitialization_walks (id : Nat) (cause : ErrorChain) :
    (p.failInitialization id cause).Walks Stage.At .launching := by
  refine walks_emit rfl (walks_call fun _ => ⟨_, rfl, ?_⟩)
  exact walks_call fun _ => ⟨_, rfl, rfl⟩

theorem breakDown_walks (id : Nat) :
    (breakDown (σ := σ) id).Walks Stage.At .launching := by
  exact walks_call fun _ => ⟨_, rfl, rfl⟩

theorem enter_walks (id : Nat) (state : σ) : (p.enter id state).Walks Stage.At .launching := by
  exact walks_call fun _ => ⟨_, rfl, rfl⟩

theorem settle_walks (id : Nat) (outcome : Creation σ) :
    (p.settle id outcome).Walks Stage.At .launching := by
  cases outcome with
  | created state => exact p.enter_walks id state
  | failed cause => exact p.failInitialization_walks id cause
  | panicked => exact breakDown_walks id

theorem launch_walks (id : Nat) : (p.launch id).Walks Stage.At .launching := by
  rcases p.launch_cases id with same | ⟨same, -⟩
  · rw [same]
    exact walks_emit rfl (p.settle_walks id _)
  · rw [same]
    exact p.settle_walks id _

theorem conclude_walks (u : VirtualUser σ) {error : Option RunError} {st : Standing}
    (leaves : Stage.Leaves error st) : (p.conclude u error).Walks Stage.At st := by
  obtain ⟨after, failed, finishes, broken⟩ := Stage.hooks_of_leaves leaves
  unfold conclude
  split
  next id hook _ _ =>
    refine walks_emit after ?_
    split
    next => exact finishes u.id true
    next cause _ => exact walks_emit (failed cause) (finishes u.id true)
    next => exact broken u.id
  next => exact finishes u.id true

theorem conduct_walks : p.conduct.Walks Stage.At .conducting := by
  refine walks_call fun _ => ⟨_, rfl, ?_⟩
  refine walks_call fun _ => ⟨_, rfl, walks_call fun _ => ⟨_, rfl, ?_⟩⟩
  exact walks_call fun _ => ⟨_, rfl, rfl⟩

theorem follow_walks {stage : Stage σ} {st : Standing} {next : Program (Stage σ)}
    (stands : stage.At st) (follows : p.follow stage = some next) : next.Walks Stage.At st := by
  cases stage with
  | starting id =>
    cases follows
    obtain rfl : st = .launching := stands
    exact p.launch_walks id
  | ready u =>
    cases follows
    obtain rfl : st = .arrived := stands
    exact u.start_walks p.workload
  | iterating u slots =>
    cases follows
    exact u.iterate_walks p.workload _ slots stands
  | ended u error =>
    cases follows
    exact p.conclude_walks u stands
  | conducting =>
    cases follows
    obtain rfl : st = .conducting := stands
    exact p.conduct_walks
  | finished result => cases follows
  | conducted now => cases follows

variable {p} {e : Ensemble (Stage σ)} {now : Stamp} {hs : Nat → History} {i : Nat}
  {m : Member (Stage σ)}

theorem way_of_run (run : Ensemble.Run p.follow p.ensemble now e hs)
    (present : e.members[i]? = some m) {stage : Stage σ} {begun : Standing}
    (began : p.ensemble.members[i]? = some (.atStage stage)) (stands : stage.At begun) :
    ∃ st, begun.after (hs i) = some st ∧ m.thread.rest.Walks Stage.At st := by
  obtain ⟨first, there, course⟩ := run.course present
  rw [began, Option.some.injEq] at there
  subst there
  have begins : (Member.atStage stage).thread.rest.Walks Stage.At begun := stands
  exact course.walks begins fun _ _ _ stands follows => p.follow_walks stands follows

theorem way_of_user (run : Ensemble.Run p.follow p.ensemble now e hs) (user : i < p.threads)
    (present : e.members[i]? = some m) :
    ∃ st, Standing.launching.after (hs i) = some st ∧ m.thread.rest.Walks Stage.At st :=
  way_of_run run present (p.member_of_lt user) rfl

theorem way_of_conductor (run : Ensemble.Run p.follow p.ensemble now e hs)
    (present : e.members[p.threads]? = some m) :
    ∃ st, Standing.conducting.after (hs p.threads) = some st ∧ m.thread.rest.Walks Stage.At st :=
  way_of_run run present p.member_threads rfl

end RunPlan

end LoadGen
