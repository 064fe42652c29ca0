import LoadGen.Proofs.Playback
import LoadGen.Proofs.QuietRequests
import LoadGen.Proofs.SignalAgreement
import LoadGen.Proofs.ThreadWay

namespace LoadGen

namespace Exchange

def calls : Exchange → Bool
  | ⟨_, .emit (.called ..), _⟩ => true
  | _ => false

/-- Whether the handler that was called has returned. -/
def returns : Exchange → Bool
  | ⟨_, .emit (.returned ..), _⟩ => true
  | _ => false

/-- Whether an invocation is accounted for: as a success, as a failure, or as one to be skipped. -/
def accounts : Exchange → Bool
  | ⟨_, .emit (.transaction _), _⟩ | ⟨_, .emit (.error _), _⟩ | ⟨_, .emit (.skipped ..), _⟩ => true
  | _ => false

def delays : Exchange → Bool
  | ⟨_, .emit (.delay _), _⟩ => true
  | _ => false

def delivers : Exchange → Bool
  | ⟨_, .emit (.transaction _), _⟩ | ⟨_, .emit (.error _), _⟩ | ⟨_, .emit (.delay _), _⟩ => true
  | _ => false

def cancels : Exchange → Bool
  | ⟨_, .call (.sleepUntil _), .cancelled⟩ => true
  | _ => false

/-- An ordinary exchange is no call of a handler and no return from one, gives no account of an
invocation, and is no cancelled wait. -/
theorem of_ordinary {x : Exchange} (ordinary : x.isLandmark = false) :
    x.calls = false ∧ x.returns = false ∧ x.accounts = false ∧ x.delays = false ∧
      x.delivers = false ∧ x.cancels = false := by
  obtain ⟨t, request, reply⟩ := x
  cases request with
  | emit e =>
    cases e <;> first | exact ⟨rfl, rfl, rfl, rfl, rfl, rfl⟩ | cases ordinary
  | call c =>
    cases c with
    | sleepUntil deadline =>
      cases reply with
      | reached => exact ⟨rfl, rfl, rfl, rfl, rfl, rfl⟩
      | cancelled => cases ordinary
    | _ => exact ⟨rfl, rfl, rfl, rfl, rfl, rfl⟩

theorem findsAbort_of_cancels {x : Exchange} (cancels : x.cancels) : x.findsAbort := by
  obtain ⟨t, request, reply⟩ := x
  cases request with
  | emit e => cases cancels
  | call c =>
    cases c with
    | sleepUntil deadline =>
      cases reply with
      | cancelled => rfl
      | reached => cases cancels
    | _ => cases cancels

end Exchange

namespace History

def WaitCancelled (h : History) : Prop := ∃ x ∈ h, x.cancels

/-- A handler has returned after a wait of its thread was cancelled. -/
def ReturnedCancelled : History → Prop
  | [] => False
  | x :: older => (x.returns ∧ WaitCancelled older) ∨ ReturnedCancelled older

/-- How many calls of handlers have no outcome: none, or the last one. -/
def unsettled : History → Nat
  | [] => 0
  | x :: h => if x.calls then 1 else if x.accounts then 0 else unsettled h

/-- The handler that was called last has returned, the flag has been found down after that, and no
handler has been called since. -/
def Settling (h : History) : Prop :=
  ∃ mid check older told, h = mid ++ check :: older ∧ check.isClear ∧
    Standing.launching.after older = some (.returned told) ∧ ∀ x ∈ mid, x.calls = false

instance : DecidablePred WaitCancelled := fun h =>
  inferInstanceAs (Decidable (∃ x ∈ h, x.cancels))

instance decidableReturnedCancelled : DecidablePred ReturnedCancelled
  | [] => inferInstanceAs (Decidable False)
  | x :: older =>
    have := decidableReturnedCancelled older
    inferInstanceAs (Decidable ((x.returns ∧ WaitCancelled older) ∨ ReturnedCancelled older))

theorem unsettled_le (h : History) : h.unsettled ≤ 1 := by
  induction h with
  | nil => exact Nat.zero_le 1
  | cons x h ih =>
    unfold unsettled
    split
    · exact le_rfl
    · split
      · exact Nat.zero_le 1
      · exact ih

theorem waitCancelled_cons {x : Exchange} {h : History} :
    WaitCancelled (x :: h) ↔ x.cancels ∨ WaitCancelled h := by
  simp [WaitCancelled]

theorem waitCancelled_of_returned {h : History} (returned : h.ReturnedCancelled) :
    h.WaitCancelled := by
  induction h with
  | nil => cases returned
  | cons x older ih =>
    rw [waitCancelled_cons]
    rcases returned with ⟨-, waits⟩ | later
    · exact Or.inr waits
    · exact Or.inr (ih later)

end History

/-- What a thread still does once the flag is raised: it calls at most one handler and accounts for
at most one invocation. It delivers something to its metrics only for an invocation whose handler
had returned by then, the flag having been found down after that. -/
structure History.DropsOne (new h : History) : Prop where
  calls : new.countP Exchange.calls ≤ 1
  accounts : new.countP Exchange.accounts ≤ 1
  delays : new.countP Exchange.delays ≤ 1
  delivers : (∃ x ∈ new, x.delivers) → h.Settling ∧ ∀ x ∈ new, x.calls = false

/-- The thread ends without a fatal error, and without any error of its loop if its handler has
returned. -/
def Stage.Spared {σ : Type} (h : History) : Stage σ → Prop
  | .ended _ error => error.all (! ·.isFatal) ∧ (h.ReturnedCancelled → error = none)
  | .finished result => result.error.all (! ·.isFatal) ∧
    (h.ReturnedCancelled → result.error = none ∨ result.error = some (.panicked result.thread))
  | _ => True

/-- A thread finds the flag down only as long as none of its waits has been cancelled. -/
def Heeds (x : Exchange) (older : History) : Prop := x.isClear → ¬ older.WaitCancelled

namespace Standing

open History

/-- How many handlers a thread can still call that finds the flag raised from now on. -/
def callsLeft : Standing → Nat
  | deciding => 1
  | _ => 0

def accountsLeft : Standing → Nat
  | accounting => 1
  | _ => 0

def delaysLeft : Standing → Nat
  | accounting | reported false => 1
  | _ => 0

def isSettling : Standing → Bool
  | accounting | reported _ => true
  | _ => false

def isTold : Standing → Bool
  | calling told | returned told => told
  | _ => false

/-- Where a thread can stand after a wait of it has been cancelled. -/
def isCancelled : Standing → Bool
  | calling told | returned told => told
  | leaving | dropped | gone => true
  | _ => false

/-- Where a thread can stand after its handler has returned from a cancelled wait. -/
def isReturned : Standing → Bool
  | returned told => told
  | dropped => true
  | _ => false

/-- What the standing of a thread says of its last call. -/
def Owes (h : History) : Standing → Prop
  | calling _ | returned _ | accounting | failing => h.unsettled = 1
  | dropped | failed | gone => True
  | _ => h.unsettled = 0

variable {first st st' : Standing} {x : Exchange} {h new : History}

theorem next_of_raised (raised : x.isClear = false)
    (steps : st.next x.request x.reply = some st') :
    x.calls.toNat + st'.callsLeft ≤ st.callsLeft ∧
      x.accounts.toNat + st'.accountsLeft ≤ st.accountsLeft ∧
      x.delays.toNat + st'.delaysLeft ≤ st.delaysLeft ∧
      (x.delivers ∨ st'.isSettling → st.isSettling) := by
  cases step_of_next steps with
  | stays ordinary => simp [Exchange.of_ordinary ordinary]
  | enters | clears | goesOn => cases raised
  | _ =>
    simp [Exchange.calls, Exchange.accounts, Exchange.delays, Exchange.delivers, callsLeft,
      accountsLeft, delaysLeft, isSettling]

theorem owes_next (owes : st.Owes h) (steps : st.next x.request x.reply = some st') :
    st'.Owes (x :: h) ∧ (x.calls → h.unsettled = 0) ∧ (x.accounts → h.unsettled = 1) := by
  cases step_of_next steps with
  | stays ordinary =>
    obtain ⟨uncalled, -, unaccounted, -⟩ := Exchange.of_ordinary ordinary
    have same : unsettled (x :: h) = h.unsettled := by simp [unsettled, uncalled, unaccounted]
    refine ⟨?_, by simp [uncalled], by simp [unaccounted]⟩
    unfold Owes
    rw [same]
    exact owes
  | startsNever | drops | ends | quits | fails =>
    exact ⟨trivial, by simp [Exchange.calls], by simp [Exchange.accounts]⟩
  | _ => simpa [Owes, unsettled, Exchange.calls, Exchange.accounts] using owes

theorem settling_next (settling : st'.isSettling) (steps : st.next x.request x.reply = some st') :
    x.calls = false ∧ (st.isSettling ∨ x.isClear ∧ ∃ told, st = .returned told) := by
  cases step_of_next steps with
  | stays ordinary => exact ⟨(Exchange.of_ordinary ordinary).1, Or.inl settling⟩
  | clears => exact ⟨rfl, Or.inr ⟨rfl, _, rfl⟩⟩
  | succeeds | errs | skips | delays => exact ⟨rfl, Or.inl rfl⟩
  | _ => cases settling

theorem cancelled_next (clear : x.isClear → st.isTold = false)
    (steps : st.next x.request x.reply = some st') :
    (st'.isTold → x.cancels ∨ st.isTold) ∧ (x.cancels ∨ st.isCancelled → st'.isCancelled) ∧
      (x.returns ∧ st.isCancelled ∨ st.isReturned → st'.isReturned) := by
  cases step_of_next steps with
  | stays ordinary => simp [Exchange.of_ordinary ordinary]
  | clears =>
    obtain rfl := clear rfl
    simp [Exchange.cancels, Exchange.returns, isTold, isCancelled, isReturned]
  | ends leaves =>
    rcases leaves with rfl | rfl | ⟨told, rfl⟩ | ⟨whole, rfl⟩ <;>
      simp [Exchange.cancels, Exchange.returns, isTold, isCancelled, isReturned]
  | _ => simp [Exchange.cancels, Exchange.returns, isTold, isCancelled, isReturned]

theorem after_raised (raised : ∀ x ∈ new, x.isClear = false) (before : first.after h = some st)
    (now : first.after (new ++ h) = some st') :
    new.countP Exchange.calls + st'.callsLeft ≤ st.callsLeft ∧
      new.countP Exchange.accounts + st'.accountsLeft ≤ st.accountsLeft ∧
      new.countP Exchange.delays + st'.delaysLeft ≤ st.delaysLeft ∧
      ((∃ x ∈ new, x.delivers) ∨ st'.isSettling → st.isSettling) := by
  refine ⟨countP_le_of_next (fun x mem _ _ steps => (next_of_raised (raised x mem) steps).1)
      before now,
    countP_le_of_next (fun x mem _ _ steps => (next_of_raised (raised x mem) steps).2.1) before now,
    countP_le_of_next (fun x mem _ _ steps => (next_of_raised (raised x mem) steps).2.2.1)
      before now, ?_⟩
  -- Whatever is delivered, and wherever the thread gets to by it, it had to settle at first.
  induction new generalizing st' with
  | nil =>
    obtain rfl : st = st' := Option.some.inj (before.symm.trans now)
    simp
  | cons x new ih =>
    obtain ⟨mid, stood, steps⟩ := exists_of_after_cons now
    obtain ⟨-, -, -, settles⟩ := next_of_raised (raised x List.mem_cons_self) steps
    have earlier := ih (fun y mem => raised y (List.mem_cons_of_mem x mem)) stood
    rintro (⟨y, mem, delivers⟩ | settling)
    · rcases List.mem_cons.mp mem with rfl | old
      · exact earlier (Or.inr (settles (Or.inl delivers)))
      · exact earlier (Or.inl ⟨y, old, delivers⟩)
    · exact earlier (Or.inr (settles (Or.inr settling)))

/-- Every call but the last one has one outcome, and the standing tells whether that one has. -/
theorem owes_of_after (now : launching.after h = some st) :
    st.Owes h ∧ h.countP Exchange.calls = h.countP Exchange.accounts + h.unsettled := by
  induction h generalizing st with
  | nil =>
    cases now
    exact ⟨rfl, rfl⟩
  | cons x h ih =>
    obtain ⟨before, stood, steps⟩ := exists_of_after_cons now
    obtain ⟨owed, balance⟩ := ih stood
    obtain ⟨owes, called, accounted⟩ := owes_next owed steps
    refine ⟨owes, ?_⟩
    cases calls : x.calls <;> cases accounts : x.accounts <;>
      simp [calls, accounts] at called accounted <;>
      simp [unsettled, calls, accounts] <;> omega

theorem left_le (st : Standing) :
    st.callsLeft ≤ 1 ∧ st.accountsLeft ≤ 1 ∧ st.delaysLeft ≤ 1 := by
  cases st with
  | reported whole => cases whole <;> decide
  | _ => simp [callsLeft, accountsLeft, delaysLeft]

theorem settling_of_after (now : launching.after h = some st) (settling : st.isSettling) :
    Settling h := by
  induction h generalizing st with
  | nil =>
    cases now
    cases settling
  | cons x h ih =>
    obtain ⟨before, stood, steps⟩ := exists_of_after_cons now
    obtain ⟨uncalled, was | ⟨clear, told, rfl⟩⟩ := settling_next settling steps
    · obtain ⟨mid, check, older, told, rfl, clear, returned, noneCalled⟩ := ih stood was
      refine ⟨x :: mid, check, older, told, rfl, clear, returned, fun y mem => ?_⟩
      rcases List.mem_cons.mp mem with rfl | old
      · exact uncalled
      · exact noneCalled y old
    · exact ⟨[], x, h, told, rfl, clear, stood, by simp⟩

theorem cancelled_of_after (heeds : h.Each Heeds) (now : launching.after h = some st) :
    (st.isTold → WaitCancelled h) ∧ (WaitCancelled h → st.isCancelled) ∧
      (ReturnedCancelled h → st.isReturned) := by
  induction h generalizing st with
  | nil =>
    cases now
    exact ⟨by simp [isTold], by simp [WaitCancelled], False.elim⟩
  | cons x h ih =>
    obtain ⟨before, stood, steps⟩ := exists_of_after_cons now
    obtain ⟨told, cancelled, returned⟩ := ih heeds.2 stood
    -- Who has been told of a cancelled wait cannot find the flag down any more.
    have clear : x.isClear → before.isTold = false := by
      intro clear
      by_contra is
      exact heeds.1 clear (told (by simpa using is))
    obtain ⟨told', cancelled', returned'⟩ := cancelled_next clear steps
    rw [waitCancelled_cons]
    refine ⟨fun is => (told' is).imp_right told,
      fun waits => cancelled' (waits.imp_right cancelled), fun has => returned' ?_⟩
    rcases has with ⟨returns, waits⟩ | has
    · exact Or.inl ⟨returns, cancelled waits⟩
    · exact Or.inr (returned has)

end Standing

/-- Whatever the thread is told from now on, as long as it is told of the abort when it asks, it
comes to an end after finitely many requests. -/
inductive Program.Returns {α : Type} (follow : α → Option (Program α)) : Program α → Prop
  | ended {stage : α} : follow stage = none → Returns follow (.done stage)
  | goesOn {stage : α} {p : Program α} : follow stage = some p → Returns follow p →
      Returns follow (.done stage)
  | ask {request : Request} {next : request.Reply → Program α} :
      (∀ t reply, Exchange.InAbort ⟨t, request, reply⟩ → Returns follow (next reply)) →
      Returns follow (.ask request next)

namespace Program

variable {α : Type} {follow : α → Option (Program α)}

theorem returns_of_only {p : Program α} {kind : Request → Prop} {result : α → Prop}
    (only : p.Only kind result) (ends : ∀ a, result a → Returns follow (.done a)) :
    p.Returns follow := by
  induction p with
  | done a => exact ends a only
  | ask request next ih => exact .ask fun t reply _ => ih reply (only.2 reply)

end Program

open Program History

theorem VirtualUser.start_only {σ : Type} (u : VirtualUser σ) (w : Workload σ) :
    (u.start w).Only (fun _ => True) fun stage =>
      (∃ v slots, stage = .iterating v slots) ∨ ∃ v error, stage = .ended v error := by
  have enters : ∀ v : VirtualUser σ, (v.enter w).Only (fun _ => True) fun stage =>
      (∃ v slots, stage = .iterating v slots) ∨ ∃ v error, stage = .ended v error := by
    intro v
    simp only [enter, only_bind, only_clock, only_emit, only_pure]
    exact ⟨trivial, fun now => ⟨trivial, Or.inl ⟨_, _, rfl⟩⟩⟩
  have prepared : ∀ policy : Policy, policy.prepare.Only (fun _ => True) fun _ => True := by
    intro policy
    cases policy <;> simp only [Policy.prepare] <;> split <;> simp
  simp only [start, only_bind]
  refine ⟨trivial, fun _ => (prepared u.policy).mono fun policy _ => ?_⟩
  cases policy with
  | none => exact Or.inr ⟨u, none, rfl⟩
  | some policy => exact enters _

namespace RunPlan

variable {σ : Type} (p : RunPlan σ)

theorem returns_of_last {stage : Stage σ}
    (last : (∃ result, stage = .finished result) ∨ ∃ now, stage = .conducted now) :
    Returns p.follow (.done stage) := by
  rcases last with ⟨result, rfl⟩ | ⟨now, rfl⟩ <;> exact .ended rfl

theorem returns_of_ended (u : VirtualUser σ) (error : Option RunError) :
    Returns p.follow (.done (.ended u error)) :=
  .goesOn rfl (returns_of_only (p.conclude_only u error) fun _ last =>
    p.returns_of_last (Or.inl last))

/-- The iteration that finds the flag raised is the last one. -/
theorem returns_of_iterating (u : VirtualUser σ) (slots : Slots) :
    Returns p.follow (.done (.iterating u slots)) := by
  refine .goesOn rfl (.ask fun t aborted inAbort => ?_)
  obtain rfl : aborted = true := inAbort
  refine returns_of_only (u.finish_only none) fun stage ends => ?_
  subst ends
  exact p.returns_of_ended u none

theorem returns_of_ready (u : VirtualUser σ) : Returns p.follow (.done (.ready u)) := by
  refine .goesOn rfl (returns_of_only (u.start_only p.workload) fun stage ends => ?_)
  rcases ends with ⟨v, slots, rfl⟩ | ⟨v, error, rfl⟩
  · exact p.returns_of_iterating v slots
  · exact p.returns_of_ended v error

theorem returns_of_stage (stage : Stage σ) : Returns p.follow (.done stage) := by
  cases stage with
  | starting id =>
    refine .goesOn rfl (returns_of_only (p.launch_only id) fun stage begun => ?_)
    rcases begun with ⟨state, rfl⟩ | last
    · exact p.returns_of_ready _
    · exact p.returns_of_last (Or.inl last)
  | ready u => exact p.returns_of_ready u
  | iterating u slots => exact p.returns_of_iterating u slots
  | ended u error => exact p.returns_of_ended u error
  | finished result => exact .ended rfl
  | conducting =>
    exact .goesOn rfl (returns_of_only p.conduct_only fun _ last => p.returns_of_last (Or.inr last))
  | conducted now => exact .ended rfl

/-- Once told of the abort, every thread comes to an end, wherever it is. -/
theorem returns (program : Program (Stage σ)) : program.Returns p.follow := by
  induction program with
  | done stage => exact p.returns_of_stage stage
  | ask request next ih => exact .ask fun t reply _ => ih reply

end RunPlan

theorem RunPlan.at_of_stage {σ : Type} {m : Member (Stage σ)} {stage : Stage σ} {st : Standing}
    (walks : m.thread.rest.Walks Stage.At st) (staged : m.stage? = some stage) : stage.At st := by
  rw [Member.thread_of_stage staged] at walks
  exact walks

theorem Exchange.isClear_of_inAbort {x : Exchange} (inAbort : x.InAbort) : x.isClear = false := by
  obtain ⟨t, request, reply⟩ := x
  cases request with
  | emit e => rfl
  | call c =>
    cases c with
    | isAborted =>
      obtain rfl : reply = true := inAbort
      rfl
    | _ => rfl

theorem History.dropsOne_of_raised {new h : History} {st st' : Standing}
    (raised : ∀ x ∈ new, x.isClear = false) (before : Standing.launching.after h = some st)
    (now : Standing.launching.after (new ++ h) = some st') : new.DropsOne h := by
  obtain ⟨calls, accounts, delays, settles⟩ := Standing.after_raised raised before now
  obtain ⟨oneCall, oneAccount, oneDelay⟩ := st.left_le
  refine ⟨by omega, by omega, by omega, fun delivers => ?_⟩
  have settling := settles (Or.inl delivers)
  have noneLeft : st.callsLeft = 0 := by cases st <;> first | rfl | cases settling
  have noCalls : new.countP Exchange.calls = 0 := by omega
  refine ⟨Standing.settling_of_after before settling, fun x mem => ?_⟩
  simpa using List.countP_eq_zero.mp noCalls x mem

theorem Stage.spared_of_at {σ : Type} {stage : Stage σ} {h : History} {st : Standing}
    (stands : stage.At st) (cancelled : st.isCancelled)
    (returned : h.ReturnedCancelled → st.isReturned) : stage.Spared h := by
  cases stage with
  | ended u error =>
    have leaves : Leaves error st := stands
    cases st with
    | dropped => exact ⟨by simp [show error = none from leaves], fun _ => leaves⟩
    | gone => exact ⟨leaves, fun has => by cases returned has⟩
    | failed => cases cancelled
    | _ => cases leaves
  | finished result =>
    have finishes : Finishes result st := stands
    cases st with
    | dropped =>
      refine ⟨?_, fun _ => finishes⟩
      rcases finishes with noError | broken
      · simp [noError]
      · simp [broken, RunError.isFatal]
    | gone => exact ⟨finishes, fun has => by cases returned has⟩
    | arrived | failed => cases cancelled
    | _ => cases finishes
  | _ => trivial

namespace Ensemble.Run

variable {α : Type} {follow : α → Option (Program α)} {first e : Ensemble α} {now : Stamp}
  {hs : Nat → History} {threads : Nat}

/-- A cancelled wait has found the flag raised, and it stays so. -/
theorem heeds (fresh : Fresh first threads) (run : Run follow first now e hs) (i : Nat) :
    (hs i).Each Heeds := by
  refine run.each_of_step (R := Heeds) (fun run stepped clear waits => ?_) i
  obtain ⟨y, mem, cancels⟩ := waits
  have raised := ((run.recorded fresh).said _ y mem).found (Exchange.findsAbort_of_cancels cancels)
  have inAbort := run.inAbort_of_stepped fresh raised stepped
  rw [Exchange.isClear_of_inAbort inAbort] at clear
  cases clear

end Ensemble.Run

namespace Context

/-- A context says that its wait was cancelled only if a wait of its thread was. -/
def TellsCancelled (p : Program (Context × Wait)) : Prop :=
  ∀ h, p.Ensures (fun _ _ => True) (fun _ _ => True)
    (fun result later => result.2 = .cancelled → later.WaitCancelled) h

theorem recordStart_cancelled (c : Context) : TellsCancelled c.recordStart := by
  intro h
  unfold recordStart
  cases c.mode with
  | automatic => simp
  | manual =>
    cases c.timing.intended with
    | none =>
      simp only [ensures_bind, ensures_pure, ensures_clock]
      simp
    | some intended =>
      simp only [ensures_bind, ensures_sleepUntil]
      refine fun t wait _ => ⟨trivial, ?_⟩
      cases wait with
      | cancelled => exact fun _ => waitCancelled_cons.mpr (Or.inl rfl)
      | reached =>
        simp only [ensures_bind, ensures_clock, ensures_pure]
        simp

theorem recordTime_cancelled (c : Context) : TellsCancelled c.recordTime := by
  unfold recordTime
  split
  next =>
    intro h
    rw [ensures_bind]
    refine (c.recordEnd_only.ensures_of_safe fun _ _ _ => trivial).mono fun c h _ => ?_
    simp
  next => exact c.recordStart_cancelled

end Context

open Ensemble in
/-- Once the flag of the abort is raised, every thread calls at most one more handler, delivers at
most the outcome of a call that had returned before its thread found the flag down, and comes to an
end; so that it loses at most one invocation. A thread whose wait has been cancelled ends without a
fatal error, and without any if its handler returns. -/
theorem abort_ends_threads {σ : Type} (p : RunPlan σ) {now : Stamp} {e : Ensemble (Stage σ)}
    {hs : Nat → History} (run : Run p.follow p.ensemble now e hs) {i : Nat} (user : i < p.threads) :
    (e.signals.aborted → ∀ {later e' hs'}, Continues p.follow now e hs later e' hs' →
      (∃ new, hs' i = new ++ hs i ∧ new.DropsOne (hs i)) ∧
        ∀ m, e'.members[i]? = some m → m.thread.rest.Returns p.follow) ∧
    (hs i).countP Exchange.calls ≤ (hs i).countP Exchange.accounts + 1 ∧
    ((hs i).WaitCancelled → ∀ m stage, e.members[i]? = some m → m.stage? = some stage →
      stage.Spared (hs i)) ∧
    ∀ c : Context, Context.TellsCancelled c.recordTime ∧ Context.TellsCancelled c.recordStart := by
  obtain ⟨k, there⟩ := RunPlan.exists_member run (Nat.le_of_lt user)
  obtain ⟨st, stood, walks⟩ := RunPlan.way_of_user run user there
  refine ⟨fun raised later e' hs' goes => ⟨?_, fun m _ => p.returns _⟩, ?_, ?_, ?_⟩
  · obtain ⟨-, grown⟩ := run.flag_lasts p.fresh raised goes
    obtain ⟨new, grown, told⟩ := grown i
    obtain ⟨k', there'⟩ := RunPlan.exists_member (run.continued goes) (Nat.le_of_lt user)
    obtain ⟨st', now', -⟩ := RunPlan.way_of_user (run.continued goes) user there'
    rw [grown] at now'
    have raised : ∀ x ∈ new, x.isClear = false :=
      fun x mem => Exchange.isClear_of_inAbort (told x mem)
    exact ⟨new, grown, dropsOne_of_raised raised stood now'⟩
  · have balance := (Standing.owes_of_after stood).2
    have one := unsettled_le (hs i)
    omega
  · intro waits m stage present ended
    obtain ⟨-, cancelled, returned⟩ := Standing.cancelled_of_after (run.heeds p.fresh i) stood
    obtain rfl : k = m := Option.some.inj (there.symm.trans present)
    exact Stage.spared_of_at (RunPlan.at_of_stage walks ended) (cancelled waits) returned
  · exact fun c => ⟨c.recordTime_cancelled, c.recordStart_cancelled⟩

/-- A plan whose only thread aborts the run from its handler, and then waits in it. -/
def RunPlan.selfAborting : RunPlan Unit :=
  { workload := Workload.single (fun _ => .created ())
      ⟨"", [], 0, .manual, true, .fixed Span.zero⟩ fun _ =>
        .calls (.abort ⟨0, "", ""⟩) fun _ =>
          .calls .recordTime fun _ => .fails () (.plain "cancelled")
    control := .ofMode (.time ⟨0⟩ ⟨1⟩ ⟨0⟩)
    seed := 0 }

def Stage.hasEnded {σ : Type} : Stage σ → Bool
  | .ended .. => true
  | _ => false

/-- The handler returns the failure of its wait, and the thread ends without an error. -/
theorem abort_ends_threads_selfAborting : ∃ now e hs later e' hs' m u,
    Ensemble.Run RunPlan.selfAborting.follow RunPlan.selfAborting.ensemble now e hs ∧
      e.signals.aborted ∧
      Ensemble.Continues RunPlan.selfAborting.follow now e hs later e' hs' ∧
      (hs' 0).ReturnedCancelled ∧ (∃ new, hs' 0 = new ++ hs 0 ∧ new.DropsOne (hs 0)) ∧
      e'.members[0]? = some m ∧ m.stage? = some (.ended u none) := by
  let order : List (Stamp × Nat) := List.replicate 17 (0, 0)
  let more : List (Stamp × Nat) := List.replicate 11 (0, 0)
  have raised : Ensemble.Run.reached (fun e _ => e.signals.aborted)
      (Ensemble.Run.play RunPlan.selfAborting.follow order 0 RunPlan.selfAborting.ensemble
        fun _ => []) = true := by
    decide +kernel
  have ended : Ensemble.Run.reached (fun e hs => decide ((hs 0).ReturnedCancelled ∧
      (e.members[0]?.bind Member.stage?).any Stage.hasEnded))
      (Ensemble.Run.play RunPlan.selfAborting.follow (order ++ more) 0
        RunPlan.selfAborting.ensemble fun _ => []) = true := by
    decide +kernel
  obtain ⟨now, e, hs, later, e', hs', run, goes, raised, ended⟩ :=
    Ensemble.Run.exists_of_reached_append raised ended
  obtain ⟨returned, ended⟩ := of_decide_eq_true ended
  obtain ⟨stage, staged, ended⟩ := (Option.any_eq_true _ _).mp ended
  obtain ⟨m, present, staged⟩ := Option.bind_eq_some_iff.mp staged
  have user : 0 < RunPlan.selfAborting.threads := by decide
  obtain ⟨drops, -⟩ := (abort_ends_threads RunPlan.selfAborting run user).1 raised goes
  obtain ⟨-, -, spared, -⟩ := abort_ends_threads RunPlan.selfAborting (run.continued goes) user
  have waits : (hs' 0).WaitCancelled := waitCancelled_of_returned returned
  have ends := spared waits m stage present staged
  cases stage with
  | ended u error =>
    have noError : error = none := ends.2 returned
    subst noError
    exact ⟨now, e, hs, later, e', hs', m, u, run, raised, goes, returned, drops, present, staged⟩
  | _ => cases ended

end LoadGen
