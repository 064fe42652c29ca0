import LoadGen.Proofs.Playback
import LoadGen.Proofs.SlotMemory

namespace LoadGen

open Program History

namespace History

/-- The handler that has returned captured no invocation, and its time had not come when the clock
was last read. -/
def failedEarly (h : History) : Bool :=
  match returned h, reading h with
  | some record, some now => record.invoke.isNone && record.isEarly now
  | _, _ => false

/-- The latest thing that has happened is the report of a sample in a phase. -/
def JustReported (phase : Phase) : History → Prop
  | ⟨_, .emit (.transaction s), _⟩ :: _ => s.phase = phase
  | ⟨_, .emit (.failed ..), _⟩ :: ⟨_, .emit (.error s), _⟩ :: _ => s.phase = phase
  | _ => False

end History

/-- How an exchange accounts for an invocation. A sample has its times in order, unless it is that
of a handler that has failed before its time: such a sample takes over the times that its slot
remembers, where cycles are counted, and there is none of it where phases are measured by the
clock. A delay follows the report of the invocation that ended it. -/
def Accounts (c : RunControl) (x : Exchange) (older : History) : Prop :=
  match x.request with
  | .emit (.transaction s) => s.intended ≤ s.invoke ∧ s.invoke ≤ s.respond ∧ 0 ≤ s.pause
  | .emit (.error s) => s.invoke ≤ s.respond ∧ 0 ≤ s.pause ∧
    if older.failedEarly then
      c.mode.isTime = false ∧ ∃ background, caller older = some background ∧
        previous c.simultaneous background older = some (s.invoke, s.respond)
    else s.intended ≤ s.invoke
  | .emit (.skipped _ cause) =>
    c.mode.isTime = true ∧ older.failedEarly = true ∧ cause.stopsRun = false
  | .emit (.delay d) => JustReported d.phase older
  | _ => True

theorem accounts_of_mute {c : RunControl} {x : Exchange} {h : History} (mute : x.request.Mute) :
    Accounts c x h := by
  obtain ⟨t, request, reply⟩ := x
  cases request with
  | call call => trivial
  | emit e => cases e <;> trivial

/-- The mode decides what happens to early failures. -/
theorem RunControl.earlyFailure_eq (c : RunControl) :
    c.policy.earlyFailure = if c.mode.isTime then .skip else .reusePrevious := by
  unfold policy
  cases c.mode <;> rfl

theorem Policy.earlyFailure_noticing (policy : Policy) (start : Stamp) :
    (policy.noticing start).earlyFailure = policy.earlyFailure := by
  cases policy <;> rfl

theorem RunControl.Prepares.earlyFailure {c : RunControl} {policy : Policy} {h : History}
    (prepares : c.Prepares policy h) : policy.earlyFailure = c.policy.earlyFailure := by
  rcases prepares with ⟨-, rfl⟩ | ⟨-, start, -, rfl⟩
  · rfl
  · cases c.policy <;> rfl

namespace Timing

/-- The record is one of an invocation that is intended for a time, has not begun before it, and
has not paused for less than nothing. -/
structure Fit (intended : Stamp) (r : Timing) : Prop where
  opened : r.OpenedFor intended
  pause : 0 ≤ r.pause

variable {r record : Timing} {intended now : Stamp}

theorem fit_intendedAt (intended : Stamp) : (intendedAt intended).Fit intended :=
  ⟨.of_intendedAt intended, le_rfl⟩

theorem fit_kept (intended : Stamp) : Kept fun r _ => r.Fit intended where
  cons fit := fit
  withInvoke fit reached due :=
    ⟨(OpenedFor.kept intended).withInvoke fit.opened reached due, fit.pause⟩
  withRespond fit reached :=
    ⟨(OpenedFor.kept intended).withRespond fit.opened reached, fit.pause⟩
  withLastRespond fit reached :=
    ⟨(OpenedFor.kept intended).withLastRespond fit.opened reached, fit.pause⟩
  addPause fit :=
    ⟨⟨fit.opened.intends, fit.opened.begins⟩,
      Stamp.le_plus fit.pause (by decide) (le_max_right _ _)⟩

/-- A failure before its time takes over the previous times, and any other one begins no earlier
than intended. -/
theorem Fit.repair {rule : EarlyFailure} {previous : Stamp × Stamp} (fit : r.Fit intended)
    (ordered : previous.1 ≤ previous.2) (kept : (r.repair now rule previous).2.skip = false) :
    ∃ invoke respond, (r.repair now rule previous).1.invoke = some invoke ∧
      (r.repair now rule previous).1.respond = some respond ∧ invoke ≤ respond ∧
      if r.invoke.isNone && r.isEarly now then
        rule = .reusePrevious ∧ previous = (invoke, respond)
      else intended ≤ invoke := by
  obtain ⟨invoke, respond, begun, ended, inOrder⟩ := repair_sound kept
  refine ⟨invoke, respond, begun, ended, inOrder, ?_⟩
  cases captured : r.invoke with
  | some t =>
    have same : (r.repair now rule previous).1.invoke = some t :=
      (repair_of_invoke captured rule previous).2.1
    obtain rfl : invoke = t := by simpa [begun] using same
    simpa using fit.opened.begins invoke captured
  | none =>
    cases early : r.isEarly now with
    | false =>
      obtain ⟨-, same, -⟩ := repair_of_overdue captured early rule previous
      obtain rfl : invoke = now := by simpa [begun] using same
      simpa [isEarly, fit.opened.intends] using early
    | true =>
      cases rule with
      | skip => simp [repair_skip_iff.mpr ⟨rfl, captured, early⟩] at kept
      | reusePrevious =>
        obtain ⟨-, first, last⟩ := repair_of_early captured early previous
        rw [max_eq_right ordered] at last
        obtain rfl : invoke = previous.1 := by simpa [begun] using first
        obtain rfl : respond = previous.2 := by simpa [ended] using last
        simp

end Timing

namespace Sample

/-- The sample of a record that has everything. -/
theorem ofTiming_of_all (operation : Nat) (phase : Phase) {r : Timing}
    {intended invoke respond : Stamp} (intends : r.intended = some intended)
    (begun : r.invoke = some invoke) (ended : r.respond = some respond) :
    ofTiming operation phase r = ⟨operation, phase, intended, invoke, respond, r.pause⟩ := by
  simp [ofTiming, intends, begun, ended]

end Sample

namespace LoopState

/-- The policy is one of the mode, and the slots remember their times. -/
structure Rests (c : RunControl) (l : LoopState) (h : History) : Prop where
  mode : l.policy.earlyFailure = c.policy.earlyFailure
  remember : l.slots.Remember c.simultaneous h

/-- The slot whose invocation is under way remembers its times as well. -/
structure Serves (c : RunControl) (l : LoopState) (s : Slot) (h : History) : Prop
    extends l.Rests c h where
  own : s.Remembers c.simultaneous s.background h

variable {c : RunControl} {l : LoopState} {s : Slot} {x : Exchange} {h : History}

theorem Rests.plain (rests : l.Rests c h) (plain : x.request.Plain) : l.Rests c (x :: h) :=
  ⟨rests.mode, rests.remember.plain plain⟩

theorem Serves.of_previous (serves : l.Serves c s h)
    (same : ∀ b, previous c.simultaneous b (x :: h) = previous c.simultaneous b h) :
    l.Serves c s (x :: h) :=
  ⟨⟨serves.mode, serves.remember.of_previous same⟩, serves.own.of_previous (same _)⟩

theorem Serves.plain (serves : l.Serves c s h) (plain : x.request.Plain) :
    l.Serves c s (x :: h) :=
  serves.of_previous fun _ => previous_cons_of_plain plain

/-- The invocation that is accounted for is the one that its slot remembers from then on. -/
theorem Serves.follow {i : Invocation} {sample : Sample} {result : Policy × Phase}
    (serves : l.Serves c i.slot h) (called : caller h = some i.slot.background)
    (classified : l.policy.Classifies i.record result) (reported : x.sample? = some sample)
    (begun : i.record.invoke = some sample.invoke)
    (ended : i.record.respond = some sample.respond) (ordered : sample.invoke ≤ sample.respond) :
    ((l.withPolicy result.1).follow i).Rests c (x :: h) :=
  ⟨classified.earlyFailure.trans serves.mode,
    serves.remember.follow called reported begun ended ordered⟩

end LoopState

/-- An outline in which the slots remember the times that the history tells, and every record is
fit. -/
def Outline.accounting (c : RunControl) : Outline where
  unbegun _ := True
  resting l h := l.Rests c h
  opening l i h := i.record.Fit i.pending.intended ∧ l.Serves c i.slot h
  serving l i h := i.record.Fit i.pending.intended ∧ l.Serves c i.slot h ∧
    caller h = some i.slot.background
  cleared l i h := i.record.Fit i.pending.intended ∧ l.Serves c i.slot h ∧
    caller h = some i.slot.background
  closing l i phase h := (l.follow i).Rests c h ∧ JustReported phase h

namespace Outline

variable {σ : Type} {p : RunPlan σ} {id : Nat} {c : RunControl} {l : LoopState} {i : Invocation}
  {record : Timing} {result : Policy × Phase} {now : Stamp} {x : Exchange} {h : History}

theorem serving_plain (plain : x.request.Plain)
    (serving : l.Serves c i.slot h ∧ caller h = some i.slot.background) :
    l.Serves c i.slot (x :: h) ∧ caller (x :: h) = some i.slot.background :=
  ⟨serving.1.plain plain, (caller_cons_of_plain plain).trans serving.2⟩

theorem accounting_succeeds {t : Stamp} (cleared : (accounting c).cleared l i h)
    (completed : i.record.complete = (record, none))
    (classified : l.policy.Classifies record result) :
    let i := i.withRecord record
    let x : Exchange := ⟨t, .emit (.transaction (i.sample result.2)), ()⟩
    Accounts c x h ∧ (accounting c).closing (l.withPolicy result.1) i result.2 (x :: h) := by
  intro i' x
  obtain ⟨fit, serves, called⟩ := cleared
  obtain ⟨invoke, respond, begun, ended, due, ordered⟩ := fit.opened.complete completed
  have kept := Timing.complete_kept (r := i.record)
  rw [completed] at kept
  have sample : i'.sample result.2 =
      ⟨i.pending.operation, result.2, i.pending.intended, invoke, respond, record.pause⟩ :=
    Sample.ofTiming_of_all _ _ (kept.1.trans fit.opened.intends) begun ended
  have reported : x.sample? = some (i'.sample result.2) := rfl
  have rests := serves.follow (i := i') called classified reported (by rw [sample]; exact begun)
    (by rw [sample]; exact ended) (by rw [sample]; exact ordered)
  refine ⟨?_, rests, rfl⟩
  show (i'.sample result.2).intended ≤ _ ∧ (i'.sample result.2).invoke ≤ _ ∧ 0 ≤ _
  rw [sample]
  exact ⟨due, ordered, kept.2 ▸ fit.pause⟩

theorem Failed.failedEarly {O : Outline} (failed : O.Failed l i now h) :
    h.failedEarly = (i.record.invoke.isNone && i.record.isEarly now) := by
  unfold History.failedEarly
  rw [failed.returned, failed.reading]

/-- A failure before its time is reported with what its slot remembers, and any other one with times
from its intended time on. -/
theorem accounting_fails {cause : ErrorChain} {t : Stamp} (t' : Stamp)
    (failed : (accounting c).Failed l i now h) (kept : (i.repair now l.policy).2.skip = false)
    (classified : l.policy.Classifies (i.repair now l.policy).1 result) :
    let i := i.withRecord (i.repair now l.policy).1
    let x : Exchange := ⟨t, .emit (.error (i.sample result.2)), ()⟩
    let y : Exchange := ⟨t', .emit (.failed i.pending.operation result.2 cause), ()⟩
    Accounts c x h ∧ (accounting c).closing (l.withPolicy result.1) i result.2 (y :: x :: h) := by
  intro i' x y
  obtain ⟨fit, serves, called⟩ := failed.cleared
  obtain ⟨invoke, respond, begun, ended, ordered, origin⟩ := fit.repair serves.own.ordered kept
  have same : i'.record.intended = i.record.intended ∧ i'.record.pause = i.record.pause :=
    Timing.repair_kept
  have sample : i'.sample result.2 =
      ⟨i.pending.operation, result.2, i.pending.intended, invoke, respond, i'.record.pause⟩ :=
    Sample.ofTiming_of_all _ _ (same.1.trans fit.opened.intends) begun ended
  have reported : x.sample? = some (i'.sample result.2) := rfl
  have rests := serves.follow (i := i') called classified reported (by rw [sample]; exact begun)
    (by rw [sample]; exact ended) (by rw [sample]; exact ordered)
  refine ⟨?_, rests.plain rfl, rfl⟩
  show (i'.sample result.2).invoke ≤ (i'.sample result.2).respond ∧
    0 ≤ (i'.sample result.2).pause ∧ if h.failedEarly then _ else _
  rw [sample, failed.failedEarly]
  refine ⟨ordered, same.2 ▸ fit.pause, ?_⟩
  split at origin
  next early =>
    obtain ⟨rule, previous⟩ := origin
    have mode := rule.symm.trans (serves.mode.trans c.earlyFailure_eq)
    have cycles : c.mode.isTime = false := by
      cases timed : c.mode.isTime with
      | false => rfl
      | true => simp [timed] at mode
    rw [if_pos early]
    exact ⟨cycles, i.slot.background, called, serves.own.times.trans (congrArg some previous)⟩
  next late =>
    rw [if_neg late]
    exact origin

theorem accounting_skips {cause : ErrorChain} {t : Stamp}
    (failed : (accounting c).Failed l i now h) (skipped : (i.repair now l.policy).2.skip = true)
    (goesOn : cause.stopsRun = false) :
    let x : Exchange := ⟨t, .emit (.skipped i.pending.operation cause), ()⟩
    Accounts c x h ∧ (l.put i.slot).Rests c (x :: h) := by
  intro x
  obtain ⟨-, serves, -⟩ := failed.cleared
  obtain ⟨rule, missing, early⟩ := Timing.repair_skip_iff.mp skipped
  have mode := rule.symm.trans (serves.mode.trans c.earlyFailure_eq)
  have timed : c.mode.isTime = true := by
    cases timed : c.mode.isTime with
    | true => rfl
    | false => simp [timed] at mode
  have tooEarly : h.failedEarly = true := by
    rw [failed.failedEarly, missing, early]
    rfl
  have serves := serves.of_previous (x := x) fun _ => rfl
  exact ⟨⟨timed, tooEarly, goesOn⟩, serves.mode, serves.remember.put serves.own⟩

theorem accounting_plans {env : Exchange → History → Prop} (rests : l.Rests c h)
    (w : Workload σ) :
    (VirtualUser.emitAll (l.slots.plan w l.random).2.2).Ensures env (Accounts c) (fun _ h =>
      let l := l.plan w
      let s := l.slots.earliest
      ∀ pending, s.pending = some pending →
        (accounting c).opening (l.put { s with pending := none }) (.ofSlot s pending) h) h := by
  have step : ∀ x h, x.request.Plans → env x h → l.Rests c h →
      Accounts c x h ∧ l.Rests c (x :: h) := by
    intro x h plans _ rests
    obtain ⟨t, request, reply⟩ := x
    obtain ⟨background, operation, intended, delay, rfl⟩ := plans
    exact ⟨trivial, rests.mode, rests.remember.of_previous fun _ => rfl⟩
  refine ((VirtualUser.plan_only l.slots w l.random).ensures step rests).mono ?_
  intro _ h kept planned s pending has
  have remember := kept.2.remember.plan w l.random
  have own : Slot.Remembers c.simultaneous s.background { s with pending := none } h :=
    remember.earliest.of_times rfl rfl rfl
  exact ⟨Timing.fit_intendedAt pending.intended, ⟨kept.2.mode, remember.put own⟩, own⟩

theorem accounting_sound (p : RunPlan σ) (id : Nat) :
    (accounting p.control).Sound p id Punctual (Accounts p.control) where
  punctual punctual := punctual
  mute := accounts_of_mute
  ends _ := trivial
  unbegun_plain _ _ _ := trivial
  enters prepares _ _ := ⟨prepares.earlyFailure, .fresh prepares p.workload _ _ _ _⟩
  resting_plain plain _ rests := rests.plain plain
  notices _ told rests :=
    ⟨(Policy.earlyFailure_noticing _ _).trans rests.mode,
      rests.remember.plain (plain_of_told told)⟩
  resumes _ _ _ rests := ⟨trivial, rests.mode, rests.remember.reset _ _ _⟩
  plans _ rests := accounting_plans rests p.workload
  stops _ _ := trivial
  opening_tracked := by
    intro l i
    exact ((Timing.fit_kept i.pending.intended).tracked fun punctual => punctual).and
      (l.Serves p.control i.slot) fun idle _ serves => serves.plain idle.plain
  calls _ _ opening := ⟨trivial, opening.1, opening.2.of_previous fun _ => rfl, rfl⟩
  serving_tracked := by
    intro l i
    exact ((Timing.fit_kept i.pending.intended).tracked fun punctual => punctual).and
      (fun h => l.Serves p.control i.slot h ∧ caller h = some i.slot.background)
      fun idle _ => serving_plain idle.plain
  clears _ clear serving := ⟨serving.1, serving_plain (plain_of_clear clear) serving.2⟩
  cleared_plain plain _ cleared := ⟨cleared.1, serving_plain plain cleared.2⟩
  succeeds cleared completed classified _ := accounting_succeeds cleared completed classified
  skips failed skipped goesOn _ := accounting_skips failed skipped goesOn
  fails t' failed kept _ classified _ := accounting_fails t' failed kept classified
  delays := by
    intro l i phase sample t h closing _ delayed x _
    obtain rfl := Invocation.phase_of_delay delayed
    exact ⟨closing.2, closing.1.mode, closing.1.remember.of_previous fun _ => rfl⟩
  closes closing := closing.1

end Outline

section Runs

variable {σ : Type} {e : Ensemble (Stage σ)} {now : Stamp} {hs : Nat → History}

theorem accounts_of_run {p : RunPlan σ} (run : Ensemble.Run p.follow p.ensemble now e hs)
    (i : Nat) : (hs i).Each (Accounts p.control) :=
  ((Outline.accounting_sound p i).of_run trivial run (run.punctual p.fresh i)).1

theorem remember_of_run {p : RunPlan σ} (run : Ensemble.Run p.follow p.ensemble now e hs) {i : Nat}
    {m : Member (Stage σ)} {u : VirtualUser σ} {slots : Slots} (present : e.members[i]? = some m)
    (staged : m.stage? = some (.iterating u slots)) :
    slots.Remember p.control.simultaneous (hs i) := by
  have holds := ((Outline.accounting_sound p i).of_run trivial run (run.punctual p.fresh i)).2
  exact (holds m _ present staged).stands.2.remember

end Runs

/-- Every sample of a thread has its times in order: a transaction is intended, then begins, then
ends, and so does an error, unless it is that of a handler which has failed before its time. Such an
error takes over the times of the previous invocation of its slot, and occurs only where cycles are
counted. Between two iterations a slot holds just these times. -/
theorem sample_times {σ : Type} (p : RunPlan σ) {now : Stamp} {e : Ensemble (Stage σ)}
    {hs : Nat → History} (run : Ensemble.Run p.follow p.ensemble now e hs) (i : Nat) :
    (∀ x (older : History) s, x :: older <:+ hs i → x.event? = some (.transaction s) →
      s.intended ≤ s.invoke ∧ s.invoke ≤ s.respond ∧ 0 ≤ s.pause) ∧
    (∀ x (older : History) s, x :: older <:+ hs i → x.event? = some (.error s) →
      s.invoke ≤ s.respond ∧ 0 ≤ s.pause ∧
        if older.failedEarly then
          p.control.mode.isTime = false ∧ ∃ background, caller older = some background ∧
            previous p.control.simultaneous background older = some (s.invoke, s.respond)
        else s.intended ≤ s.invoke) ∧
    ∀ m u slots, e.members[i]? = some m → m.stage? = some (.iterating u slots) →
      ∀ background s, slots.side background = some s →
        previous p.control.simultaneous background (hs i) =
          some (s.previousStart, s.previousEnd) := by
  have accounts := each_iff_suffix.mp (accounts_of_run run i)
  refine ⟨fun x older s part reported => ?_, fun x older s part reported => ?_,
    fun m u slots present staged background s has => ?_⟩
  · have account := accounts x older part
    obtain ⟨t, request, reply⟩ := x
    cases request with
    | call c => cases reported
    | emit e =>
      cases reported
      exact account
  · have account := accounts x older part
    obtain ⟨t, request, reply⟩ := x
    cases request with
    | call c => cases reported
    | emit e =>
      cases reported
      exact account
  · exact (remember_of_run run present staged background s has).times

/-- A plan with an operation that succeeds once and fails at once from then on. -/
def RunPlan.failingSecond : RunPlan Bool :=
  { workload := Workload.single (fun _ => .created false)
      ⟨"", [], 0, .manual, true, .fixed ⟨10⟩⟩ fun failing =>
        if failing then .fails true (.plain "")
        else .calls .recordTime fun _ => .calls .recordTime fun _ => .succeeds true
    control := .ofMode (.cycles 1 1 1)
    seed := 0 }

/-- Whether the thread has just reported an error that was intended for a later time. -/
def History.endsEarly : History → Bool
  | ⟨_, .emit (.error s), _⟩ :: older => failedEarly older && decide (s.invoke < s.intended)
  | _ => false

/-- The second invocation fails before its time, and has the times of the first one. -/
theorem sample_times_failingSecond : ∃ now e hs x older s,
    Ensemble.Run RunPlan.failingSecond.follow RunPlan.failingSecond.ensemble now e hs ∧
      hs 0 = x :: older ∧ x.event? = some (.error s) ∧ s.invoke < s.intended ∧
      ∃ background, caller older = some background ∧
        previous false background older = some (s.invoke, s.respond) := by
  let order : List (Stamp × Nat) := List.replicate 15 (0, 0) ++ List.replicate 17 (5, 0)
  have passed : Ensemble.Run.reached (fun _ hs => (hs 0).endsEarly)
      (Ensemble.Run.play RunPlan.failingSecond.follow order 0 RunPlan.failingSecond.ensemble
        fun _ => []) = true := by
    decide +kernel
  obtain ⟨now, e, hs, run, passed⟩ := Ensemble.Run.exists_of_reached passed
  cases recorded : hs 0 with
  | nil => simp [recorded, endsEarly] at passed
  | cons x older =>
    rw [recorded] at passed
    obtain ⟨t, request, reply⟩ := x
    unfold endsEarly at passed
    split at passed
    next t' s reply' older' same =>
      cases same
      obtain ⟨early, later⟩ := (Bool.and_eq_true _ _).mp passed
      obtain ⟨-, errors, -⟩ := sample_times RunPlan.failingSecond run 0
      have part : ⟨t, .emit (.error s), reply'⟩ :: older <:+ hs 0 := recorded ▸ List.suffix_rfl
      obtain ⟨-, -, origin⟩ := errors _ older s part rfl
      rw [if_pos early] at origin
      exact ⟨now, e, hs, _, older, s, run, recorded, rfl, of_decide_eq_true later, origin.2⟩
    next => cases passed

end LoadGen
