import LoadGen.Proofs.RunEnd
import LoadGen.Proofs.SignalAgreement

namespace LoadGen

open Program History

def Policy.bounds? : Policy → Option TimeBounds
  | .time q => q.bounds
  | .cycles _ => none

namespace Stage

variable {σ : Type}

/-- The bounds that the policy of the thread has set. -/
def bounds? : Stage σ → Option TimeBounds
  | .ready u | .iterating u _ | .ended u _ => u.policy.bounds?
  | _ => none

/-- The thread has these bounds, or is over. -/
def KeepsTo (b : TimeBounds) (stage : Stage σ) : Prop :=
  stage.bounds? = some b ∨ ∃ result, stage = .finished result

variable {q : TimePolicy} {b : TimeBounds} {stage : Stage σ}

theorem keepsTo_of_carries (set : q.bounds = some b) (carries : stage.Carries (.time q)) :
    stage.KeepsTo b := by
  cases stage with
  | iterating u slots | ended u error =>
    have policy : u.policy = .time q := carries
    refine Or.inl ?_
    rw [bounds?, policy]
    exact set
  | _ => cases carries

end Stage

namespace Thread

variable {σ : Type}

/-- The phases of the thread have these bounds: they are set at its next stage, whatever it is told
until then. -/
def MeasuresBy (b : TimeBounds) (thread : Thread (Stage σ)) : Prop :=
  thread.rest.Only (fun _ => True) fun stage => stage.bounds? = some b

/-- The phases of the thread have these bounds at its next stage, unless the thread is over then. -/
def KeepsTo (b : TimeBounds) (thread : Thread (Stage σ)) : Prop :=
  thread.rest.Only (fun _ => True) (Stage.KeepsTo b)

end Thread

namespace Ensemble

variable {σ : Type}

def MeasuresBy (e : Ensemble (Stage σ)) (i : Nat) (b : TimeBounds) : Prop :=
  ∃ m, e.members[i]? = some m ∧ m.thread.MeasuresBy b

def KeepsTo (e : Ensemble (Stage σ)) (i : Nat) (b : TimeBounds) : Prop :=
  ∀ m, e.members[i]? = some m → m.thread.KeepsTo b

theorem measuresBy_of_stage {e : Ensemble (Stage σ)} {i : Nat} {b : TimeBounds}
    (set : (e.members[i]?.bind Member.stage?).bind Stage.bounds? = some b) :
    e.MeasuresBy i b := by
  obtain ⟨stage, staged, set⟩ := Option.bind_eq_some_iff.mp set
  obtain ⟨m, present, staged⟩ := Option.bind_eq_some_iff.mp staged
  refine ⟨m, present, ?_⟩
  rw [Thread.MeasuresBy, Member.thread_of_stage staged]
  exact set

end Ensemble

section Kept

variable {σ : Type} {q : TimePolicy} {b : TimeBounds} {u : VirtualUser σ} {w : Workload σ}

theorem TimePolicy.withStart_of_set (set : q.bounds = some b) (start : Stamp) :
    q.withStart start = q := by
  simp [withStart, set]

theorem TimePolicy.gate_keeps (set : q.bounds = some b) (load : Option LoadSchedule)
    (thread : Nat) : (q.gate load thread).Only (fun _ => True) (·.1 = q) := by
  unfold gate
  cases load with
  | none => simp [noticeStart, set]
  | some schedule =>
    simp only [only_bind]
    refine (only_true requireStart).mono fun start _ => ?_
    cases start with
    | none => rfl
    | some start =>
      simp only [withStart_of_set set start, only_bind, only_clock]
      refine ⟨trivial, fun now => ?_⟩
      split
      next => rfl
      next => rfl
      next =>
        simp only [only_bind, only_emit, only_sleepUntil]
        refine ⟨trivial, trivial, fun wait => ?_⟩
        cases wait <;> rfl

theorem keepsTo_of_carries {p : Program (Stage σ)} {kind : Request → Prop}
    (set : q.bounds = some b) (only : p.Only kind (Stage.Carries (.time q))) :
    p.Only (fun _ => True) (Stage.KeepsTo b) :=
  (only.weaken fun _ _ => trivial).mono fun _ => Stage.keepsTo_of_carries set

theorem VirtualUser.enter_keeps (policy : u.policy = .time q) (set : q.bounds = some b) :
    (u.enter w).Only (fun _ => True) (Stage.KeepsTo b) := by
  simp only [enter, only_bind, only_clock, only_emit, only_pure]
  refine ⟨trivial, fun now => ⟨trivial, Or.inl ?_⟩⟩
  rw [Stage.bounds?, policy]
  exact set

theorem VirtualUser.start_keeps (policy : u.policy = .time q) (set : q.bounds = some b) :
    (u.start w).Only (fun _ => True) (Stage.KeepsTo b) := by
  have left : (Stage.ended u none).KeepsTo b := by
    refine Or.inl ?_
    rw [Stage.bounds?, policy]
    exact set
  simp only [start, only_bind, policy, Policy.prepare]
  refine ⟨trivial, fun _ => ?_⟩
  split
  next =>
    simp only [only_bind, only_awaitStart, only_pure]
    refine ⟨trivial, fun start => ?_⟩
    cases start with
    | none => exact left
    | some start =>
      rw [Option.map_some, TimePolicy.withStart_of_set set start]
      exact enter_keeps rfl set
  next => exact enter_keeps rfl set

theorem VirtualUser.iterate_keeps (policy : u.policy = .time q) (set : q.bounds = some b)
    (load : Option LoadSchedule) (slots : Slots) :
    (u.iterate w load slots).Only (fun _ => True) (Stage.KeepsTo b) := by
  simp only [iterate, only_bind, only_isAborted]
  refine ⟨trivial, fun aborted => ?_⟩
  split
  next => exact keepsTo_of_carries set (finish_carries policy none)
  next =>
    simp only [policy, Policy.gate, only_bind, only_pure]
    refine (TimePolicy.gate_keeps set load u.id).mono fun result same => ?_
    obtain ⟨q', gate⟩ := result
    obtain rfl : q' = q := same
    exact keepsTo_of_carries set (obey_carries rfl slots gate)

theorem RunPlan.follow_keeps {p : RunPlan σ} {stage : Stage σ} {next : Program (Stage σ)}
    (keeps : stage.KeepsTo b) (follows : p.follow stage = some next) :
    next.Only (fun _ => True) (Stage.KeepsTo b) := by
  have timed : ∀ {u : VirtualUser σ}, u.policy.bounds? = some b →
      ∃ q, u.policy = .time q ∧ q.bounds = some b := by
    intro u set
    cases policy : u.policy with
    | time q => exact ⟨q, rfl, by rwa [policy] at set⟩
    | cycles q => simp [policy, Policy.bounds?] at set
  rcases keeps with set | ⟨result, rfl⟩
  · cases stage with
    | ready u =>
      cases follows
      obtain ⟨q, policy, set⟩ := timed set
      exact VirtualUser.start_keeps policy set
    | iterating u slots =>
      cases follows
      obtain ⟨q, policy, set⟩ := timed set
      exact VirtualUser.iterate_keeps policy set _ slots
    | ended u error =>
      cases follows
      exact ((p.conclude_only u error).weaken fun _ _ => trivial).mono fun _ ends => Or.inr ends
    | _ => cases set
  · cases follows

theorem RunPlan.takes_keeps {p : RunPlan σ} {me : Nat} {now : Stamp} {s s' : Signals}
    {m m' : Member (Stage σ)} {x : Option Exchange} (keeps : m.thread.KeepsTo b)
    (takes : Member.Takes p.follow me now s m s' m' x) : m'.thread.KeepsTo b := by
  unfold Thread.KeepsTo at keeps ⊢
  cases takes with
  | follow follows => exact RunPlan.follow_keeps keeps follows
  | emit => exact keeps.2 ()
  | move stands moved =>
    rw [stands.rest] at keeps
    exact keeps
  | answer stands answered =>
    rw [stands.rest] at keeps
    exact keeps.2 _

end Kept

namespace TimedRun

variable {σ : Type} {r : TimedRun} {q : TimePolicy} {h : History} {u : VirtualUser σ}
  {w : Workload σ}

/-- What a thread between two programs knows of the start. -/
def Holds (r : TimedRun) : Stage σ → History → Prop
  | .starting _, h => ¬ SeesStart h
  | .ready u, h => u.policy = .time r.policy ∧ ¬ SeesStart h
  | .iterating u _, h | .ended u _, h => ∃ q, u.policy = .time q ∧ r.Knows q h
  | _, _ => True

theorem holds_of_carries {kind : Request → Prop} {p : Program (Stage σ)}
    (only : p.Only kind (Stage.Carries (.time q)))
    (untelling : ∀ request, kind request → request.Untelling) (knows : r.Knows q h) :
    p.Ensures r.Tells (fun _ _ => True) r.Holds h := by
  have kept : ∀ x h, kind x.request → r.Tells x h → r.Knows q h → True ∧ r.Knows q (x :: h) :=
    fun x h of_kind _ knows => ⟨trivial, knows.untold (start?_of_untelling (untelling _ of_kind))⟩
  refine (only.ensures kept knows).mono ?_
  intro stage h carried
  obtain ⟨carries, knows⟩ := carried
  cases stage with
  | iterating u slots | ended u error => exact ⟨q, carries, knows⟩
  | _ => cases carries

theorem enter_holds (policy : u.policy = .time q) (knows : r.Knows q h) :
    (u.enter w).Ensures r.Tells (fun _ _ => True) r.Holds h := by
  simp only [VirtualUser.enter, ensures_bind, ensures_clock, ensures_emit, ensures_pure]
  exact fun t now _ => ⟨trivial, fun t' _ => ⟨trivial, q, policy, (knows.untold rfl).untold rfl⟩⟩

theorem start_holds (policy : u.policy = .time r.policy) (unseen : ¬ SeesStart h) :
    (u.start w).Ensures r.Tells (fun _ _ => True) r.Holds h := by
  have knows : r.Knows r.policy h := Or.inl ⟨rfl, unseen⟩
  simp only [VirtualUser.start, ensures_bind, ensures_enrol, policy, Policy.prepare]
  refine fun t _ => ⟨trivial, ?_⟩
  have knows : r.Knows r.policy (⟨t, .call .enrol, ()⟩ :: h) := knows.untold rfl
  split
  next =>
    simp only [ensures_bind, ensures_awaitStart, ensures_pure]
    refine fun t' start tells => ⟨trivial, ?_⟩
    cases start with
    | none => exact ⟨r.policy, policy, knows.untold rfl⟩
    | some start => exact enter_holds rfl (knows.told tells rfl).1
  next => exact enter_holds rfl knows

theorem iterate_holds (policy : u.policy = .time q) (knows : r.Knows q h) (slots : Slots) :
    (u.iterate w r.load slots).Ensures r.Tells (fun _ _ => True) r.Holds h := by
  simp only [VirtualUser.iterate, ensures_bind, ensures_isAborted]
  refine fun t aborted _ => ⟨trivial, ?_⟩
  have knows : r.Knows q (⟨t, .call .isAborted, aborted⟩ :: h) := knows.untold rfl
  split
  next =>
    exact holds_of_carries (VirtualUser.finish_carries policy none)
      (fun _ => Request.Settled.untelling) knows
  next =>
    simp only [policy, Policy.gate, ensures_bind, ensures_pure]
    refine ((gate_asks knows u.id).weaken fun _ _ _ => trivial).mono
      fun result h known => ?_
    exact holds_of_carries (VirtualUser.obey_carries rfl slots result.2) (fun _ => id) known.1

theorem follow_holds {p : RunPlan σ} {stage : Stage σ} {next : Program (Stage σ)}
    (policy : p.control.policy = .time r.policy) (load : p.control.load = r.load)
    (holds : r.Holds stage h) (follows : p.follow stage = some next) :
    next.Ensures r.Tells (fun _ _ => True) r.Holds h := by
  cases stage with
  | starting id =>
    cases follows
    have kept : ∀ x h, x.request.Idle → r.Tells x h → ¬ SeesStart h →
        True ∧ ¬ SeesStart (x :: h) := by
      intro x h idle _ unseen
      rw [seesStart_cons_of_untold (start?_of_settled idle.settled)]
      exact ⟨trivial, unseen⟩
    refine ((p.launch_only id).ensures kept holds).mono ?_
    intro stage h begun
    obtain ⟨⟨state, rfl⟩ | ⟨result, rfl⟩, unseen⟩ := begun
    · exact ⟨policy, unseen⟩
    · trivial
  | ready u =>
    cases follows
    exact start_holds holds.1 holds.2
  | iterating u slots =>
    cases follows
    obtain ⟨q, carried, knows⟩ := holds
    exact load ▸ iterate_holds carried knows slots
  | ended u error =>
    cases follows
    refine ((p.conclude_only u error).ensures_of_safe fun _ _ _ => trivial).mono ?_
    intro stage h ends
    obtain ⟨result, rfl⟩ := ends
    trivial
  | conducting =>
    cases follows
    refine (p.conduct_only.ensures_of_safe fun _ _ _ => trivial).mono ?_
    intro stage h ends
    obtain ⟨now, rfl⟩ := ends
    trivial
  | finished result => cases follows
  | conducted now => cases follows

/-- Whoever has set bounds has been told the start, and has set those of the run. -/
theorem Holds.bounds {stage : Stage σ} {b : TimeBounds} (holds : r.Holds stage h)
    (set : stage.bounds? = some b) : b = r.bounds ∧ SeesStart h := by
  have known : ∀ {q}, r.Knows q h → q.bounds = some b → b = r.bounds ∧ SeesStart h := by
    intro q knows set
    rcases knows with ⟨rfl, -⟩ | ⟨rfl, sees⟩
    · cases set
    · cases set
      exact ⟨rfl, sees⟩
  cases stage with
  | ready u =>
    obtain ⟨policy, -⟩ := holds
    rw [Stage.bounds?, policy] at set
    cases set
  | iterating u slots | ended u error =>
    obtain ⟨q, policy, knows⟩ := holds
    rw [Stage.bounds?, policy] at set
    exact known knows set
  | _ => cases set

end TimedRun

theorem exists_untold (t : Stamp) (request : Request) :
    ∃ reply, Exchange.start? ⟨t, request, reply⟩ = none := by
  cases request with
  | emit e => exact ⟨(), rfl⟩
  | call c =>
    cases c with
    | startTime | awaitStart => exact ⟨(none : Option Stamp), rfl⟩
    | _ => exact ⟨undisturbed _, rfl⟩

/-- What a program comes to when it is told no start time. -/
theorem Program.Ensures.exists_untold_end {α : Type} {r : TimedRun} {p : Program α} {h : History}
    {safe : Exchange → History → Prop} {post : α → History → Prop} {result : α → Prop}
    (ensured : p.Ensures r.Tells safe post h) (only : p.Only (fun _ => True) result) :
    ∃ a later, post a later ∧ result a ∧ (SeesStart later ↔ SeesStart h) := by
  induction p generalizing h with
  | done a => exact ⟨a, h, ensured, only, Iff.rfl⟩
  | ask request next ih =>
    obtain ⟨reply, untold⟩ := exists_untold 0 request
    have tells : r.Tells ⟨0, request, reply⟩ h := by
      intro t told
      rw [untold] at told
      cases told
    obtain ⟨a, later, holds, ends, sees⟩ := ih reply (ensured 0 reply tells).2 (only.2 reply)
    exact ⟨a, later, holds, ends, sees.trans (seesStart_cons_of_untold untold)⟩

namespace RunPlan

open Ensemble

variable {σ : Type} {p : RunPlan σ} {rampUp steadyState rampDown : Span} {now later : Stamp}
  {e e' : Ensemble (Stage σ)} {hs hs' : Nat → History} {i : Nat} {m m' : Member (Stage σ)}
  {b : TimeBounds}

/-- Bounds are set once the start is fixed, to what follows from it. -/
theorem bounds_of_measures (mode : p.control.mode = .time rampUp steadyState rampDown)
    (run : Run p.follow p.ensemble now e hs) (measures : e.MeasuresBy i b) :
    ∃ start, e.signals.start = some start ∧
      b = TimeBounds.ofStart start rampUp steadyState rampDown := by
  obtain ⟨m, present, measures⟩ := measures
  let r : TimedRun := ⟨rampUp, steadyState, rampDown, p.control.simultaneous, p.control.load,
    e.signals.start.getD 0⟩
  have policy : p.control.policy = .time r.policy := by
    rw [RunControl.policy, mode]
    rfl
  have told : ∀ x ∈ hs i, ∀ t, x.start? = some t → e.signals.start = some t :=
    fun x mem t => run.told_start p.fresh mem
  have tells : (hs i).Each r.Tells := by
    refine each_of_mem fun x mem t start => ?_
    simp [r, told x mem t start]
  have unseen : ¬ SeesStart [] := by simp [SeesStart]
  obtain ⟨-, holds⟩ := ensures_of_run r.Holds unseen trivial
    (fun _ _ _ holds follows => TimedRun.follow_holds policy rfl holds follows) run tells
  -- The bounds are set whatever comes, even if the thread is told no start any more: it knew it.
  obtain ⟨stage, h, holds, set, sees⟩ := (holds m present).exists_untold_end measures
  obtain ⟨rfl, seen⟩ := holds.bounds set
  obtain ⟨x, mem, start⟩ := sees.mp seen
  obtain ⟨t, start⟩ := Option.isSome_iff_exists.mp start
  have fixed := told x mem t start
  exact ⟨t, fixed, by simp [r, TimedRun.bounds, fixed]⟩

/-- A thread that has set its bounds has them until it is over. -/
theorem keepsTo_of_measures (run : Run p.follow p.ensemble now e hs)
    (goes : Continues p.follow now e hs later e' hs') (measures : e.MeasuresBy i b) :
    e'.KeepsTo i b := by
  obtain ⟨m, present, measures⟩ := measures
  refine (run.holds_on (R := fun _ => True) (P := fun _ e _ => e.KeepsTo i b) ?_
    (fun kept _ => kept) (fun _ kept stepped => ⟨?_, fun _ _ => trivial⟩) goes).1
  · intro k same
    rw [present, Option.some.injEq] at same
    exact same ▸ measures.mono fun _ => Or.inl
  · intro n there
    rw [getElem?_withMember stepped.present] at there
    split at there
    next same =>
      subst same
      cases there
      exact takes_keeps (kept _ stepped.present) stepped.takes
    next => exact kept n there

/-- The threads that have set the bounds of their phases agree about them for good. -/
structure BoundsAgree (p : RunPlan σ) (rampUp steadyState rampDown : Span) (now : Stamp)
    (e : Ensemble (Stage σ)) (hs : Nat → History) : Prop where
  fixed : ∀ i b, e.MeasuresBy i b → ∃ start, e.signals.start = some start ∧
    b = TimeBounds.ofStart start rampUp steadyState rampDown
  equal : ∀ i j b c, e.MeasuresBy i b → e.MeasuresBy j c → b = c
  lasts : ∀ i b, e.MeasuresBy i b →
    ∀ {later e' hs'}, Continues p.follow now e hs later e' hs' → e'.KeepsTo i b

end RunPlan

open RunPlan Ensemble in
/-- All that threads are told of the signals is what one of them has given first, and threads whose
phases are measured by the clock have the same bounds. -/
theorem signals_agree :
    (∀ {α : Type} {follow : α → Option (Program α)} {first : Ensemble α} {threads : Nat}
      {now : Stamp} {e : Ensemble α} {hs : Nat → History}, Run.Fresh first threads →
        Run follow first now e hs → SignalsAgree follow now e hs) ∧
    ∀ {σ : Type} (p : RunPlan σ) {rampUp steadyState rampDown : Span} {now : Stamp}
      {e : Ensemble (Stage σ)} {hs : Nat → History},
        p.control.mode = .time rampUp steadyState rampDown →
        Run p.follow p.ensemble now e hs → p.BoundsAgree rampUp steadyState rampDown now e hs := by
  refine ⟨fun fresh run => run.signalsAgree fresh, fun p _ _ _ _ _ _ mode run => ?_⟩
  have fixed := fun i b => bounds_of_measures (i := i) (b := b) mode run
  refine ⟨fixed, fun i j b c one other => ?_, fun i b measures _ _ _ goes => ?_⟩
  · obtain ⟨start, first, rfl⟩ := fixed i b one
    obtain ⟨start', second, rfl⟩ := fixed j c other
    rw [first, Option.some.injEq] at second
    rw [second]
  · exact keepsTo_of_measures run goes measures

/-- Two callers: one fixes the start and asks for it, the other aborts and asks for what is left. -/
def callers : Ensemble Unit :=
  let fixing : Program Unit := do
    let _ ← Program.fixStart 3
    let _ ← Program.startTime
  let aborting : Program Unit := do
    let _ ← Program.abort ⟨1, "op", "cause"⟩
    let _ ← Program.call .abortCause
    let _ ← Program.call .abortTime
    let _ ← Program.awaitStart
  ⟨Signals.fresh 0, #[.ofProgram fixing, .ofProgram aborting]⟩

theorem callers_fresh : Ensemble.Run.Fresh callers 0 := by
  refine ⟨rfl, fun i m present => ?_⟩
  have member : m ∈ callers.members.toList := by
    simpa using Array.mem_of_getElem? present
  simp only [callers, List.mem_cons, List.not_mem_nil, or_false] at member
  rcases member with rfl | rfl <;> exact ⟨_, rfl⟩

def RunPlan.latePair : RunPlan Unit :=
  { RunPlan.late with control := { RunPlan.late.control with threads := .fixed 2 } }

theorem signals_agree_of_callers_and_pair :
    (∃ now e hs, Ensemble.Run (fun _ => none) callers now e hs ∧ e.signals.aborted ∧
      (∃ x ∈ hs 0, x.start? = some 3) ∧ OneShot.start.Gave e hs 3 ∧
      (∃ x ∈ hs 1, x.cause? = some ⟨1, "op", "cause"⟩) ∧ e.signals.abortTime.isSome) ∧
    ∃ now e hs b, Ensemble.Run RunPlan.latePair.follow RunPlan.latePair.ensemble now e hs ∧
      e.MeasuresBy 0 b ∧ ∀ c, e.MeasuresBy 1 c → c = b := by
  constructor
  · let order : List (Stamp × Nat) := List.replicate 8 (0, 0) ++ List.replicate 15 (4, 1)
    have passed : Ensemble.Run.reached (fun e hs => decide (e.signals.aborted = true ∧
        e.signals.holder = none ∧ (hs 0).any (·.start? = some 3) ∧
        (hs 1).any (·.cause? = some ⟨1, "op", "cause"⟩)))
        (Ensemble.Run.play (fun _ => none) order 0 callers fun _ => []) = true := by
      decide +kernel
    obtain ⟨now, e, hs, run, passed⟩ := Ensemble.Run.exists_of_reached passed
    obtain ⟨raised, free, start, cause⟩ := of_decide_eq_true passed
    obtain ⟨x, mem, start⟩ := List.any_eq_true.mp start
    obtain ⟨y, mem', cause⟩ := List.any_eq_true.mp cause
    have start := of_decide_eq_true start
    have agree := signals_agree.1 callers_fresh run
    exact ⟨now, e, hs, run, raised, ⟨x, mem, start⟩,
      agree.start.gave 3 (agree.start.same 0 x mem 3 (Or.inl start)),
      ⟨y, mem', of_decide_eq_true cause⟩, agree.stamped raised free⟩
  · let order : List (Stamp × Nat) :=
      [(0, 0), (0, 0), (0, 1), (0, 1)] ++ List.replicate 10 (0, 2) ++ List.replicate 12 (0, 0)
    have passed : Ensemble.Run.reached (fun e _ => decide
        (((e.members[0]?.bind Member.stage?).bind Stage.bounds?) =
          some (TimeBounds.ofStart 0 ⟨0⟩ ⟨1⟩ ⟨0⟩)))
        (Ensemble.Run.play RunPlan.latePair.follow order 0 RunPlan.latePair.ensemble fun _ => []) =
          true := by
      decide +kernel
    obtain ⟨now, e, hs, run, passed⟩ := Ensemble.Run.exists_of_reached passed
    have measures := Ensemble.measuresBy_of_stage (of_decide_eq_true passed)
    have agree := signals_agree.2 RunPlan.latePair rfl run
    exact ⟨now, e, hs, _, run, measures, fun c other => agree.equal 1 0 c _ other measures⟩

end LoadGen
