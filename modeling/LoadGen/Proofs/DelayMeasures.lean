import LoadGen.Proofs.SampleTimes
import LoadGen.Proofs.SlotPlans

namespace LoadGen

open Program History

namespace History

/-- The sample that has just been reported, with the history before. An error is that of a handler
that has captured its invocation. -/
def Reports (h : History) (s : Sample) (before : History) : Prop :=
  match h with
  | ⟨_, .emit (.transaction s'), _⟩ :: older => s' = s ∧ older = before
  | ⟨_, .emit (.failed ..), _⟩ :: ⟨_, .emit (.error s'), _⟩ :: older =>
    s' = s ∧ older = before ∧ ∃ record, returned older = some record ∧ record.invoke.isSome
  | _ => False

/-- Where a delay of a slot is counted from: the start or the end of its previous invocation. -/
def reference (simultaneous b : Bool) (basis : PacingBasis) (h : History) : Option Stamp :=
  (previous simultaneous b h).map fun times =>
    match basis with
    | .cycleTime => times.1
    | .thinkTime => times.2

end History

/-- What a delay tells of the invocation of a slot that ended it, whose sample was reported after
`before`. It is named for the operation that was planned before, since the thread came into its loop
or was resumed, and lasted from where the pacing of that operation counts until the invocation. -/
structure Measures {σ : Type} (p : RunPlan σ) (d : DelaySample) (s : Sample) (b : Bool)
    (before : History) : Prop where
  called : caller before = some b
  phase : d.phase = s.phase
  plans : ∃ previous rest, previous.operation = d.operation ∧
    plansFor b before = ⟨s.operation, s.intended, d.targeted⟩ :: previous :: rest
  paces : p.workload.Paces d.operation d.basis d.targeted
  measured : ∃ reference, before.reference p.control.simultaneous b d.basis = some reference ∧
    s.intended = Stamp.plus reference d.targeted ∧ d.actual = Stamp.minus s.invoke reference ∧
    (reference + d.targeted ≤ Stamp.greatest → d.targeted ≤ d.actual)

/-- A delay is reported right after the sample of the invocation that ended it. -/
def Delayed {σ : Type} (p : RunPlan σ) (d : DelaySample) (h : History) : Prop :=
  ∃ s b before, h.Reports s before ∧ Measures p d s b before

/-- Every delay is reported for an invocation. -/
def DelaysMeasured {σ : Type} (p : RunPlan σ) (x : Exchange) (h : History) : Prop :=
  match x.request with
  | .emit (.delay d) => Delayed p d h
  | _ => True

theorem delaysMeasured_of_mute {σ : Type} {p : RunPlan σ} {x : Exchange} {h : History}
    (mute : x.request.Mute) : DelaysMeasured p x h := by
  obtain ⟨t, request, reply⟩ := x
  cases request with
  | call c => trivial
  | emit e => cases e <;> trivial

namespace Invocation

variable {i : Invocation} {phase : Phase} {d : DelaySample}

theorem exists_of_delay (delayed : i.delay? phase = some d) :
    ∃ delay invoke, i.pending.delay = some delay ∧ i.record.invoke = some invoke ∧
      d = ⟨delay.previous, phase, delay.basis, delay.targeted,
        Stamp.minus invoke i.pending.reference⟩ := by
  unfold delay? VirtualUser.delaySample? at delayed
  split at delayed
  next delay invoke has begun => exact ⟨delay, invoke, has, begun, (Option.some.inj delayed).symm⟩
  next => cases delayed

end Invocation

namespace LoopState

variable {σ : Type} {p : RunPlan σ} {l : LoopState} {i : Invocation} {phase : Phase}
  {d : DelaySample} {h : History}

/-- The reference of a slot that remembers its times is that of the history. -/
theorem Serves.reference {c : RunControl} (serves : l.Serves c i.slot h) (basis : PacingBasis) :
    h.reference c.simultaneous i.slot.background basis = some (i.slot.reference basis) := by
  unfold History.reference
  rw [serves.own.times]
  cases basis <;> rfl

/-- A delay measures an invocation that has begun no earlier than intended. -/
theorem Recalls.measures {invoke respond : Stamp}
    (recalls : l.Recalls p.workload i.slot i.pending h) (serves : l.Serves p.control i.slot h)
    (called : caller h = some i.slot.background)
    (intends : i.record.intended = some i.pending.intended)
    (begun : i.record.invoke = some invoke) (ended : i.record.respond = some respond)
    (due : i.pending.intended ≤ invoke) (delayed : i.delay? phase = some d) :
    Measures p d (i.sample phase) i.slot.background h := by
  obtain ⟨delay, invoke', has, begun', rfl⟩ := i.exists_of_delay delayed
  obtain rfl := Option.some.inj (begun.symm.trans begun')
  have sample : i.sample phase =
      ⟨i.pending.operation, phase, i.pending.intended, invoke, respond, i.record.pause⟩ :=
    Sample.ofTiming_of_all _ _ intends begun ended
  obtain ⟨-, follows⟩ := recalls.source.pending i.pending rfl
  obtain ⟨plans, paces, reference, intended⟩ := follows delay has
  have word : delay.targeted ≤ Stamp.greatest := by
    obtain ⟨o, random, -, -, drawn⟩ := paces
    rw [drawn]
    exact min_le_right _ _
  rw [sample]
  refine ⟨called, rfl, plans, paces, i.pending.reference, ?_, intended, rfl, fun fits => ?_⟩
  · rw [reference]
    exact serves.reference delay.basis
  · exact Stamp.le_minus fits word (intended ▸ due)

end LoopState

namespace Outline

variable {σ : Type} {p : RunPlan σ} {id : Nat} {l : LoopState} {i : Invocation} {record : Timing}
  {result : Policy × Phase} {now : Stamp} {x : Exchange} {h : History}

/-- An outline in which the slots remember their times and recall their plans, and the delay of an
invocation that has just been reported measures the way to it. -/
def delaying (p : RunPlan σ) : Outline where
  unbegun _ := True
  resting l h := l.Rests p.control h ∧ l.slots.Recall p.workload h
  opening l i h := (accounting p.control).opening l i h ∧ l.Recalls p.workload i.slot i.pending h
  serving l i h :=
    (accounting p.control).serving l i h ∧ l.RecallsKnown p.workload i.slot i.pending h
  cleared l i h :=
    (accounting p.control).cleared l i h ∧ l.RecallsKnown p.workload i.slot i.pending h
  closing l i phase h := (l.follow i).Rests p.control h ∧ (l.follow i).slots.Recall p.workload h ∧
    (h.JustTimed → ∀ d, i.delay? phase = some d → Delayed p d h)

theorem delaying_plans (rests : (delaying p).resting l h) :
    (VirtualUser.emitAll (l.slots.plan p.workload l.random).2.2).Ensures Punctual
      (DelaysMeasured p) (fun _ h =>
        let l := l.plan p.workload
        let s := l.slots.earliest
        ∀ pending, s.pending = some pending →
          (delaying p).opening (l.put { s with pending := none }) (.ofSlot s pending) h) h := by
  obtain ⟨rests, recalled⟩ := rests
  have planned : (VirtualUser.emitAll (l.slots.plan p.workload l.random).2.2).Ensures Punctual
      (DelaysMeasured p) (fun _ h => (l.slots.plan p.workload l.random).1.Recall p.workload h) h :=
    Slots.ensures_plan recalled Slot.Recalls.side
      (fun recalls idle t r => ⟨trivial, recalls.planned idle t r⟩)
      (fun recalls other => recalls.planned_other other) l.random
  refine (planned.and ((accounting_plans rests p.workload).weaken fun _ _ _ => trivial)).mono ?_
  intro _ h both l' s pending has
  obtain ⟨recalled, opening⟩ := both
  have source : (Invocation.ofSlot s pending).slot.holding pending = s := by
    simp only [Invocation.ofSlot, Slot.holding, ← has]
  have same : (l'.slots.put { s with pending := none }).put s = l'.slots.put s := Slots.put_put rfl
  refine ⟨opening pending has, ?_, rfl⟩
  show ((l'.slots.put { s with pending := none }).put (Slot.holding _ pending)).Recall _ _
  rw [source, same]
  exact Slots.Recall.put recalled (Slots.Recall.earliest recalled)

theorem delaying_succeeds {t : Stamp} (cleared : (delaying p).cleared l i h)
    (completed : i.record.complete = (record, none))
    (classified : l.policy.Classifies record result) :
    let i := i.withRecord record
    let x : Exchange := ⟨t, .emit (.transaction (i.sample result.2)), ()⟩
    (delaying p).closing (l.withPolicy result.1) i result.2 (x :: h) := by
  intro i' x
  obtain ⟨⟨fit, serves, called⟩, recalls⟩ := cleared
  obtain ⟨-, rests, -⟩ :=
    accounting_succeeds (t := t) ⟨fit, serves, called⟩ completed classified
  obtain ⟨invoke, respond, begun, ended, due, -⟩ := fit.opened.complete completed
  have kept := Timing.complete_kept (r := i.record)
  rw [completed] at kept
  refine ⟨rests, (recalls.follow record).of_same fun _ => rfl, fun _ d delayed => ?_⟩
  have measures := recalls.measures (i := i') serves called (kept.1.trans fit.opened.intends)
    begun ended due delayed
  exact ⟨i'.sample result.2, i.slot.background, h, ⟨rfl, rfl⟩, measures⟩

theorem delaying_fails {cause : ErrorChain} {t : Stamp} (t' : Stamp)
    (failed : (delaying p).Failed l i now h) (kept : (i.repair now l.policy).2.skip = false)
    (classified : l.policy.Classifies (i.repair now l.policy).1 result) :
    let i := i.withRecord (i.repair now l.policy).1
    let x : Exchange := ⟨t, .emit (.error (i.sample result.2)), ()⟩
    let y : Exchange := ⟨t', .emit (.failed i.pending.operation result.2 cause), ()⟩
    (delaying p).closing (l.withPolicy result.1) i result.2 (y :: x :: h) := by
  intro i' x y
  obtain ⟨⟨fit, serves, called⟩, recalls⟩ := failed.cleared
  have reported := @accounting_fails _ _ _ _ _ _ cause t t'
    (failed.imp fun _ cleared => cleared.1) kept classified
  obtain ⟨-, rests, -⟩ := reported
  refine ⟨rests, (recalls.follow _).of_same fun _ => rfl, fun timed d delayed => ?_⟩
  -- The delay is valid only if the handler has captured its invocation, which the repair keeps.
  obtain ⟨own, returned, captured⟩ := timed
  obtain rfl := Option.some.inj (failed.returned.symm.trans returned)
  obtain ⟨invoke, begun⟩ := Option.isSome_iff_exists.mp captured
  have same : i'.record.invoke = some invoke ∧
      i'.record.respond = some (max invoke (i.record.answered.getD now)) :=
    (Timing.repair_of_invoke begun _ _).2
  have intends : i'.record.intended = i.record.intended := Timing.repair_kept.1
  have measures := recalls.measures (i := i') serves called (intends.trans fit.opened.intends)
    same.1 same.2 (fit.opened.begins invoke begun) delayed
  exact ⟨i'.sample result.2, i.slot.background, h,
    ⟨rfl, rfl, i.record, returned, captured⟩, measures⟩

theorem delaying_skips {cause : ErrorChain} {t : Stamp} (failed : (delaying p).Failed l i now h)
    (skipped : (i.repair now l.policy).2.skip = true) (goesOn : cause.stopsRun = false) :
    let x : Exchange := ⟨t, .emit (.skipped i.pending.operation cause), ()⟩
    (delaying p).resting (l.put i.slot) (x :: h) := by
  intro x
  obtain ⟨-, rests⟩ :=
    accounting_skips (t := t) (failed.imp fun _ cleared => cleared.1) skipped goesOn
  exact ⟨rests, failed.cleared.2.put.of_same fun _ => rfl⟩

theorem delaying_sound (p : RunPlan σ) (id : Nat) :
    (delaying p).Sound p id Punctual (DelaysMeasured p) where
  punctual punctual := punctual
  mute := delaysMeasured_of_mute
  ends _ := trivial
  unbegun_plain _ _ _ := trivial
  enters prepares _ _ :=
    ⟨⟨prepares.earlyFailure, .fresh prepares p.workload _ _ _ _⟩, .fresh (fun _ => rfl) _ _⟩
  resting_plain plain _ rests := ⟨rests.1.plain plain, rests.2.plain plain⟩
  notices possible told rests :=
    ⟨(accounting_sound p id).notices possible told rests.1, rests.2.plain (plain_of_told told)⟩
  resumes := by
    intro l t now h t' slept x y possible rests
    have slept := slept.imp (P := accounting p.control) fun _ rests => rests.1
    obtain ⟨-, rests'⟩ := (accounting_sound p id).resumes t' slept possible rests.1
    exact ⟨trivial, rests', rests.2.reset t now t'⟩
  plans _ rests := delaying_plans rests
  stops _ _ := trivial
  opening_tracked := by
    intro l i
    exact ((accounting_sound p id).opening_tracked (l := l) (i := i)).and
      (l.Recalls p.workload i.slot i.pending) fun idle _ recalls => recalls.plain idle.plain
  calls := by
    intro l i t h known possible opening
    obtain ⟨-, serving⟩ := (accounting_sound p id).calls known possible opening.1
    exact ⟨trivial, serving, opening.2.of_same fun _ => rfl, known⟩
  serving_tracked := by
    intro l i
    exact ((accounting_sound p id).serving_tracked (l := l) (i := i)).and
      (l.RecallsKnown p.workload i.slot i.pending) fun idle _ recalls => recalls.plain idle.plain
  clears possible clear serving :=
    ⟨(accounting_sound p id).clears possible clear serving.1,
      serving.2.plain (plain_of_clear clear)⟩
  cleared_plain plain possible cleared :=
    ⟨(accounting_sound p id).cleared_plain plain possible cleared.1, cleared.2.plain plain⟩
  succeeds cleared completed classified _ :=
    ⟨trivial, delaying_succeeds cleared completed classified⟩
  skips failed skipped goesOn _ := ⟨trivial, delaying_skips failed skipped goesOn⟩
  fails t' failed kept _ classified _ := ⟨trivial, delaying_fails t' failed kept classified⟩
  delays := by
    intro l i phase d t h closing timed delayed x _
    obtain ⟨rests, recalled, measured⟩ := closing
    exact ⟨measured timed d delayed, ⟨rests.mode, rests.remember.of_previous fun _ => rfl⟩,
      recalled.of_same fun _ => rfl⟩
  closes closing := ⟨closing.1, closing.2.1⟩

end Outline

/-- Delays are measured between two invocations of one slot. The report of a delay follows that of
the invocation which ended it: a transaction, or an error whose handler has captured an invocation.
The delay is drawn from the pacing of the operation that was planned for the slot before, since the
thread came into its loop or was last resumed, and is measured from the previous sample of the slot,
or else from where its first delay was counted. It lasted no shorter than drawn, as long as the two
times add up within the range of the clock. -/
theorem delays_measured {σ : Type} (p : RunPlan σ) {now : Stamp} {e : Ensemble (Stage σ)}
    {hs : Nat → History} (run : Ensemble.Run p.follow p.ensemble now e hs) (i : Nat) {x : Exchange}
    {older : History} (part : x :: older <:+ hs i) {d : DelaySample}
    (delayed : x.event? = some (.delay d)) :
    0 ≤ d.targeted ∧ ∃ s b before, older.Reports s before ∧ Measures p d s b before := by
  obtain ⟨each, -⟩ := (Outline.delaying_sound p i).of_run trivial run (run.punctual p.fresh i)
  have measured := each_iff_suffix.mp each x older part
  rw [Exchange.eq_of_event delayed] at measured
  obtain ⟨s, b, before, reports, measures⟩ := measured
  exact ⟨measures.paces.nonneg, s, b, before, reports, measures⟩

/-- The foreground waits for 80 nanoseconds, and is called ten later; the background has planned in
between. -/
theorem delays_measured_besidePausing : ∃ now e hs x, ∃ older : History,
    Ensemble.Run RunPlan.besidePausing.follow RunPlan.besidePausing.ensemble now e hs ∧
      hs 0 = x :: older ∧ x.event? = some (.delay ⟨0, .steadyState, .cycleTime, 80, 90⟩) ∧
      ∃ s b before, older.Reports s before ∧ 0 + 80 ≤ Stamp.greatest ∧
        Measures RunPlan.besidePausing ⟨0, .steadyState, .cycleTime, 80, 90⟩ s b before := by
  let order : List (Stamp × Nat) := List.replicate 13 (0, 0) ++ List.replicate 10 (0, 1) ++
    List.replicate 41 (0, 0) ++ List.replicate 11 (90, 0)
  have passed : Ensemble.Run.reached (fun _ hs => decide ((hs 0).head?.bind Exchange.event? =
      some (.delay ⟨0, .steadyState, .cycleTime, 80, 90⟩)))
      (Ensemble.Run.play RunPlan.besidePausing.follow order 0 RunPlan.besidePausing.ensemble
        fun _ => []) = true := by
    decide +kernel
  obtain ⟨now, e, hs, run, passed⟩ := Ensemble.Run.exists_of_reached passed
  obtain ⟨x, latest, delayed⟩ := Option.bind_eq_some_iff.mp (of_decide_eq_true passed)
  obtain ⟨older, split⟩ := List.head?_eq_some_iff.mp latest
  have part : x :: older <:+ hs 0 := split ▸ List.suffix_rfl
  obtain ⟨-, s, b, before, reports, measures⟩ :=
    delays_measured RunPlan.besidePausing run 0 part delayed
  exact ⟨now, e, hs, x, older, run, split, delayed, s, b, before, reports, by decide, measures⟩

end LoadGen
