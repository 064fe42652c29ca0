import LoadGen.Proofs.LoopOutline
import LoadGen.Proofs.Playback
import LoadGen.Proofs.SampleCounts

namespace LoadGen

open Program History

/-- What is reported is in no earlier phase than what was reported before. -/
def InPhaseOrder (x : Exchange) (older : History) : Prop :=
  ∀ s, x.sample? = some s → ∀ r ∈ reports older, r.sample.phase.order ≤ s.phase.order

theorem sample?_of_silent {x : Exchange} (silent : x.request.Silent) : x.sample? = none := by
  obtain ⟨t, request, reply⟩ := x
  cases request with
  | call c => rfl
  | emit e => cases e <;> first | rfl | cases silent

theorem inPhaseOrder_of_silent {x : Exchange} {h : History} (silent : x.sample? = none) :
    InPhaseOrder x h := by
  intro s reported
  rw [silent] at reported
  cases reported

theorem CycleBounds.phaseOf_mono (b : CycleBounds) {cycle later : Nat} (le : cycle ≤ later) :
    (b.phaseOf cycle).order ≤ (b.phaseOf later).order := by
  unfold phaseOf
  split
  next => exact Nat.zero_le _
  next beyond =>
    rw [if_neg fun within => beyond (le.trans within)]
    split
    next => split <;> decide
    next beyond => rw [if_neg fun within => beyond (le.trans within)]

/-- An invocation that neither begins nor ends earlier than another one is in no earlier phase. -/
theorem TimeBounds.phaseOf_mono (b : TimeBounds) {invoke later respond answer : Stamp}
    (begins : invoke ≤ later) (ends : respond ≤ answer) :
    (b.phaseOf invoke respond).order ≤ (b.phaseOf later answer).order := by
  simp only [phaseOf, isSteady, decide_eq_true_eq]
  split
  next steady =>
    rw [if_neg (not_lt.mpr (steady.1.trans begins))]
    split <;> decide
  next unsteady =>
    split
    next => exact Nat.zero_le _
    next begun =>
      have begun := not_lt.mp begun
      have past : ¬ (b.endRampUp ≤ later ∧ answer < b.endSteadyState) :=
        fun steady => unsteady ⟨begun, lt_of_le_of_lt ends steady.2⟩
      rw [if_neg past, if_neg (not_lt.mpr (begun.trans begins))]

namespace CyclePolicy

/-- The phase of the latest cycle, the warm-up counting as ramp-up. -/
def latest (q : CyclePolicy) : Phase :=
  if q.started then q.bounds.phaseOf q.completed else .rampUp

/-- An invocation becomes the latest cycle, and the phases do not go back with it. -/
theorem classify_latest (q : CyclePolicy) (start : Option Stamp) (r : Timing) :
    (q.classify start r).2 = (q.classify start r).1.latest ∧
      q.latest.order ≤ (q.classify start r).2.order := by
  cases started : q.started with
  | true =>
    simp only [classify, latest, count, started, ↓reduceIte, true_and]
    exact q.bounds.phaseOf_mono (Nat.le_succ _)
  | false =>
    have least : q.latest = .rampUp := by simp [latest, started]
    rw [least]
    refine ⟨?_, Nat.zero_le _⟩
    simp only [classify, started, Bool.false_eq_true, ↓reduceIte]
    split
    next =>
      split
      next => simp [latest, count]
      next => exact least.symm
    next => exact least.symm

end CyclePolicy

namespace TimePolicy

/-- The phase of an invocation with these times. -/
def phaseAt (q : TimePolicy) (invoke respond : Stamp) : Phase :=
  match q.bounds with
  | some bounds => bounds.phaseOf invoke respond
  | none => .rampUp

variable {q : TimePolicy} {invoke later respond answer : Stamp}

theorem classify_of_both {r : Timing} (begun : r.invoke = some invoke)
    (ended : r.respond = some respond) : q.classify r = q.phaseAt invoke respond := by
  unfold classify phaseAt
  cases q.bounds with
  | none => rfl
  | some bounds => simp only [begun, ended, Option.getD_some]

theorem phaseAt_mono (begins : invoke ≤ later) (ends : respond ≤ answer) :
    (q.phaseAt invoke respond).order ≤ (q.phaseAt later answer).order := by
  unfold phaseAt
  cases q.bounds with
  | none => exact Nat.zero_le _
  | some b => exact b.phaseOf_mono begins ends

/-- Bounds that are set later make no phase an earlier one. -/
theorem phaseAt_withStart (q : TimePolicy) (start invoke respond : Stamp) :
    (q.phaseAt invoke respond).order ≤ ((q.withStart start).phaseAt invoke respond).order := by
  unfold withStart phaseAt
  cases set : q.bounds with
  | none => exact Nat.zero_le _
  | some b => simp [set]

end TimePolicy

namespace Policy

/-- No report is in a later phase than the policy has come to: that of the latest cycle, or the one
that the clock gives for the times of the report, which have passed. -/
def Covers (h : History) : Policy → Prop
  | cycles q => ∀ r ∈ reports h, r.sample.phase.order ≤ q.latest.order
  | time q => ∀ r ∈ reports h,
    r.sample.phase.order ≤ (q.phaseAt r.sample.invoke r.sample.respond).order ∧
      r.sample.invoke ≤ r.sample.respond ∧ Reached h r.sample.respond

/-- An invocation that has begun at a time began after all that was reported. Where cycles are
counted, times do not matter. -/
def Precedes (begun : Option Stamp) (h : History) : Policy → Prop
  | cycles _ => True
  | time _ => ∀ t, begun = some t → ∀ r ∈ reports h, r.sample.respond ≤ t

/-- The times of a sample are in order, have passed, and come after all that was reported. -/
def Dates (s : Sample) (h : History) : Policy → Prop
  | cycles _ => True
  | time _ => s.invoke ≤ s.respond ∧ Reached h s.respond ∧
    ∀ r ∈ reports h, r.sample.respond ≤ s.invoke

/-- What has been captured has passed, and the invocation comes after all that was reported. -/
structure Admits (policy : Policy) (r : Timing) (h : History) : Prop where
  passed : r.Each (Reached h)
  covers : policy.Covers h
  precedes : policy.Precedes r.invoke h

variable {policy : Policy} {r : Timing} {x : Exchange} {h : History} {now : Stamp}
  {begun : Option Stamp}

theorem Covers.cons (covers : policy.Covers h) (silent : x.sample? = none) :
    policy.Covers (x :: h) := by
  cases policy with
  | cycles q =>
    rw [Covers, reports_cons_of_none silent]
    exact covers
  | time q =>
    rw [Covers, reports_cons_of_none silent]
    intro r mem
    obtain ⟨within, ordered, reached⟩ := covers r mem
    exact ⟨within, ordered, reached.cons⟩

theorem Covers.noticing (covers : policy.Covers h) (start : Stamp) :
    (policy.noticing start).Covers h := by
  cases policy with
  | cycles q => exact covers
  | time q =>
    intro r mem
    obtain ⟨within, ordered, reached⟩ := covers r mem
    exact ⟨within.trans (q.phaseAt_withStart start _ _), ordered, reached⟩

theorem covers_of_unreported (unreported : reports h = []) (policy : Policy) :
    policy.Covers h := by
  cases policy <;> intro r mem <;> rw [unreported] at mem <;> cases mem

theorem Precedes.cons (precedes : policy.Precedes begun h) (silent : x.sample? = none) :
    policy.Precedes begun (x :: h) := by
  cases policy with
  | cycles q => trivial
  | time q =>
    rw [Precedes, reports_cons_of_none silent]
    exact precedes

theorem precedes_of_unbegun (policy : Policy) (h : History) : policy.Precedes none h := by
  cases policy with
  | cycles q => trivial
  | time q => exact fun t begun => by cases begun

/-- What has been reported is over, so that an invocation that begins now comes after it. -/
theorem Covers.precedes (covers : policy.Covers h) (timely : Timely x h)
    (read : x.reading? = some now) : policy.Precedes (some now) h := by
  cases policy with
  | cycles q => trivial
  | time q =>
    rintro t ⟨⟩ r mem
    exact (covers r mem).2.2.le timely read

theorem Covers.admits_intendedAt (covers : policy.Covers h) (t : Stamp) :
    policy.Admits (.intendedAt t) h :=
  ⟨Timing.each_intendedAt t, covers, policy.precedes_of_unbegun h⟩

theorem Admits.cons (admits : policy.Admits r h) (silent : x.sample? = none) :
    policy.Admits r (x :: h) :=
  ⟨admits.passed.mono fun _ => Reached.cons, admits.covers.cons silent,
    admits.precedes.cons silent⟩

/-- While a handler runs, the invocation that it captures comes after all that was reported. -/
theorem admits_tracked (policy : Policy) : Timing.Tracked Punctual policy.Admits where
  idle idle _ admits := admits.cons (sample?_of_silent idle.plain.silent)
  withInvoke punctual read _ admits := by
    have silent := sample?_of_silent (idle_of_reading read).plain.silent
    exact ⟨(admits.cons silent).passed.withInvoke (reached_of_reading punctual.timely read),
      admits.covers.cons silent, (admits.covers.precedes punctual.timely read).cons silent⟩
  withRespond punctual read admits := by
    have admits := admits.cons (sample?_of_silent (idle_of_reading read).plain.silent)
    exact ⟨admits.passed.withRespond (reached_of_reading punctual.timely read), admits.covers,
      admits.precedes⟩
  withLastRespond punctual read admits := by
    have admits := admits.cons (sample?_of_silent (idle_of_reading read).plain.silent)
    exact ⟨admits.passed.withLastRespond (reached_of_reading punctual.timely read),
      admits.covers, admits.precedes⟩
  addPause admits := ⟨admits.passed, admits.covers, admits.precedes⟩

/-- A sample whose times come after all that was reported is in no earlier phase, and the policy
covers it. -/
theorem Covers.report {s : Sample} {result : Policy × Phase} (covers : policy.Covers h)
    (classified : policy.Classifies r result) (begun : r.invoke = some s.invoke)
    (ended : r.respond = some s.respond) (phase : s.phase = result.2) (dates : policy.Dates s h)
    (reported : x.sample? = some s) : InPhaseOrder x h ∧ result.1.Covers (x :: h) := by
  have own : ∀ {s'}, x.sample? = some s' → s' = s :=
    fun reported' => Option.some.inj (reported'.symm.trans reported)
  cases policy with
  | cycles q =>
    obtain ⟨start, rfl⟩ := classified
    obtain ⟨same, later⟩ := q.classify_latest start r
    have order : ∀ a ∈ reports h, a.sample.phase.order ≤ s.phase.order := by
      intro a mem
      rw [phase]
      exact (covers a mem).trans later
    refine ⟨fun s' reported' => own reported' ▸ order, ?_⟩
    rw [Covers, reports_cons_of_some reported]
    intro a mem
    rw [← same, ← phase]
    rcases List.mem_append.mp mem with old | new
    · exact order a old
    · rw [List.mem_singleton.mp new]
  | time q =>
    obtain rfl : result = (time q, q.classify r) := classified
    obtain ⟨ordered, reached, after⟩ := dates
    have latest : s.phase = q.phaseAt s.invoke s.respond :=
      phase.trans (TimePolicy.classify_of_both begun ended)
    have order : ∀ a ∈ reports h, a.sample.phase.order ≤ s.phase.order := by
      intro a mem
      obtain ⟨within, ordered', -⟩ := covers a mem
      rw [latest]
      exact within.trans (TimePolicy.phaseAt_mono (ordered'.trans (after a mem))
        ((after a mem).trans ordered))
    refine ⟨fun s' reported' => own reported' ▸ order, ?_⟩
    rw [Covers, reports_cons_of_some reported]
    intro a mem
    rcases List.mem_append.mp mem with old | new
    · obtain ⟨within, ordered, reached⟩ := covers a old
      exact ⟨within, ordered, reached.cons⟩
    · rw [List.mem_singleton.mp new]
      exact ⟨le_of_eq (congrArg Phase.order latest), ordered, reached.cons⟩

end Policy

namespace Timing

variable {r record : Timing} {now : Stamp} {h : History} {policy : Policy}

/-- A completed invocation has captured times. -/
theorem dates_of_complete (completed : r.complete = (record, none)) (admits : policy.Admits r h)
    (operation : Nat) (phase : Phase) :
    let s := Sample.ofTiming operation phase record
    record.invoke = some s.invoke ∧ record.respond = some s.respond ∧ s.phase = phase ∧
      policy.Dates s h := by
  obtain ⟨invoke, respond, captured, answered, begun, ended, ordered⟩ := complete_sound completed
  obtain ⟨-, same, same'⟩ := Sample.ofTiming_of_both operation phase begun ended
  intro s
  rw [show s.invoke = invoke from same, show s.respond = respond from same', begun, ended]
  refine ⟨rfl, rfl, rfl, ?_⟩
  cases policy with
  | cycles q => trivial
  | time q =>
    rw [Policy.Dates, same, same']
    exact ⟨ordered, admits.passed.answered answered, admits.precedes invoke captured⟩

/-- A failed invocation that is reported has captured times or the reading; where cycles are counted
it may also have those of the invocation before. -/
theorem dates_of_repair {previous : Stamp × Stamp}
    (kept : (r.repair now policy.earlyFailure previous).2.skip = false)
    (admits : policy.Admits r h) (reached : Reached h now)
    (late : policy.Precedes (some now) h) (operation : Nat) (phase : Phase) :
    let record := (r.repair now policy.earlyFailure previous).1
    let s := Sample.ofTiming operation phase record
    record.invoke = some s.invoke ∧ record.respond = some s.respond ∧ s.phase = phase ∧
      policy.Dates s h := by
  intro record s
  obtain ⟨invoke, respond, begun, ended, ordered⟩ := repair_sound kept
  obtain ⟨-, same, same'⟩ := Sample.ofTiming_of_both operation phase begun ended
  rw [show s.invoke = invoke from same, show s.respond = respond from same', begun, ended]
  refine ⟨rfl, rfl, rfl, ?_⟩
  cases policy with
  | cycles q => trivial
  | time q =>
    rw [Policy.Dates, same, same']
    refine ⟨ordered, ?_⟩
    cases captured : r.invoke with
    | some t =>
      obtain ⟨-, begun', ended'⟩ := repair_of_invoke captured .skip previous
      obtain rfl : invoke = t := Option.some.inj (begun.symm.trans begun')
      obtain rfl : respond = max invoke (r.answered.getD now) :=
        Option.some.inj (ended.symm.trans ended')
      have answers : Reached h (r.answered.getD now) := by
        cases answered : r.answered with
        | some t => exact admits.passed.answered answered
        | none => exact reached
      exact ⟨(admits.passed invoke (Or.inl captured)).max answers,
        admits.precedes invoke captured⟩
    | none =>
      cases early : r.isEarly now with
      | true => simp [Policy.earlyFailure, repair_skip_iff.mpr ⟨rfl, captured, early⟩] at kept
      | false =>
        obtain ⟨-, begun', ended'⟩ := repair_of_overdue captured early .skip previous
        obtain rfl : invoke = now := Option.some.inj (begun.symm.trans begun')
        obtain rfl : respond = invoke := Option.some.inj (ended.symm.trans ended')
        exact ⟨reached, late _ rfl⟩

end Timing

/-- An outline in which the policy covers what has been reported, and every invocation comes after
it. -/
def Outline.phases : Outline where
  unbegun h := reports h = []
  resting l h := l.policy.Covers h
  opening l i h := l.policy.Admits i.record h
  serving l i h := l.policy.Admits i.record h
  cleared l i h := l.policy.Admits i.record h
  closing l _ _ h := l.policy.Covers h

namespace Outline

variable {σ : Type} {l : LoopState} {i : Invocation} {now : Stamp} {h : History}

theorem reports_append_of_plain {since : History} (plain : ∀ x ∈ since, x.request.Plain) :
    reports (since ++ h) = reports h := by
  induction since with
  | nil => rfl
  | cons x since ih =>
    have silent := (plain x List.mem_cons_self).silent
    rw [List.cons_append, reports_cons_of_none (sample?_of_silent silent)]
    exact ih fun y mem => plain y (List.mem_cons_of_mem x mem)

/-- The reading that is taken for a failed invocation comes after all that was reported. -/
theorem precedes_of_failed (failed : phases.Failed l i now h) :
    l.policy.Precedes (some now) h := by
  obtain ⟨since, older, rfl, plain, ⟨-, covers, -⟩, passed⟩ := failed.read
  cases policy : l.policy with
  | cycles q => trivial
  | time q =>
    rw [policy] at covers
    rintro t ⟨⟩ r mem
    rw [reports_append_of_plain plain] at mem
    exact passed _ (covers r mem).2.2

theorem phases_plans {env : Exchange → History → Prop} (covers : l.policy.Covers h)
    (w : Workload σ) :
    (VirtualUser.emitAll (l.slots.plan w l.random).2.2).Ensures env InPhaseOrder (fun _ h =>
      let l := l.plan w
      let s := l.slots.earliest
      ∀ pending, s.pending = some pending →
        phases.opening (l.put { s with pending := none }) (.ofSlot s pending) h) h := by
  have step : ∀ x h, x.request.Plans → env x h → l.policy.Covers h →
      InPhaseOrder x h ∧ l.policy.Covers (x :: h) := by
    intro x h plans _ covers
    obtain ⟨t, request, reply⟩ := x
    obtain ⟨background, operation, intended, delay, rfl⟩ := plans
    exact ⟨inPhaseOrder_of_silent rfl, covers.cons rfl⟩
  refine ((VirtualUser.plan_only l.slots w l.random).ensures step covers).mono ?_
  intro _ h kept planned s pending _
  exact kept.2.admits_intendedAt pending.intended

theorem phases_sound (p : RunPlan σ) (id : Nat) : phases.Sound p id Punctual InPhaseOrder where
  punctual punctual := punctual
  mute mute := inPhaseOrder_of_silent (sample?_of_silent mute.silent)
  ends _ := inPhaseOrder_of_silent rfl
  unbegun_plain plain _ unbegun :=
    (reports_cons_of_none (sample?_of_silent plain.silent)).trans unbegun
  enters _ _ unbegun := ((Policy.covers_of_unreported unbegun _).cons rfl).cons rfl
  resting_plain plain _ covers := covers.cons (sample?_of_silent plain.silent)
  notices _ told covers :=
    (covers.noticing _).cons (sample?_of_silent (plain_of_told told).silent)
  resumes _ _ _ covers := ⟨inPhaseOrder_of_silent rfl, (covers.cons rfl).cons rfl⟩
  plans _ covers := phases_plans covers p.workload
  stops _ _ := inPhaseOrder_of_silent rfl
  opening_tracked := Policy.admits_tracked _
  calls _ _ admits := ⟨inPhaseOrder_of_silent rfl, admits.cons rfl⟩
  serving_tracked := Policy.admits_tracked _
  clears _ clear admits := admits.cons (sample?_of_silent (plain_of_clear clear).silent)
  cleared_plain plain _ admits := admits.cons (sample?_of_silent plain.silent)
  succeeds := by
    intro l i record result t h admits completed classified i' x _
    obtain ⟨begun, ended, phase, dates⟩ :=
      Timing.dates_of_complete completed admits i.pending.operation result.2
    exact admits.covers.report classified begun ended phase dates rfl
  skips := by
    intro l i now t cause h failed _ _ x _
    exact ⟨inPhaseOrder_of_silent rfl, failed.cleared.covers.cons rfl⟩
  fails := by
    intro l i now cause result t h t' failed kept _ i' classified x y _
    obtain ⟨begun, ended, phase, dates⟩ := Timing.dates_of_repair kept failed.cleared
      failed.reached (precedes_of_failed failed) i.pending.operation result.2
    obtain ⟨inOrder, covers⟩ :=
      failed.cleared.covers.report (x := x) classified begun ended phase dates rfl
    exact ⟨inOrder, covers.cons rfl⟩
  delays := by
    intro l i phase sample t h covers _ _ x _
    exact ⟨inPhaseOrder_of_silent rfl, covers.cons rfl⟩
  closes covers := covers

end Outline

/-- What is reported in order makes an ordered sequence. -/
theorem History.pairwise_reports {h : History} (inOrder : h.Each InPhaseOrder) :
    (reports h).Pairwise fun a b => a.sample.phase.order ≤ b.sample.phase.order := by
  induction h with
  | nil => exact List.Pairwise.nil
  | cons x h ih =>
    cases reported : x.sample? with
    | none =>
      rw [reports_cons_of_none reported]
      exact ih inOrder.2
    | some s =>
      rw [reports_cons_of_some reported, List.pairwise_append]
      refine ⟨ih inOrder.2, List.pairwise_singleton _ _, fun a old b new => ?_⟩
      rw [List.mem_singleton.mp new]
      exact inOrder.1 s reported a old

/-- The phases of the samples that a thread reports never go back; in particular, nothing but the
ramp-down is reported after the ramp-down. -/
theorem phases_never_go_back {σ : Type} (p : RunPlan σ) {now : Stamp} {e : Ensemble (Stage σ)}
    {hs : Nat → History} (run : Ensemble.Run p.follow p.ensemble now e hs) (i : Nat) :
    ((reports (hs i)).Pairwise fun a b => a.sample.phase.order ≤ b.sample.phase.order) ∧
    ∀ x (older : History) s, x :: older <:+ hs i → x.sample? = some s →
      (∃ r ∈ reports older, r.sample.phase = .rampDown) → s.phase = .rampDown := by
  obtain ⟨inOrder, -⟩ := (Outline.phases_sound p i).of_run rfl run (run.punctual p.fresh i)
  refine ⟨pairwise_reports inOrder, fun x older s part reported last => ?_⟩
  obtain ⟨r, mem, down⟩ := last
  have order := each_iff_suffix.mp inOrder x older part s reported r mem
  rw [down] at order
  cases phase : s.phase with
  | rampDown => rfl
  | _ => simp [phase, Phase.order] at order

/-- A plan with an operation that does nothing, for a ramp-up of one nanosecond and a steady state
of two. -/
def RunPlan.threePhases : RunPlan Unit :=
  { workload := Workload.single (fun _ => .created ())
      ⟨"", [], 0, .automatic, true, .fixed Span.zero⟩ fun _ => .succeeds ()
    control := .ofMode (.time ⟨1⟩ ⟨2⟩ ⟨9⟩)
    seed := 0 }

/-- The thread reports a sample in each phase, one after the other. -/
theorem phases_never_go_back_threePhases : ∃ now e hs,
    Ensemble.Run RunPlan.threePhases.follow RunPlan.threePhases.ensemble now e hs ∧
      (reports (hs 0)).map (·.sample.phase) = [.rampUp, .steadyState, .rampDown] ∧
      (reports (hs 0)).Pairwise fun a b => a.sample.phase.order ≤ b.sample.phase.order := by
  let order : List (Stamp × Nat) := List.replicate 9 (0, 0) ++ List.replicate 10 (0, 1) ++
    List.replicate 15 (0, 0) ++ List.replicate 12 (1, 0) ++ List.replicate 14 (4, 0)
  have passed : Ensemble.Run.reached (fun _ hs => decide
      ((reports (hs 0)).map (·.sample.phase) = [.rampUp, .steadyState, .rampDown]))
      (Ensemble.Run.play RunPlan.threePhases.follow order 0 RunPlan.threePhases.ensemble
        fun _ => []) = true := by
    decide +kernel
  obtain ⟨now, e, hs, run, passed⟩ := Ensemble.Run.exists_of_reached passed
  exact ⟨now, e, hs, run, of_decide_eq_true passed,
    (phases_never_go_back RunPlan.threePhases run 0).1⟩

end LoadGen
