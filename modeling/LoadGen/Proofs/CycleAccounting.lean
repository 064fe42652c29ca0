import LoadGen.Proofs.CycleTally
import LoadGen.Proofs.Playback
import LoadGen.Proofs.QuietRequests
import LoadGen.Proofs.TimingRecords

namespace LoadGen

open Program History

theorem sample?_of_quiet {x : Exchange} (quiet : x.request.Quiet) : x.sample? = none := by
  obtain ⟨t, request, reply⟩ := x
  cases request with
  | call c => rfl
  | emit e => cases e <;> first | rfl | simp [Event.isQuiet] at quiet

/-- Handlers are called only while there are cycles left to count. -/
def CallsWithin (b : CycleBounds) (simultaneous : Bool) (x : Exchange) (older : History) : Prop :=
  ∀ background operation intended, x.event? = some (.called background operation intended) →
    counted simultaneous older < b.endRampDown

theorem callsWithin_of_quiet {b : CycleBounds} {simultaneous : Bool} {x : Exchange} {h : History}
    (quiet : x.request.Quiet) : CallsWithin b simultaneous x h := by
  intro background operation intended called
  obtain ⟨t, request, reply⟩ := x
  cases request with
  | call c => simp at called
  | emit e =>
    obtain rfl : e = .called background operation intended := by simpa using called
    simp [Event.isQuiet] at quiet

theorem callsWithin_of_call {b : CycleBounds} {simultaneous : Bool} {t : Stamp} {c : Call}
    {reply : (Request.call c).Reply} {h : History} :
    CallsWithin b simultaneous ⟨t, .call c, reply⟩ h := by
  intro background operation intended called
  cases called

theorem callsWithin_of_reported {b : CycleBounds} {simultaneous : Bool} {x : Exchange} {h : History}
    {s : Sample} (reported : x.sample? = some s) : CallsWithin b simultaneous x h := by
  intro background operation intended called
  simp [Exchange.sample?, called, Event.sample?] at reported

/-- The user counts its cycles, and its reports agree with its count. -/
def CyclesTallied {σ : Type} (b : CycleBounds) (simultaneous : Bool) (u : VirtualUser σ)
    (h : History) : Prop :=
  ∃ q, u.policy = .cycles q ∧ CycleTally b simultaneous q h

/-- The user has not begun to count, and has not reported anything. -/
def CyclesFresh {σ : Type} (b : CycleBounds) (simultaneous : Bool) (u : VirtualUser σ)
    (h : History) : Prop :=
  u.policy = .cycles ⟨b, simultaneous, false, 0, none⟩ ∧ reports h = []

/-- What holds of a user that counts its cycles whenever it is between two programs. -/
def CycleStage {σ : Type} (b : CycleBounds) (simultaneous : Bool) : Stage σ → History → Prop
  | .ready u, h => CyclesFresh b simultaneous u h
  | .iterating u _, h => CyclesTallied b simultaneous u h
  | .ended u _, h => CyclesTallied b simultaneous u h ∨ CyclesFresh b simultaneous u h
  | .finished _, _ => True
  | _, _ => False

section Programs

variable {σ : Type} {b : CycleBounds} {simultaneous : Bool} {q : CyclePolicy} {h : History}
  {u : VirtualUser σ} {env : Exchange → History → Prop}

theorem tallied_of_quiet {α : Type} {p : Program α} {result : α → Prop}
    (only : p.Only Request.Quiet result) (tally : CycleTally b simultaneous q h) :
    p.Ensures env (CallsWithin b simultaneous)
      (fun a h => result a ∧ CycleTally b simultaneous q h) h :=
  only.ensures (fun _ _ quiet _ tally =>
    ⟨callsWithin_of_quiet quiet, tally.quiet (sample?_of_quiet quiet)⟩) tally

theorem tallied_of_only {α : Type} {p : Program α} {result : α → Prop}
    (only : p.Only Request.Idle result) (tally : CycleTally b simultaneous q h) :
    p.Ensures env (CallsWithin b simultaneous)
      (fun a h => result a ∧ CycleTally b simultaneous q h) h :=
  tallied_of_quiet (only.weaken fun _ => Request.Idle.quiet) tally

/-- Classifying an invocation leaves a count that includes it as soon as it is reported. -/
theorem classify_tallies {r : Timing} {invoke : Stamp} (tally : CycleTally b simultaneous q h)
    (ascending : b.Ascending) (room : q.completed < b.endRampDown)
    (begun : r.invoke = some invoke) :
    (Policy.classify r (.cycles q)).Ensures env (CallsWithin b simultaneous)
      (fun result h => ∃ q', result.1 = .cycles q' ∧
        ∀ x s, x.sample? = some s → s.invoke = invoke → s.phase = result.2 →
          CycleTally b simultaneous q' (x :: h)) h := by
  unfold Policy.classify
  cases started : q.started with
  | true =>
    simp only [CyclePolicy.classify, CyclePolicy.count, started, ↓reduceIte, ensures_pure]
    refine ⟨_, rfl, fun x s reported _ phase => ?_⟩
    have numbered : s.phase = b.phaseOf (q.completed + 1) := by rw [phase, tally.bounds]
    have next := tally.cycle ascending reported (Or.inl started) room numbered
    simpa [started] using next
  | false =>
    simp only [started, Bool.false_eq_true, ↓reduceIte, ensures_bind, ensures_pure,
      ensures_startTime]
    intro t start _
    -- This look at the start is the last one before the report, and decides whether it is in time.
    have polled := tally.quiet (x := ⟨t, .call .startTime, start⟩) rfl
    refine ⟨callsWithin_of_call, ?_⟩
    unfold CyclePolicy.classify
    simp only [started, begun, Bool.false_eq_true, ↓reduceIte]
    cases start with
    | none =>
      refine ⟨q, rfl, fun x s reported _ phase => ?_⟩
      exact polled.warmUp reported started rfl phase
    | some start =>
      dsimp only
      split
      next after =>
        refine ⟨_, rfl, fun x s reported same phase => ?_⟩
        have inTime : Report.inTime ⟨some start, s⟩ := by simpa [Report.inTime, same] using after
        have numbered : s.phase = b.phaseOf (q.completed + 1) := by
          rw [phase, ← tally.bounds]
          rfl
        exact polled.cycle ascending reported (Or.inr inTime) room numbered
      next before =>
        refine ⟨q, rfl, fun x s reported same phase => ?_⟩
        have late : Report.inTime ⟨some start, s⟩ = false := by
          simpa [Report.inTime, same] using before
        exact polled.warmUp reported started late phase

theorem emitDelay_tallies {pending : Pending} {phase : Phase} {r : Timing}
    (tally : CycleTally b simultaneous q h) :
    (VirtualUser.emitDelay pending phase r).Ensures env (CallsWithin b simultaneous)
      (fun _ h => CycleTally b simultaneous q h) h := by
  have quiet := (VirtualUser.emitDelay_only pending phase r).weaken fun _ => Request.Delays.quiet
  exact (tallied_of_quiet quiet tally).mono fun _ _ => And.right

theorem ends_tallied {p : Program (Stage σ)} {error : Option RunError}
    (only : p.Only Request.Idle (· = .ended u error)) (policy : u.policy = .cycles q)
    (tally : CycleTally b simultaneous q h) :
    p.Ensures env (CallsWithin b simultaneous) (CycleStage b simultaneous) h := by
  refine (tallied_of_only only tally).mono ?_
  intro stage h ends
  obtain ⟨rfl, tally⟩ := ends
  exact Or.inl ⟨q, policy, tally⟩

theorem proceed_tallies {slots : Slots} {slot : Slot} (policy : u.policy = .cycles q)
    (tally : CycleTally b simultaneous q h) :
    (u.proceed slots slot).Ensures env (CallsWithin b simultaneous)
      (CycleStage b simultaneous) h := by
  simp only [VirtualUser.proceed, policy, Policy.stopAfter, Bool.false_eq_true, ↓reduceIte,
    ensures_pure]
  exact ⟨q, policy, tally⟩

theorem accountSuccess_tallies {slots : Slots} {slot : Slot} {pending : Pending} {name : String}
    (policy : u.policy = .cycles q) (tally : CycleTally b simultaneous q h)
    (ascending : b.Ascending) (room : q.completed < b.endRampDown) :
    (u.accountSuccess slots slot pending name).Ensures env (CallsWithin b simultaneous)
      (CycleStage b simultaneous) h := by
  unfold VirtualUser.accountSuccess
  cases completed : u.timing.complete with
  | mk record fault =>
    cases fault with
    | some fault => exact ends_tallied (VirtualUser.fail_only _ _ _ _) policy tally
    | none =>
      obtain ⟨invoke, respond, -, -, hi, hr, -⟩ := Timing.complete_sound completed
      have same : (u.withTiming record).policy = .cycles q := policy
      simp only [ensures_bind, ensures_emit, same]
      intro t _
      refine ⟨callsWithin_of_quiet rfl, ?_⟩
      refine (classify_tallies (tally.quiet rfl) ascending room hi).mono ?_
      intro result h classified t _
      obtain ⟨policy, phase⟩ := result
      obtain ⟨q', rfl, counted⟩ := classified
      obtain ⟨inPhase, begun, -⟩ := Sample.ofTiming_of_both pending.operation phase hi hr
      have tally := counted ⟨t, .emit (.transaction _), ()⟩ _ rfl begun inPhase
      refine ⟨callsWithin_of_reported rfl, ?_⟩
      exact (emitDelay_tallies tally).mono fun _ _ after => proceed_tallies rfl after

theorem reportFailure_tallies {slots : Slots} {slot : Slot} {pending : Pending}
    {cause : ErrorChain} {repair : Timing.Repair} {invoke respond : Stamp}
    (policy : u.policy = .cycles q) (tally : CycleTally b simultaneous q h)
    (ascending : b.Ascending) (room : q.completed < b.endRampDown) (kept : repair.skip = false)
    (hi : u.timing.invoke = some invoke) (hr : u.timing.respond = some respond) :
    (u.reportFailure slots slot pending cause repair).Ensures env (CallsWithin b simultaneous)
      (CycleStage b simultaneous) h := by
  unfold VirtualUser.reportFailure
  simp only [kept, Bool.false_eq_true, ↓reduceIte, ensures_bind, ensures_emit, policy]
  refine (classify_tallies tally ascending room hi).mono ?_
  intro result h classified t _
  obtain ⟨policy, phase⟩ := result
  obtain ⟨q', rfl, counted⟩ := classified
  obtain ⟨inPhase, begun, -⟩ := Sample.ofTiming_of_both pending.operation phase hi hr
  have tally := counted ⟨t, .emit (.error _), ()⟩ _ rfl begun inPhase
  refine ⟨callsWithin_of_reported rfl, fun t _ => ⟨callsWithin_of_quiet rfl, ?_⟩⟩
  have tally := tally.quiet (x := ⟨t, .emit (.failed pending.operation phase cause), ()⟩) rfl
  split
  next =>
    rw [ensures_bind]
    exact (emitDelay_tallies tally).mono fun _ _ after => proceed_tallies rfl after
  next => exact proceed_tallies rfl tally

theorem accountFailure_tallies {slots : Slots} {slot : Slot} {pending : Pending} {name : String}
    {cause : ErrorChain} (policy : u.policy = .cycles q) (tally : CycleTally b simultaneous q h)
    (ascending : b.Ascending) (room : q.completed < b.endRampDown) :
    (u.accountFailure slots slot pending name cause).Ensures env (CallsWithin b simultaneous)
      (CycleStage b simultaneous) h := by
  unfold VirtualUser.accountFailure
  cases cause.stopsRun with
  | true => exact ends_tallied (VirtualUser.fail_only _ _ _ _) policy tally
  | false =>
    simp only [Bool.false_eq_true, ↓reduceIte, ensures_bind, ensures_clock]
    intro t now _
    have tally := tally.quiet (x := ⟨t, .call .clock, now⟩) rfl
    refine ⟨callsWithin_of_call, ?_⟩
    -- A failure before its time is not skipped here.
    have kept : (u.timing.repair now u.policy.earlyFailure
        (slot.previousStart, slot.previousEnd)).2.skip = false := by
      rw [Bool.eq_false_iff, ne_eq, Timing.repair_skip_iff, policy]
      simp [Policy.earlyFailure]
    obtain ⟨invoke, respond, hi, hr, -⟩ := Timing.repair_sound kept
    split
    next =>
      simp only [ensures_bind, ensures_emit]
      intro t _
      exact ⟨callsWithin_of_quiet rfl,
        reportFailure_tallies policy (tally.quiet rfl) ascending room kept hi hr⟩
    next => exact reportFailure_tallies policy tally ascending room kept hi hr

theorem account_tallies {slots : Slots} {slot : Slot} {pending : Pending} {operation : Operation}
    {ending : Ending} (policy : u.policy = .cycles q) (tally : CycleTally b simultaneous q h)
    (ascending : b.Ascending) (room : q.completed < b.endRampDown) :
    (u.account slots slot pending operation ending).Ensures env (CallsWithin b simultaneous)
      (CycleStage b simultaneous) h := by
  unfold VirtualUser.account
  cases ending with
  | panicked =>
    exact ends_tallied (VirtualUser.failBinding_only _ _ _ (by simp [Event.isIdle])) policy tally
  | failed cause =>
    simp only [ensures_bind, ensures_emit, ensures_isAborted]
    refine fun t _ => ⟨callsWithin_of_quiet rfl, fun t' aborted _ =>
      ⟨callsWithin_of_call, ?_⟩⟩
    have tally := (tally.quiet (x := ⟨t, .emit (.returned pending.operation u.timing), ()⟩)
      rfl).quiet (x := ⟨t', .call .isAborted, aborted⟩) rfl
    cases aborted with
    | true => exact ends_tallied (VirtualUser.finish_only _ _) policy tally
    | false => exact accountFailure_tallies policy tally ascending room
  | succeeded =>
    simp only [ensures_bind, ensures_emit, ensures_isAborted]
    refine fun t _ => ⟨callsWithin_of_quiet rfl, ?_⟩
    have tally := tally.quiet (x := ⟨t, .emit (.returned pending.operation u.timing), ()⟩) rfl
    refine (tallied_of_only (u.captureRespond_only operation) tally).mono ?_
    intro v h responded t aborted _
    obtain ⟨same, tally⟩ := responded
    have policy := same.trans policy
    have tally := tally.quiet (x := ⟨t, .call .isAborted, aborted⟩) rfl
    refine ⟨callsWithin_of_call, ?_⟩
    cases aborted with
    | true => exact ends_tallied (VirtualUser.finish_only _ _) policy tally
    | false => exact accountSuccess_tallies policy tally ascending room

theorem callHandler_tallies {slots : Slots} {slot : Slot} {pending : Pending}
    {operation : Operation} {handler : Handler σ} (policy : u.policy = .cycles q)
    (tally : CycleTally b simultaneous q h) (ascending : b.Ascending)
    (room : q.completed < b.endRampDown) :
    (u.callHandler slots slot pending operation handler).Ensures env (CallsWithin b simultaneous)
      (CycleStage b simultaneous) h := by
  unfold VirtualUser.callHandler
  simp only [ensures_bind, ensures_emit]
  intro t _
  refine ⟨fun _ _ _ _ => by rwa [tally.counted_eq], ?_⟩
  refine (tallied_of_only (Behaviour.run_only _ _) (tally.quiet rfl)).mono ?_
  intro result h ran
  exact account_tallies policy ran.2 ascending room

theorem invoke_tallies {w : Workload σ} {slots : Slots} {slot : Slot} {pending : Pending}
    (policy : u.policy = .cycles q) (tally : CycleTally b simultaneous q h)
    (ascending : b.Ascending) (room : q.completed < b.endRampDown) :
    (u.invoke w slots slot pending).Ensures env (CallsWithin b simultaneous)
      (CycleStage b simultaneous) h := by
  unfold VirtualUser.invoke
  simp only [policy, Policy.stopBefore, Bool.false_eq_true, ↓reduceIte]
  split
  next operation handler _ _ =>
    simp only [ensures_bind, ensures_emit]
    refine fun t _ => ⟨callsWithin_of_quiet rfl, ?_⟩
    refine (tallied_of_only (VirtualUser.awaitInvocation_only _ operation pending)
      (tally.quiet rfl)).mono ?_
    intro result h awaited
    obtain ⟨v, wait⟩ := result
    obtain ⟨same, tally⟩ := awaited
    have policy : v.policy = .cycles q := same
    cases wait with
    | cancelled => exact ends_tallied (VirtualUser.finish_only _ _) policy tally
    | reached => exact callHandler_tallies policy tally ascending room
  next =>
    exact ends_tallied (VirtualUser.failBinding_only _ _ _ (by simp)) policy tally

theorem advance_tallies {w : Workload σ} {slots : Slots} (policy : u.policy = .cycles q)
    (tally : CycleTally b simultaneous q h) (ascending : b.Ascending)
    (room : q.completed < b.endRampDown) :
    (u.advance w slots).Ensures env (CallsWithin b simultaneous) (CycleStage b simultaneous) h := by
  unfold VirtualUser.advance
  simp only [ensures_bind]
  have planned := (VirtualUser.plan_only slots w u.random).weaken fun _ => Request.Plans.quiet
  refine (tallied_of_quiet planned tally).mono ?_
  intro _ h emitted
  have tally := emitted.2
  split
  next => exact ends_tallied (VirtualUser.finish_only _ _) policy tally
  next => exact invoke_tallies policy tally ascending room

/-- An iteration keeps the count, and takes place only if there is a cycle left. -/
theorem iterate_tallies {w : Workload σ} {load : Option LoadSchedule} {slots : Slots}
    (policy : u.policy = .cycles q) (tally : CycleTally b simultaneous q h)
    (ascending : b.Ascending) (total : 1 ≤ b.endRampDown) :
    (u.iterate w load slots).Ensures env (CallsWithin b simultaneous)
      (CycleStage b simultaneous) h := by
  unfold VirtualUser.iterate
  simp only [ensures_bind, ensures_isAborted]
  refine fun t aborted _ => ⟨callsWithin_of_call, ?_⟩
  have tally := tally.quiet (x := ⟨t, .call .isAborted, aborted⟩) rfl
  cases aborted with
  | true => exact ends_tallied (VirtualUser.finish_only _ _) policy tally
  | false =>
    simp only [policy, Policy.gate, Bool.false_eq_true, ↓reduceIte, ensures_bind, ensures_pure]
    by_cases full : q.started ∧ q.bounds.endRampDown ≤ q.completed
    · have stops : q.gate = .stop := if_pos full
      rw [stops]
      exact ends_tallied (VirtualUser.finish_only _ _) rfl tally
    · have goesOn : q.gate = .proceed := if_neg full
      have room : q.completed < b.endRampDown := by
        cases started : q.started with
        | false =>
          obtain ⟨none, -⟩ := tally.late started
          omega
        | true =>
          rw [← tally.bounds]
          exact Nat.lt_of_not_le fun le => full ⟨started, le⟩
      rw [goesOn]
      exact advance_tallies rfl tally ascending room

theorem enter_tallies {w : Workload σ} (policy : u.policy = .cycles q)
    (tally : CycleTally b simultaneous q h) :
    (u.enter w).Ensures env (CallsWithin b simultaneous) (CycleStage b simultaneous) h := by
  unfold VirtualUser.enter
  simp only [ensures_bind, ensures_clock, ensures_emit, ensures_pure]
  intro t now _
  refine ⟨callsWithin_of_call, fun t _ => ⟨callsWithin_of_quiet rfl, ?_⟩⟩
  exact ⟨q, policy, (tally.quiet rfl).quiet rfl⟩

theorem start_tallies {w : Workload σ} (fresh : CyclesFresh b simultaneous u h) :
    (u.start w).Ensures env (CallsWithin b simultaneous) (CycleStage b simultaneous) h := by
  obtain ⟨policy, unreported⟩ := fresh
  unfold VirtualUser.start
  simp only [ensures_bind, ensures_enrol, policy]
  refine fun t _ => ⟨callsWithin_of_call, ?_⟩
  cases simultaneous with
  | false =>
    simp only [Policy.prepare, Bool.false_eq_true, ↓reduceIte, ensures_pure]
    have enrolled : reports (⟨t, .call .enrol, ()⟩ :: h) = [] := unreported
    exact enter_tallies rfl (.fresh enrolled none)
  | true =>
    simp only [Policy.prepare, ↓reduceIte, ensures_bind, ensures_awaitStart, ensures_pure]
    intro t' start _
    refine ⟨callsWithin_of_call, ?_⟩
    have told : reports (⟨t', .call .awaitStart, start⟩ :: ⟨t, .call .enrol, ()⟩ :: h) = [] :=
      unreported
    cases start with
    | none => exact Or.inr ⟨policy, told⟩
    | some start => exact enter_tallies rfl (.fresh told (some start))

theorem follow_tallies {p : RunPlan σ} {stage : Stage σ} {next : Program (Stage σ)}
    (ascending : b.Ascending) (total : 1 ≤ b.endRampDown) (inv : CycleStage b simultaneous stage h)
    (follows : p.follow stage = some next) :
    next.Ensures env (CallsWithin b simultaneous) (CycleStage b simultaneous) h := by
  cases stage with
  | ready u =>
    cases follows
    exact start_tallies inv
  | iterating u slots =>
    cases follows
    obtain ⟨q, policy, tally⟩ := inv
    exact iterate_tallies policy tally ascending total
  | ended u error =>
    cases follows
    have quiet := (p.conclude_only u error).weaken fun _ => Request.Idle.quiet
    refine (quiet.ensures_of_safe fun _ _ => callsWithin_of_quiet).mono ?_
    intro stage h ends
    obtain ⟨result, rfl⟩ := ends
    trivial
  | finished result => cases follows
  | starting id => exact inv.elim
  | conducting => exact inv.elim
  | conducted now => exact inv.elim

end Programs

/-- The virtual user that a thread shows while it iterates and after its loop. -/
def Stage.looping? {σ : Type} : Stage σ → Option (VirtualUser σ)
  | .iterating u _ | .ended u _ => some u
  | _ => none

/-- The thread has left its loop because its gate has stopped it. -/
def StopsAtGate {σ : Type} (p : RunPlan σ) (first : Stage σ) (u : VirtualUser σ) (h : History) :
    Prop :=
  ∃ slots q t t' older, Course p.follow (.done first) (.done (.iterating u slots)) older ∧
    u.policy = .cycles q ∧ q.gate = .stop ∧
    h = ⟨t', .emit .runEnded, ()⟩ :: ⟨t, .call .isAborted, false⟩ :: older

section Threads

variable {σ : Type} {p : RunPlan σ} {u : VirtualUser σ} {b : CycleBounds} {simultaneous : Bool}
  {q : CyclePolicy} {h : History}

theorem course_tallies {rest : Program (Stage σ)} (fresh : CyclesFresh b simultaneous u [])
    (ascending : b.Ascending) (total : 1 ≤ b.endRampDown)
    (course : Course p.follow (.done (.ready u)) rest h) :
    h.Each (CallsWithin b simultaneous) ∧
      rest.Ensures (fun _ _ => True) (CallsWithin b simultaneous)
        (CycleStage b simultaneous) h := by
  have begins : (Program.done (Stage.ready u)).Ensures (fun _ _ => True)
    (CallsWithin b simultaneous) (CycleStage b simultaneous) [] := fresh
  refine Course.ensures begins ?_ course (each_of_mem fun _ _ => trivial)
  exact fun stage next h inv follows => follow_tallies ascending total inv follows

theorem course_of_stop {first : Program (Stage σ)} {slots : Slots}
    (course : Course p.follow first (.done (.iterating u slots)) h) (policy : u.policy = .cycles q)
    (stops : q.gate = .stop) (t t' : Stamp) :
    Course p.follow first (.done (.ended u none))
      (⟨t', .emit .runEnded, ()⟩ :: ⟨t, .call .isAborted, false⟩ :: h) := by
  have same : { u with policy := .cycles q } = u := by rw [← policy]
  have next : p.follow (.iterating u slots) = some (do
      let aborted ← isAborted
      if aborted then u.finish none else u.finish none) := by
    simp only [RunPlan.follow, VirtualUser.iterate, policy, Policy.gate, stops, pure_bind, same,
      VirtualUser.obey]
  have asked : Course p.follow first (u.finish none) (⟨t, .call .isAborted, false⟩ :: h) :=
    .answer t (show (Request.call .isAborted).Reply from false) (course.follow next)
  exact .answer t' _ asked

theorem no_call_of_full {later : History} (within : (later ++ h).Each (CallsWithin b simultaneous))
    (full : b.endRampDown ≤ counted simultaneous h) :
    ∀ x ∈ later, ∀ background operation intended,
      x.event? ≠ some (.called background operation intended) := by
  intro x mem background operation intended called
  obtain ⟨after, before, rfl⟩ := List.append_of_mem mem
  have part : x :: (before ++ h) <:+ (after ++ x :: before) ++ h := ⟨after, by simp⟩
  have room := each_iff_suffix.mp within x (before ++ h) part background operation intended called
  have grown := counted_le_append (h := h) simultaneous before
  omega

/-- A thread that counts its cycles counts every sample from the first one on that is in time. Its
count never exceeds the total, no handler is called once it has reached it, and a thread that stops
at its gate has reported for each phase exactly the samples of its length and the warm-ups. -/
theorem cycles_accounted (p : RunPlan σ) (u : VirtualUser σ)
    {rampUp steadyState rampDown : Nat} {simultaneous : Bool} {b : CycleBounds}
    (bounds : b = CycleBounds.ofLengths rampUp steadyState rampDown)
    (policy : u.policy = .cycles (.ofLengths rampUp steadyState rampDown simultaneous))
    (word : rampUp ≤ Word.greatest) (total : 1 ≤ b.endRampDown) :
    (∀ stage h v, Course p.follow (.done (.ready u)) (.done stage) h → stage.looping? = some v →
      ∃ q, v.policy = .cycles q ∧ q.completed = counted simultaneous h ∧
        q.completed ≤ b.endRampDown ∧ b.endRampDown ≤ Word.greatest) ∧
    (∀ rest later h, Course p.follow (.done (.ready u)) rest (later ++ h) →
      b.endRampDown ≤ counted simultaneous h → ∀ x ∈ later, ∀ background operation intended,
        x.event? ≠ some (.called background operation intended)) ∧
    (∀ v h, StopsAtGate p (.ready u) v h →
      Course p.follow (.done (.ready u)) (.done (.ended v none)) h ∧
        CyclesComplete b simultaneous h) := by
  have ascending : b.Ascending := bounds ▸ CycleBounds.ofLengths_ascending word steadyState rampDown
  have fresh : CyclesFresh b simultaneous u [] := ⟨by rw [policy, bounds]; rfl, rfl⟩
  refine ⟨fun stage h v course shown => ?_, fun rest later h course full => ?_,
    fun v h stopped => ?_⟩
  · obtain ⟨-, inv⟩ := course_tallies fresh ascending total course
    have tallied : CyclesTallied b simultaneous v h ∨ CyclesFresh b simultaneous v h := by
      cases stage <;> cases shown
      · exact Or.inl inv
      · exact inv
    rcases tallied with ⟨q, shows, tally⟩ | ⟨shows, unreported⟩
    · exact ⟨q, shows, tally.counted_eq.symm, tally.within, ascending.word⟩
    · exact ⟨_, shows, by simp [counted, unreported], Nat.zero_le _, ascending.word⟩
  · exact no_call_of_full (course_tallies fresh ascending total course).1 full
  · obtain ⟨slots, q, t, t', older, course, shows, stops, rfl⟩ := stopped
    obtain ⟨-, q', same, tally⟩ := course_tallies fresh ascending total course
    obtain rfl : q = q' := by simpa [shows] using same
    have tally := (tally.quiet (x := ⟨t, .call .isAborted, false⟩) rfl).quiet
      (x := ⟨t', .emit .runEnded, ()⟩) rfl
    exact ⟨course_of_stop course shows stops t t', tally.complete ascending stops⟩

end Threads

/-- Whether the thread is about to iterate with the given policy. -/
def Stage.iteratesWith {σ : Type} (policy : Policy) : Stage σ → Bool
  | .iterating u _ => decide (u.policy = policy)
  | _ => false

theorem Stage.exists_of_iteratesWith {σ : Type} {stage : Stage σ} {policy : Policy}
    (iterates : stage.iteratesWith policy = true) :
    ∃ u slots, stage = .iterating u slots ∧ u.policy = policy := by
  cases stage with
  | iterating u slots => exact ⟨u, slots, rfl, of_decide_eq_true iterates⟩
  | _ => cases iterates

/-- A plan of one cycle in each phase, with an operation that succeeds at once. -/
def RunPlan.oneCycleEach : RunPlan Unit :=
  { workload := .single (fun _ => .created ())
      ⟨"", [], 0, .automatic, true, .fixed Span.zero⟩ fun _ => .succeeds ()
    control := .ofMode (.cycles 1 1 1)
    seed := 0 }

theorem cycles_accounted_oneCycleEach :
    let p := RunPlan.oneCycleEach
    let first := Stage.ready (p.user 0 ())
    ∃ v h, StopsAtGate p first v h ∧ CyclesComplete ⟨1, 2, 3⟩ false h ∧
      (reports h).length = 3 := by
  intro p first
  have passed : Course.reached (fun stage h => stage.iteratesWith
      (.cycles ⟨⟨1, 2, 3⟩, false, true, 3, none⟩) && (reports h).length == 3)
      (Course.play p.follow undisturbed 43 (.done first) []) = true := by decide +kernel
  obtain ⟨stage, older, course, passed⟩ := Course.exists_of_reached passed
  obtain ⟨iterates, length⟩ := (Bool.and_eq_true _ _).mp passed
  obtain ⟨v, slots, rfl, shows⟩ := Stage.exists_of_iteratesWith iterates
  have stops : StopsAtGate p first v
      (⟨0, .emit .runEnded, ()⟩ :: ⟨0, .call .isAborted, false⟩ :: older) :=
    ⟨slots, _, 0, 0, older, course, shows, rfl, rfl⟩
  have bounds : (⟨1, 2, 3⟩ : CycleBounds) = .ofLengths 1 1 1 := by decide
  have accounted := cycles_accounted p (p.user 0 ()) bounds rfl (by decide) (by decide)
  exact ⟨v, _, stops, (accounted.2.2 v _ stops).2, eq_of_beq length⟩

end LoadGen
