import LoadGen.Proofs.PhaseOrder

namespace LoadGen

open Program History

namespace TimePolicy

variable {q : TimePolicy} {r final : Timing} {invoke respond : Stamp}

theorem phaseAt_steady_iff : q.phaseAt invoke respond = .steadyState ↔
    ∃ b, q.bounds = some b ∧ b.endRampUp ≤ invoke ∧ respond < b.endSteadyState := by
  unfold phaseAt
  cases q.bounds with
  | none => simp
  | some b =>
    by_cases steady : b.endRampUp ≤ invoke ∧ respond < b.endSteadyState
    · simp [TimeBounds.phaseOf, TimeBounds.isSteady, steady]
    · have other : b.phaseOf invoke respond ≠ .steadyState := by
        unfold TimeBounds.phaseOf TimeBounds.isSteady
        rw [decide_eq_false steady, if_neg Bool.false_ne_true]
        split <;> decide
      simp [other, steady]

/-- The question is answered with the phase of an invocation that ends with what has come of its
response, or at once. -/
theorem view_isSteady (begun : r.invoke = some invoke) : q.view.isSteady? r =
    some (decide (q.phaseAt invoke (r.answered.getD invoke) = .steadyState)) := by
  have answer : q.view.isSteady? r =
      some (q.bounds.any fun b => b.isSteady invoke (r.answered.getD invoke)) := by
    unfold view PhaseView.isSteady?
    cases q.bounds <;> simp [begun, Timing.answered]
  rw [answer, Option.some.injEq, Bool.eq_iff_iff, decide_eq_true_iff, phaseAt_steady_iff]
  simp [TimeBounds.isSteady, Option.any_eq_true]

/-- A record that says no more of the response than the final one is in the steady state with it. -/
theorem isSteady_of_classify (begun : r.invoke = some invoke) (same : final.invoke = some invoke)
    (ended : final.respond = some respond) (upTo : r.answered.getD invoke ≤ respond)
    (steady : q.classify final = .steadyState) : q.view.isSteady? r = some true := by
  rw [classify_of_both same ended] at steady
  obtain ⟨b, set, after, before⟩ := phaseAt_steady_iff.mp steady
  rw [view_isSteady begun, decide_eq_true]
  exact phaseAt_steady_iff.mpr ⟨b, set, after, lt_of_le_of_lt upTo before⟩

theorem isSteady_of_respond (begun : r.invoke = some invoke) (responded : r.respond = some respond)
    (same : final.invoke = some invoke) (ended : final.respond = some respond) :
    q.view.isSteady? r = some (decide (q.classify final = .steadyState)) := by
  rw [view_isSteady begun, classify_of_both same ended, Timing.answered_of_some responded,
    Option.getD_some]

end TimePolicy

/-- A question whether an invocation is in the steady state: its record at that time, and what is
answered. -/
structure Question where
  record : Timing
  answer : Option Bool

/-- If the question was about the invocation that the sample reports, and it is reported in the
steady state, then this was the answer. If the response was known, the answer was the final one. -/
structure Question.Fits (s : Sample) (question : Question) : Prop where
  steady : question.record.invoke = some s.invoke → s.phase = .steadyState →
    question.answer = some true
  ended : question.record.invoke = some s.invoke → question.record.respond = some s.respond →
    question.answer = some (decide (s.phase = .steadyState))

/-- The same course of a handler, which also takes down what it asks about the steady state. -/
def Behaviour.noting {σ : Type} (asked : List Question) :
    Behaviour σ → Behaviour (σ × List Question)
  | succeeds state => succeeds (state, asked)
  | fails state cause => fails (state, asked) cause
  | panics state => panics (state, asked)
  | calls .isSteady next =>
    calls .timing fun r => calls .isSteady fun answer => (next answer).noting (⟨r, answer⟩ :: asked)
  | calls call next => calls call fun answer => (next answer).noting asked

namespace VirtualUser

/-- The invocation of an operation until its handler comes back, with what the handler has asked
about the steady state. No handler is called if the wait for the invocation is cancelled. -/
def serve {σ : Type} (u : VirtualUser σ) (slot : Slot) (pending : Pending) (operation : Operation)
    (handler : Handler σ) : Program (VirtualUser σ × Option (Ending × List Question)) := do
  Program.emit (.invoking pending.operation pending.intended)
  let u := { u with
    context := u.context.begin pending.operation operation.mode pending.intended u.policy.view }
  let (u, wait) ← u.awaitInvocation operation pending
  match wait with
  | .cancelled => pure (u, none)
  | .reached => do
    Program.emit (.called slot.background pending.operation pending.intended)
    let (context, (state, asked), ending) ← ((handler u.state).noting []).run u.context
    pure ({ u with context := context, state := state }, some (ending, asked))

end VirtualUser

section Invocations

variable {σ : Type} {q : TimePolicy} {asked : List Question} {c : Context} {u : VirtualUser σ}
  {h : History}

/-- Taking down the questions changes nothing in what the handler does. -/
theorem Behaviour.run_noting (b : Behaviour σ) (asked : List Question) (c : Context) :
    (do
      let (context, (state, _), ending) ← (b.noting asked).run c
      pure (context, state, ending)) = b.run c := by
  induction b generalizing asked c with
  | calls call next ih =>
    cases call with
    | isSteady => exact ih _ _ _
    | _ =>
      unfold noting run
      rw [bind_assoc]
      exact bind_congr fun result => ih result.2 asked result.1
  | _ => rfl

/-- An invocation consists of the service of its handler and of the account that is given of it. -/
theorem VirtualUser.invoke_eq_serve {w : Workload σ} {slots : Slots} {slot : Slot}
    {pending : Pending} {operation : Operation} {handler : Handler σ}
    (due : u.policy.stopBefore pending.intended = false)
    (known : w.operations[pending.operation]? = some operation)
    (bound : w.handlers[pending.operation]? = some handler) :
    u.invoke w slots slot pending = (do
      let (v, served) ← u.serve slot pending operation handler
      match served with
      | none => v.finish none
      | some (ending, _) => v.account slots slot pending operation ending) := by
  unfold invoke serve
  simp only [due, known, bound, Bool.false_eq_true, ↓reduceIte, bind_assoc]
  refine bind_congr fun _ => bind_congr fun result => ?_
  obtain ⟨v, wait⟩ := result
  cases wait with
  | cancelled => rfl
  | reached =>
    simp only [callHandler, ← (handler v.state).run_noting [] v.context, bind_assoc, pure_bind]

/-- What is known while a handler asks: the answers are those of the policy, and a response that was
known at a question is not later than the one that is known now. -/
structure Inquired (q : TimePolicy) (asked : List Question) (r : Timing) (h : History) : Prop where
  passed : r.Each (Reached h)
  answers : ∀ question ∈ asked, question.answer = q.view.isSteady? question.record
  earlier : ∀ question ∈ asked, ∀ t, question.record.answered = some t →
    ∃ latest, r.answered = some latest ∧ t ≤ latest

namespace Inquired

variable {r final : Timing} {invoke respond : Stamp}

theorem unasked (passed : r.Each (Reached h)) : Inquired q [] r h :=
  ⟨passed, by simp, by simp⟩

theorem cons {x : Exchange} (inquired : Inquired q asked r h) : Inquired q asked r (x :: h) :=
  ⟨inquired.passed.mono fun _ => Reached.cons, inquired.answers, inquired.earlier⟩

theorem ask (inquired : Inquired q asked r h) :
    Inquired q (⟨r, q.view.isSteady? r⟩ :: asked) r h where
  passed := inquired.passed
  answers question mem := by
    rcases List.mem_cons.mp mem with rfl | mem
    · rfl
    · exact inquired.answers question mem
  earlier question mem t answered := by
    rcases List.mem_cons.mp mem with rfl | mem
    · exact ⟨t, answered, le_rfl⟩
    · exact inquired.earlier question mem t answered

/-- A reading of the clock is not earlier than a response that has been known before. -/
theorem not_after {x : Exchange} {now t : Stamp} (inquired : Inquired q asked r h)
    (timely : Timely x h) (read : x.reading? = some now) (answered : r.answered = some t) :
    t ≤ now :=
  (inquired.passed.answered answered).le timely read

theorem tracked : Timing.Tracked Punctual (Inquired q asked) := by
  have passes := Timing.kept_reached.tracked (fun punctual : Punctual _ _ => punctual)
  refine ⟨?_, ?_, ?_, ?_, ?_⟩
  · exact fun _ _ inquired => inquired.cons
  · intro r x h now punctual read due inquired
    exact ⟨passes.withInvoke punctual read due inquired.passed, inquired.answers,
      inquired.earlier⟩
  · intro r x h now punctual read inquired
    refine ⟨passes.withRespond punctual read inquired.passed, inquired.answers, ?_⟩
    intro question mem t answered
    obtain ⟨latest, known, le⟩ := inquired.earlier question mem t answered
    exact ⟨now, rfl, le.trans (inquired.not_after punctual.timely read known)⟩
  · intro r x h now punctual read inquired
    refine ⟨passes.withLastRespond punctual read inquired.passed, inquired.answers, ?_⟩
    intro question mem t answered
    obtain ⟨latest, known, le⟩ := inquired.earlier question mem t answered
    -- A response that has been captured hides the interim ones.
    cases responded : r.respond with
    | some respond =>
      rw [Timing.answered_of_some responded] at known
      cases known
      exact ⟨latest, Timing.answered_of_some responded, le⟩
    | none =>
      have earlier := inquired.not_after punctual.timely read known
      exact ⟨now, Timing.answered_of_none responded, le.trans earlier⟩
  · intro r h length inquired
    exact ⟨passes.addPause inquired.passed, inquired.answers, inquired.earlier⟩

/-- The answers fit the sample of a final record that ends no earlier than the last known
response. -/
theorem fits (inquired : Inquired q asked r h) (begun : final.invoke = some invoke)
    (ended : final.respond = some respond) (ordered : invoke ≤ respond)
    (upTo : ∀ t, r.answered = some t → t ≤ respond) (operation : Nat) :
    ∀ question ∈ asked, question.Fits (.ofTiming operation (q.classify final) final) := by
  intro question mem
  obtain ⟨phase, atInvoke, atRespond⟩ :=
    Sample.ofTiming_of_both operation (q.classify final) begun ended
  constructor
  · intro same steady
    rw [atInvoke] at same
    rw [phase] at steady
    rw [inquired.answers question mem]
    refine TimePolicy.isSteady_of_classify same begun ended ?_ steady
    cases answered : question.record.answered with
    | none => exact ordered
    | some t =>
      obtain ⟨latest, known, le⟩ := inquired.earlier question mem t answered
      exact le.trans (upTo latest known)
  · intro same responded
    rw [atInvoke] at same
    rw [atRespond] at responded
    rw [inquired.answers question mem, phase]
    exact TimePolicy.isSteady_of_respond same responded begun ended

theorem repaired_fits {x : Exchange} {now : Stamp} (inquired : Inquired q asked r h)
    (timely : Timely x h) (read : x.reading? = some now) (previous : Stamp × Stamp)
    (operation : Nat) : let repaired := r.repair now .skip previous
    repaired.2.skip = false → ∀ question ∈ asked,
      question.Fits (.ofTiming operation (q.classify repaired.1) repaired.1) := by
  intro repaired kept
  have passed : ∀ t, r.answered = some t → t ≤ now :=
    fun t known => inquired.not_after timely read known
  obtain ⟨invoke, respond, begun, ended, ordered, upTo⟩ :=
    Timing.repair_after_answered passed kept
  exact inquired.fits begun ended ordered upTo operation

end Inquired

theorem recordStart_view (c : Context) :
    c.recordStart.Only (fun _ => True) (·.1.view = c.view) := by
  unfold Context.recordStart
  cases c.mode with
  | automatic => simp
  | manual =>
    cases c.timing.intended with
    | none => simp
    | some intended =>
      simp only [only_bind, only_sleepUntil]
      refine ⟨trivial, fun wait => ?_⟩
      cases wait <;> simp

theorem recordEnd_view (c : Context) : c.recordEnd.Only (fun _ => True) (·.view = c.view) := by
  unfold Context.recordEnd
  cases c.mode <;> simp

theorem recordTime_view (c : Context) :
    c.recordTime.Only (fun _ => True) (·.1.view = c.view) := by
  unfold Context.recordTime
  split
  next =>
    rw [only_bind]
    exact recordEnd_view c
  next => exact recordStart_view c

/-- No call changes what the handler sees of the phases. -/
theorem perform_view (c : Context) (call : ContextCall) :
    (c.perform call).Only (fun _ => True) (·.1.view = c.view) := by
  cases call with
  | recordTime => exact recordTime_view c
  | recordStart => exact recordStart_view c
  | recordEnd => simpa [Context.perform] using recordEnd_view c
  | _ => simp [Context.perform, Context.recordLast]

/-- A handler that asks keeps what is known of its answers. -/
theorem run_noting_inquired {b : Behaviour σ} (view : c.view = q.view)
    (inquired : Inquired q asked c.timing h) :
    ((b.noting asked).run c).Ensures Punctual (fun _ _ => True)
      (fun result h => Inquired q result.2.1.2 result.1.timing h) h := by
  induction b generalizing asked c h with
  | calls call next ih =>
    have other : (c.perform call >>= fun result =>
        ((next result.2).noting asked).run result.1).Ensures Punctual (fun _ _ => True)
          (fun result h => Inquired q result.2.1.2 result.1.timing h) h := by
      have keeps := perform_keeps Inquired.tracked id inquired call
      have sees : (c.perform call).Ensures Punctual (fun _ _ => True)
          (fun result _ => result.1.view = c.view) h :=
        (perform_view c call).ensures_of_safe fun _ _ _ => trivial
      rw [ensures_bind]
      exact (keeps.and sees).mono fun result h kept => ih _ (kept.2.trans view) kept.1
    cases call with
    | isSteady =>
      have noted := inquired.ask
      rw [← view] at noted
      exact ih _ view noted
    | _ => exact other
  | _ => exact inquired

/-- All samples that are reported fit the answers. -/
def Answered (asked : List Question) (x : Exchange) (_ : History) : Prop :=
  ∀ s, x.sample? = some s → ∀ question ∈ asked, question.Fits s

theorem answered_of_silent {x : Exchange} (silent : x.request.Silent) : Answered asked x h := by
  intro s reported
  rw [sample?_of_silent silent] at reported
  cases reported

theorem idle_answered {α : Type} {p : Program α} {result : α → Prop}
    (only : p.Only Request.Idle result) :
    p.Ensures Punctual (Answered asked) (fun a _ => result a) h :=
  only.ensures_of_safe fun _ _ idle => answered_of_silent idle.plain.silent

theorem ends_answered {p : Program (Stage σ)} {result : Stage σ → Prop}
    (only : p.Only Request.Idle result) :
    p.Ensures Punctual (Answered asked) (fun _ _ => True) h :=
  (idle_answered only).mono fun _ _ _ => trivial

theorem proceed_answered (u : VirtualUser σ) (slots : Slots) (slot : Slot) :
    (u.proceed slots slot).Ensures Punctual (Answered asked) (fun _ _ => True) h := by
  unfold VirtualUser.proceed
  split
  next => exact ends_answered (u.finish_only none)
  next => trivial

theorem emitDelay_answered (pending : Pending) (phase : Phase) (r : Timing) :
    (VirtualUser.emitDelay pending phase r).Ensures Punctual (Answered asked)
      (fun _ _ => True) h := by
  refine (VirtualUser.emitDelay_only pending phase r).ensures_of_safe fun x h delays => ?_
  refine answered_of_silent ?_
  obtain ⟨sample, same⟩ := delays
  rw [same]
  trivial

theorem accountSuccess_answered {slots : Slots} {slot : Slot} {pending : Pending} {name : String}
    (policy : u.policy = .time q) (inquired : Inquired q asked u.timing h) :
    (u.accountSuccess slots slot pending name).Ensures Punctual (Answered asked)
      (fun _ _ => True) h := by
  unfold VirtualUser.accountSuccess
  cases completed : u.timing.complete with
  | mk record fault =>
    cases fault with
    | some fault => exact ends_answered (VirtualUser.fail_only _ _ _ _)
    | none =>
      obtain ⟨invoke, respond, -, answered, begun, ended, ordered⟩ :=
        Timing.complete_sound completed
      have upTo : ∀ t, u.timing.answered = some t → t ≤ respond := fun t known =>
        le_of_eq (Option.some.inj (known.symm.trans answered))
      have fits := inquired.fits begun ended ordered upTo pending.operation
      have same : (u.withTiming record).policy = .time q := policy
      simp only [ensures_bind, ensures_emit, same, Policy.classify, ensures_pure]
      refine fun t _ => ⟨answered_of_silent trivial, fun t _ => ⟨?_, ?_⟩⟩
      · intro s reported
        cases reported
        exact fits
      · exact (emitDelay_answered _ _ _).mono fun _ _ _ => proceed_answered _ _ _

theorem reportFailure_answered {slots : Slots} {slot : Slot} {pending : Pending}
    {cause : ErrorChain} {repair : Timing.Repair} (policy : u.policy = .time q)
    (fits : repair.skip = false → ∀ question ∈ asked,
      question.Fits (.ofTiming pending.operation (q.classify u.timing) u.timing)) :
    (u.reportFailure slots slot pending cause repair).Ensures Punctual (Answered asked)
      (fun _ _ => True) h := by
  unfold VirtualUser.reportFailure
  split
  next =>
    simp only [ensures_bind, ensures_emit, ensures_pure]
    exact fun t _ => ⟨answered_of_silent trivial, trivial⟩
  next kept =>
    have fits := fits (Bool.eq_false_iff.mpr kept)
    simp only [ensures_bind, ensures_emit, policy, Policy.classify, ensures_pure]
    refine fun t _ => ⟨?_, fun t _ => ⟨answered_of_silent trivial, ?_⟩⟩
    · intro s reported
      cases reported
      exact fits
    · split
      next =>
        rw [ensures_bind]
        exact (emitDelay_answered _ _ _).mono fun _ _ _ => proceed_answered _ _ _
      next => exact proceed_answered _ _ _

theorem accountFailure_answered {slots : Slots} {slot : Slot} {pending : Pending} {name : String}
    {cause : ErrorChain} (policy : u.policy = .time q)
    (inquired : Inquired q asked u.timing h) :
    (u.accountFailure slots slot pending name cause).Ensures Punctual (Answered asked)
      (fun _ _ => True) h := by
  unfold VirtualUser.accountFailure
  split
  next => exact ends_answered (VirtualUser.fail_only _ _ _ _)
  next =>
    simp only [ensures_bind, ensures_clock, policy, Policy.earlyFailure]
    refine fun t now punctual => ⟨answered_of_silent trivial, ?_⟩
    have fits := inquired.repaired_fits punctual.timely rfl
      (slot.previousStart, slot.previousEnd) pending.operation
    split
    next =>
      simp only [ensures_bind, ensures_emit]
      exact fun t _ => ⟨answered_of_silent trivial, reportFailure_answered policy fits⟩
    next => exact reportFailure_answered policy fits

theorem account_answered {slots : Slots} {slot : Slot} {pending : Pending} {operation : Operation}
    {ending : Ending} (policy : u.policy = .time q) (inquired : Inquired q asked u.timing h) :
    (u.account slots slot pending operation ending).Ensures Punctual (Answered asked)
      (fun _ _ => True) h := by
  unfold VirtualUser.account
  cases ending with
  | panicked => exact ends_answered (VirtualUser.failBinding_only _ _ _ (by simp [Event.isIdle]))
  | failed cause =>
    simp only [ensures_bind, ensures_emit, ensures_isAborted]
    refine fun t _ => ⟨answered_of_silent trivial, fun t' aborted _ =>
      ⟨answered_of_silent trivial, ?_⟩⟩
    cases aborted with
    | true => exact ends_answered (VirtualUser.finish_only _ _)
    | false => exact accountFailure_answered policy inquired.cons.cons
  | succeeded =>
    simp only [ensures_bind, ensures_emit, ensures_isAborted]
    refine fun t _ => ⟨answered_of_silent trivial, ?_⟩
    refine ((idle_answered (u.captureRespond_only operation)).and
      (captureRespond_keeps Inquired.tracked inquired.cons)).mono ?_
    intro v h kept t' aborted _
    obtain ⟨same, -, inquired⟩ := kept
    refine ⟨answered_of_silent trivial, ?_⟩
    cases aborted with
    | true => exact ends_answered (VirtualUser.finish_only _ _)
    | false => exact accountSuccess_answered (same.trans policy) inquired.cons

/-- Whatever a handler is told while it is served is borne out by the account of its invocation. -/
theorem serve_answered {slots : Slots} {slot : Slot} {pending : Pending} {operation : Operation}
    {handler : Handler σ} (policy : u.policy = .time q) :
    (u.serve slot pending operation handler).Ensures Punctual (fun x _ => x.sample? = none)
      (fun result h => ∀ ending asked, result.2 = some (ending, asked) →
        (result.1.account slots slot pending operation ending).Ensures Punctual
          (Answered asked) (fun _ _ => True) h) h := by
  have silent : ∀ (x : Exchange) (_ : History), x.request.Idle → x.sample? = none :=
    fun x _ idle => sample?_of_silent idle.plain.silent
  unfold VirtualUser.serve
  simp only [ensures_bind, ensures_emit]
  refine fun t _ => ⟨rfl, ?_⟩
  have opened : Inquired q [] (Timing.intendedAt pending.intended)
      (⟨t, .emit (.invoking pending.operation pending.intended), ()⟩ :: h) :=
    .unasked (Timing.each_intendedAt pending.intended)
  refine Ensures.mono (((VirtualUser.awaitInvocation_only _ operation pending).ensures_of_safe
    silent).and (awaitInvocation_keeps Inquired.tracked id opened rfl)) ?_
  intro result h kept
  obtain ⟨v, wait⟩ := result
  obtain ⟨-, same, inquired⟩ := kept
  cases wait with
  | cancelled =>
    intro ending asked served
    cases served
  | reached =>
    have view : v.context.view = q.view := by
      rw [show v = _ from same]
      show u.policy.view = q.view
      rw [policy]
      rfl
    have policy : v.policy = .time q := by
      rw [show v = _ from same]
      exact policy
    simp only [ensures_bind, ensures_emit]
    refine fun t _ => ⟨rfl, ?_⟩
    refine (((Behaviour.run_only _ _).ensures_of_safe silent).and
      (run_noting_inquired view inquired.cons)).mono ?_
    rintro ⟨context, ⟨state, asked⟩, ending⟩ h ⟨-, inquired⟩ ending' asked' served
    obtain ⟨rfl, rfl⟩ : ending = ending' ∧ asked = asked' := by simpa using served
    exact account_answered policy inquired

end Invocations

/-- Phases being measured by the clock, let an invocation begin and end at the times of its final
record. Whatever was known of it by then, as long as no response was later than the final one: it
counts in the steady state only if its handler was told so, and with the final response the handler
is told just how it counts. In the invocations of a thread, every question of a handler is answered
so, whatever the handler captures. -/
theorem steady_answers (q : TimePolicy) :
    (∀ (final r : Timing) (invoke respond : Stamp), final.invoke = some invoke →
      final.respond = some respond → invoke ≤ respond → r.invoke = some invoke →
      (∀ t, r.respond = some t ∨ r.lastRespond = some t → t ≤ respond) →
        (q.classify final = .steadyState → q.view.isSteady? r = some true) ∧
        (q.view.isSteady? r = some false → q.classify final ≠ .steadyState) ∧
        (r.respond = some respond →
          q.view.isSteady? r = some (decide (q.classify final = .steadyState)))) ∧
    ∀ {σ : Type} (w : Workload σ) (u : VirtualUser σ) (slots : Slots) (slot : Slot)
      (pending : Pending) (operation : Operation) (handler : Handler σ) (h : History),
      u.policy = .time q → u.policy.stopBefore pending.intended = false →
      w.operations[pending.operation]? = some operation →
      w.handlers[pending.operation]? = some handler →
      u.invoke w slots slot pending = (do
        let (v, served) ← u.serve slot pending operation handler
        match served with
        | none => v.finish none
        | some (ending, _) => v.account slots slot pending operation ending) ∧
      (u.serve slot pending operation handler).Ensures Punctual (fun x _ => x.sample? = none)
        (fun result h => ∀ ending asked, result.2 = some (ending, asked) →
          (result.1.account slots slot pending operation ending).Ensures Punctual
            (fun x _ => ∀ s, x.sample? = some s → ∀ question ∈ asked, question.Fits s)
            (fun _ _ => True) h) h := by
  refine ⟨fun final r invoke respond same ended ordered begun interim => ?_,
    fun w u slots slot pending operation handler h policy due known handles =>
      ⟨VirtualUser.invoke_eq_serve due known handles, serve_answered policy⟩⟩
  have upTo : r.answered.getD invoke ≤ respond := by
    cases responded : r.respond with
    | some t =>
      rw [Timing.answered_of_some responded]
      exact interim t (Or.inl responded)
    | none =>
      rw [Timing.answered_of_none responded]
      cases last : r.lastRespond with
      | some t => exact interim t (Or.inr last)
      | none => exact ordered
  have told : q.classify final = .steadyState → q.view.isSteady? r = some true :=
    TimePolicy.isSteady_of_classify begun same ended upTo
  refine ⟨told, fun refused steady => ?_, fun responded =>
    TimePolicy.isSteady_of_respond begun responded same ended⟩
  rw [told steady] at refused
  cases refused

/-- A handler that asks about the steady state before and after an interim response. -/
def Behaviour.asking : Behaviour Unit :=
  .calls .isSteady fun _ => .calls .recordLast fun _ => .calls .isSteady fun _ => .succeeds ()

/-- An operation with that handler, which captures its times by itself. -/
def Workload.asking : Workload Unit :=
  Workload.single (fun _ => .created ()) ⟨"", [], 0, .automatic, true, .fixed Span.zero⟩ fun _ =>
    Behaviour.asking

/-- A steady state from 100 to 200 nanoseconds after the epoch. -/
def TimePolicy.underWay : TimePolicy := (TimePolicy.ofLengths ⟨100⟩ ⟨100⟩ ⟨0⟩ false).withStart 0

def VirtualUser.asking : VirtualUser Unit :=
  VirtualUser.create Workload.asking 0 () (.time TimePolicy.underWay) 0

/-- The handler is called at 150 nanoseconds and gets an interim response at 170. With a response at
180 its invocation counts in the steady state, as both of its questions have been answered. -/
theorem steady_answers_asking :
    let u := VirtualUser.asking
    let slots := (Slots.fresh Workload.asking u.random 0).1
    let pending : Pending := ⟨0, 150, 0, none⟩
    let before : Timing := ⟨some 150, some 150, none, none, 0⟩
    let interim : Timing := ⟨some 150, some 150, none, some 170, 0⟩
    let asked : List Question := [⟨interim, some true⟩, ⟨before, some true⟩]
    TimePolicy.underWay.classify (interim.withRespond 180) = .steadyState ∧
      TimePolicy.underWay.view.isSteady? interim = some true ∧
      ∃ operation, Workload.asking.operations = [operation] ∧ ∃ v h,
        (u.serve slots.foreground pending operation fun _ => .asking).Ends h
          (v, some (.succeeded, asked)) ∧
        (v.account slots slots.foreground pending operation .succeeded).Ensures Punctual
          (fun x _ => ∀ s, x.sample? = some s → ∀ question ∈ asked, question.Fits s)
          (fun _ _ => True) h := by
  intro u slots pending before interim asked
  have counts : TimePolicy.underWay.classify (interim.withRespond 180) = .steadyState := by decide
  have upTo : ∀ t, interim.respond = some t ∨ interim.lastRespond = some t → t ≤ 180 := by
    rintro t (⟨⟨⟩⟩ | ⟨⟨⟩⟩)
    decide
  obtain ⟨records, invocations⟩ := steady_answers TimePolicy.underWay
  obtain ⟨told, -, -⟩ := records (interim.withRespond 180) interim 150 180 rfl rfl (by decide) rfl
    upTo
  let operation : Operation := ⟨"", [], 0, .automatic, true, .fixed Span.zero⟩
  let emitted (e : Event) : Exchange := ⟨150, .emit e, ()⟩
  let slept : Exchange := ⟨150, .call (.sleepUntil 150), Wait.reached⟩
  let read (t : Stamp) : Exchange := ⟨t, .call .clock, t⟩
  let h : History := [] ++ [read 170] ++ [emitted (.called false 0 150)] ++ [read 150] ++ [slept] ++
    [emitted (.invoking 0 150)]
  obtain ⟨v, ends⟩ : ∃ v, (u.serve slots.foreground pending operation fun _ => .asking).Ends h
      (v, some (.succeeded, asked)) :=
    ⟨_, .ask 150 _ (.ask 150 _ (.ask 150 _ (.ask 150 _ (.ask 170 _ (.done _)))))⟩
  have reads (t : Stamp) {older : History} (past : ∀ y ∈ older, y.time ≤ t) :
      Punctual (read t) older := ⟨⟨by rintro _ ⟨⟩; rfl, past⟩, by rintro _ ⟨⟩⟩
  have emits (e : Event) {older : History} (past : ∀ y ∈ older, y.time ≤ 150) :
      Punctual (emitted e) older := ⟨⟨by rintro _ ⟨⟩, past⟩, by rintro _ ⟨⟩⟩
  have wakes {older : History} (past : ∀ y ∈ older, y.time ≤ 150) : Punctual slept older :=
    ⟨⟨by rintro _ ⟨⟩, past⟩, by rintro _ ⟨⟩; exact le_rfl⟩
  have punctual : History.Each Punctual (h ++ []) :=
    ⟨reads 170 (by decide), emits _ (by decide), reads 150 (by decide), wakes (by decide),
      emits _ (by decide), trivial⟩
  obtain ⟨-, answered⟩ := invocations Workload.asking u slots slots.foreground pending operation
    (fun _ => .asking) [] rfl (by decide) rfl rfl
  exact ⟨counts, told counts, operation, rfl, v, h, ends,
    ends.ensured answered punctual _ _ rfl⟩

/-- An interim response after the steady state is refused, and so is the invocation in the end. -/
example :
    let q : TimePolicy := (TimePolicy.ofLengths ⟨100⟩ ⟨100⟩ ⟨0⟩ false).withStart 0
    let r : Timing := (Timing.intendedAt 150).withInvoke 150
    q.view.isSteady? r = some true ∧ q.view.isSteady? (r.withLastRespond 250) = some false ∧
      q.classify (r.withRespond 250) = .rampDown := by
  decide

end LoadGen
