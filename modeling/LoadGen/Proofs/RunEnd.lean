import LoadGen.Proofs.CarriedPolicy
import LoadGen.Proofs.Playback
import LoadGen.Proofs.RunOfPlan
import LoadGen.Proofs.Stamps

namespace LoadGen

open Program History

namespace VirtualUser

variable {σ : Type} {q : TimePolicy}

/-- The thread goes on with a policy, or leaves its loop. -/
def GoesOnWith (q : TimePolicy) (stage : Stage σ) : Prop :=
  (∃ v slots, stage = .iterating v slots ∧ v.policy = .time q) ∨ ∃ v error, stage = .ended v error

theorem goesOnWith_of_carries {stage : Stage σ} (carries : stage.Carries (.time q)) :
    GoesOnWith q stage := by
  cases stage with
  | iterating v slots => exact Or.inl ⟨v, slots, rfl, carries⟩
  | ended v error => exact Or.inr ⟨v, error, rfl⟩
  | _ => cases carries

end VirtualUser

namespace TimedRun

variable {σ : Type} {r : TimedRun} {q : TimePolicy} {h : History} {u : VirtualUser σ}
  {w : Workload σ}

theorem quiet_asked {α : Type} {p : Program α} {result : α → Prop}
    (only : p.Only Request.Quiet result) (asked : r.Asked q h)
    (simultaneous : r.simultaneous → SeesStart h) :
    p.Ensures r.Tells r.CallsBefore
      (fun a h => result a ∧ r.Asked q h ∧ (r.simultaneous → SeesStart h)) h := by
  refine only.ensures (fun x h quiet _ kept => ⟨callsBefore_of_settled quiet.settled, ?_⟩)
    (show r.Asked q h ∧ (r.simultaneous → SeesStart h) from ⟨asked, simultaneous⟩)
  exact ⟨kept.1.quiet quiet, fun need => seesStart_cons.mpr (Or.inr (kept.2 need))⟩

theorem idle_asked {α : Type} {p : Program α} {result : α → Prop}
    (only : p.Only Request.Idle result) (asked : r.Asked q h)
    (simultaneous : r.simultaneous → SeesStart h) :
    p.Ensures r.Tells r.CallsBefore
      (fun a h => result a ∧ r.Asked q h ∧ (r.simultaneous → SeesStart h)) h :=
  quiet_asked (only.weaken fun _ => Request.Idle.quiet) asked simultaneous

theorem inv_of_ends {p : Program (Stage σ)} {v : VirtualUser σ} {error : Option RunError}
    (only : p.Only Request.Idle (· = .ended v error)) :
    p.Ensures r.Tells r.CallsBefore r.Inv h := by
  have settled := only.weaken fun _ => Request.Idle.settled
  refine (settled.ensures_of_safe fun _ _ => callsBefore_of_settled).mono ?_
  intro stage h ends
  subst ends
  trivial

theorem inv_of_goesOn {p : Program (Stage σ)}
    (only : p.Only Request.Settled (VirtualUser.GoesOnWith q)) (informed : r.Informed q h) :
    p.Ensures r.Tells r.CallsBefore r.Inv h := by
  refine (ensures_of_settled (r.Informed q) only informed fun _ _ settled informed =>
    informed.untold (start?_of_settled settled)).mono ?_
  intro stage h left
  obtain ⟨⟨v, slots, rfl, same⟩ | ⟨v, error, rfl⟩, informed⟩ := left
  · exact ⟨q, same, informed⟩
  · trivial

theorem callHandler_inv (policy : u.policy = .time q) (asked : r.Asked q h)
    (simultaneous : r.simultaneous → SeesStart h) (slots : Slots) (slot : Slot)
    {pending : Pending} (operation : Operation) (handler : Handler σ)
    (before : q = r.started → pending.intended < r.bounds.endRampDown) :
    (u.callHandler slots slot pending operation handler).Ensures r.Tells r.CallsBefore r.Inv h := by
  unfold VirtualUser.callHandler
  simp only [ensures_bind, ensures_emit]
  refine fun t _ => ⟨?_, ?_⟩
  · intro background operation intended called
    cases called
    rcases asked with ⟨started, sees⟩ | ⟨-, unseen, inVain, load⟩
    · exact Or.inl ⟨sees, before started⟩
    · exact Or.inr ⟨unseen, inVain, fun need => unseen (simultaneous need), load⟩
  · have informed : r.Informed q h := ⟨asked.knows, simultaneous⟩
    have runs := (Behaviour.run_only (handler u.state) u.context).weaken
      fun _ => Request.Idle.settled
    refine (ensures_of_settled (r.Informed q) runs (informed.untold rfl) fun _ _ settled informed =>
      informed.untold (start?_of_settled settled)).mono ?_
    intro result h ran
    obtain ⟨context, state, ending⟩ := result
    have same : ({ u with context := context, state := state } : VirtualUser σ).policy = .time q :=
      policy
    have carries := VirtualUser.account_carries same slots slot pending operation ending
    exact inv_of_goesOn (carries.mono fun _ => VirtualUser.goesOnWith_of_carries) ran.2

/-- A thread that has been told the start lets no invocation of the end or later begin. -/
theorem invoke_inv (policy : u.policy = .time q) (asked : r.Asked q h)
    (simultaneous : r.simultaneous → SeesStart h) (slots : Slots) (slot : Slot)
    (pending : Pending) :
    (u.invoke w slots slot pending).Ensures r.Tells r.CallsBefore r.Inv h := by
  unfold VirtualUser.invoke
  split
  next => exact inv_of_ends (VirtualUser.finish_only _ _)
  next goesOn =>
    have before : q = r.started → pending.intended < r.bounds.endRampDown := by
      intro knows
      subst knows
      simpa [policy, Policy.stopBefore, TimePolicy.stopBefore, started] using goesOn
    split
    next operation handler _ _ =>
      simp only [ensures_bind, ensures_emit]
      refine fun t _ => ⟨callsBefore_of_settled trivial, ?_⟩
      have asked := asked.quiet
        (x := ⟨t, .emit (.invoking pending.operation pending.intended), ()⟩) rfl
      refine (idle_asked (VirtualUser.awaitInvocation_only _ operation pending) asked
        fun need => seesStart_cons.mpr (Or.inr (simultaneous need))).mono ?_
      intro result h awaited
      obtain ⟨v, wait⟩ := result
      obtain ⟨same, asked, simultaneous⟩ := awaited
      have policy : v.policy = .time q := same.trans policy
      cases wait with
      | cancelled => exact inv_of_ends (VirtualUser.finish_only _ _)
      | reached => exact callHandler_inv policy asked simultaneous _ _ _ _ before
    next => exact inv_of_ends (VirtualUser.failBinding_only _ _ _ (by simp))

theorem advance_inv (policy : u.policy = .time q) (asked : r.Asked q h)
    (simultaneous : r.simultaneous → SeesStart h) (slots : Slots) :
    (u.advance w slots).Ensures r.Tells r.CallsBefore r.Inv h := by
  unfold VirtualUser.advance
  simp only [ensures_bind]
  have planned := (VirtualUser.plan_only slots w u.random).weaken fun _ => Request.Plans.quiet
  refine (quiet_asked planned asked simultaneous).mono ?_
  intro _ h emitted
  obtain ⟨-, asked, simultaneous⟩ := emitted
  split
  next => exact inv_of_ends (VirtualUser.finish_only _ _)
  next =>
    refine invoke_inv ?_ asked simultaneous _ _ _
    exact policy

/-- An iteration calls a handler only in time if the thread has been told the start. -/
theorem iterate_inv {slots : Slots} (inv : r.Inv (.iterating u slots) h) :
    (u.iterate w r.load slots).Ensures r.Tells r.CallsBefore r.Inv h := by
  obtain ⟨q, policy, informed⟩ := inv
  unfold VirtualUser.iterate
  simp only [ensures_bind, ensures_isAborted]
  refine fun t aborted _ => ⟨callsBefore_of_call, ?_⟩
  have informed := informed.untold (x := ⟨t, .call .isAborted, aborted⟩) rfl
  cases aborted with
  | true => exact inv_of_ends (VirtualUser.finish_only _ _)
  | false =>
    simp only [policy, Policy.gate, Bool.false_eq_true, ↓reduceIte, ensures_bind, ensures_pure]
    -- The gate does not say that a simultaneous start was seen before; this is carried beside it.
    have stays : ∀ x h, (r.simultaneous → SeesStart h) → r.simultaneous → SeesStart (x :: h) :=
      fun x h told need => seesStart_cons.mpr (Or.inr (told need))
    refine ((gate_asks informed.1 u.id).and (ensures_of_lasting stays informed.2)).mono ?_
    intro result h passed
    obtain ⟨q, gate⟩ := result
    obtain ⟨known, simultaneous⟩ := passed
    cases gate with
    | stop => exact inv_of_ends (VirtualUser.finish_only _ _)
    | cancelled => exact inv_of_ends (VirtualUser.finish_only _ _)
    | proceed => exact advance_inv rfl (known.2 (Or.inl rfl)) simultaneous slots
    | resumed =>
      have informed : r.Informed q h := ⟨known.1, simultaneous⟩
      simp only [VirtualUser.obey, ensures_bind, ensures_clock, ensures_emit, ensures_pure]
      refine fun t now _ => ⟨callsBefore_of_call, fun t' _ => ⟨callsBefore_of_settled trivial, ?_⟩⟩
      exact ⟨q, rfl, (informed.untold rfl).untold rfl⟩

theorem enter_inv (policy : u.policy = .time q) (informed : r.Informed q h) :
    (u.enter w).Ensures r.Tells r.CallsBefore r.Inv h := by
  unfold VirtualUser.enter
  simp only [ensures_bind, ensures_clock, ensures_emit, ensures_pure]
  refine fun t now _ => ⟨callsBefore_of_call, fun t' _ => ⟨callsBefore_of_settled trivial, ?_⟩⟩
  exact ⟨q, policy, (informed.untold rfl).untold rfl⟩

theorem start_inv (inv : r.Inv (.ready u) h) :
    (u.start w).Ensures r.Tells r.CallsBefore r.Inv h := by
  obtain ⟨policy, unseen⟩ := inv
  have knows : r.Knows r.policy h := Or.inl ⟨rfl, unseen⟩
  unfold VirtualUser.start
  simp only [ensures_bind, ensures_enrol, policy, Policy.prepare]
  refine fun t _ => ⟨callsBefore_of_call, ?_⟩
  have knows : r.Knows r.policy (⟨t, .call .enrol, ()⟩ :: h) := knows.untold rfl
  split
  next simultaneous =>
    simp only [ensures_bind, ensures_awaitStart, ensures_pure]
    refine fun t' start tells => ⟨callsBefore_of_call, ?_⟩
    cases start with
    | none => trivial
    | some start =>
      obtain ⟨knows, sees⟩ := knows.told tells rfl
      exact enter_inv rfl ⟨knows, fun _ => sees⟩
  next single =>
    have need : ¬ r.simultaneous := single
    exact enter_inv rfl ⟨knows, fun simultaneous => absurd simultaneous need⟩

theorem follow_inv {p : RunPlan σ} {stage : Stage σ} {next : Program (Stage σ)}
    (policy : p.control.policy = .time r.policy) (load : p.control.load = r.load)
    (inv : r.Inv stage h) (follows : p.follow stage = some next) :
    next.Ensures r.Tells r.CallsBefore r.Inv h := by
  have settled : ∀ {p : Program (Stage σ)} {result : Stage σ → Prop},
      p.Only Request.Idle result →
        p.Ensures r.Tells r.CallsBefore (fun stage _ => result stage) h :=
    fun only => (only.weaken fun _ => Request.Idle.settled).ensures_of_safe
      fun _ _ => callsBefore_of_settled
  cases stage with
  | starting id =>
    cases follows
    have unseen : ¬ SeesStart h := inv
    have launched := (p.launch_only id).weaken fun _ => Request.Idle.settled
    refine (ensures_of_settled (¬ SeesStart ·) launched unseen fun x h settled unseen => ?_).mono ?_
    · rwa [seesStart_cons_of_untold (start?_of_settled settled)]
    · intro stage h begun
      obtain ⟨⟨state, rfl⟩ | ⟨result, rfl⟩, unseen⟩ := begun
      · exact ⟨policy, unseen⟩
      · trivial
  | ready u =>
    cases follows
    exact start_inv inv
  | iterating u slots =>
    cases follows
    exact load ▸ iterate_inv inv
  | ended u error =>
    cases follows
    refine (settled (p.conclude_only u error)).mono ?_
    intro stage h ends
    obtain ⟨result, rfl⟩ := ends
    trivial
  | conducting =>
    cases follows
    refine (settled p.conduct_only).mono ?_
    intro stage h ends
    obtain ⟨now, rfl⟩ := ends
    trivial
  | finished result => cases follows
  | conducted now => cases follows

/-- The end of the run is no later than the start and the lengths of its phases together. -/
theorem endRampDown_le (r : TimedRun) (word : Stamp.least ≤ r.start) : r.bounds.endRampDown ≤
    r.start + r.rampUp.nanos + r.steadyState.nanos + r.rampDown.nanos := by
  have later : ∀ {b : Int} (s : Span), Stamp.least ≤ b → Stamp.least ≤ b + s.nanos :=
    fun s word => le_trans word (Int.le_add_of_nonneg_right (Int.natCast_nonneg _))
  have first := Stamp.plus_ofSpan_le (le_refl r.start) word r.rampUp
  have second := Stamp.plus_ofSpan_le first (later _ word) r.steadyState
  exact Stamp.plus_ofSpan_le second (later _ (later _ word)) r.rampDown

end TimedRun

/-- In a run whose phases are measured by the clock, a handler is called for a time before the end
of the run, unless its thread neither waits for a simultaneous start nor follows a load schedule and
has been told in that iteration that there is no start yet. -/
theorem calls_before_end {σ : Type} (p : RunPlan σ) {rampUp steadyState rampDown : Span}
    (mode : p.control.mode = .time rampUp steadyState rampDown) {now start : Stamp}
    {e : Ensemble (Stage σ)} {hs : Nat → History}
    (run : Ensemble.Run p.follow p.ensemble now e hs) (fixed : e.signals.start = some start)
    (i : Nat) {x : Exchange} {older : History} (part : x :: older <:+ hs i)
    {background : Bool} {operation : Nat} {intended : Stamp}
    (called : x.event? = some (.called background operation intended)) :
    (SeesStart older ∧
      intended < (TimeBounds.ofStart start rampUp steadyState rampDown).endRampDown ∧
      (Stamp.least ≤ start →
        intended < start + rampUp.nanos + steadyState.nanos + rampDown.nanos)) ∨
    (¬ SeesStart older ∧ AskedInVain older ∧ p.control.simultaneous = false ∧
      p.control.load = none) := by
  let r : TimedRun :=
    ⟨rampUp, steadyState, rampDown, p.control.simultaneous, p.control.load, start⟩
  have policy : p.control.policy = .time r.policy := by
    rw [RunControl.policy, mode]
    rfl
  have told : (hs i).Each r.Tells :=
    each_of_mem fun y mem t told => run.told_fixed p.fresh fixed mem t told
  have unseen : ¬ SeesStart [] := by simp [SeesStart]
  obtain ⟨safe, -⟩ := RunPlan.ensures_of_run r.Inv unseen trivial
    (fun _ _ _ inv follows => TimedRun.follow_inv policy rfl inv follows) run told
  rcases each_iff_suffix.mp safe x older part _ _ _ called with ⟨sees, before⟩ | late
  · exact Or.inl ⟨sees, before, fun word => lt_of_lt_of_le before (r.endRampDown_le word)⟩
  · obtain ⟨unseen, inVain, single, load⟩ := late
    exact Or.inr ⟨unseen, inVain, Bool.eq_false_iff.mpr single, load⟩

/-- A plan whose run ends one nanosecond after its start, while its threads begin their first
invocation five nanoseconds after they have been initialized. -/
def RunPlan.late : RunPlan Unit :=
  { workload :=
      { Workload.single (fun _ => .created ()) ⟨"", [], 0, .automatic, true, .fixed Span.zero⟩
          fun _ => .succeeds () with
        initialDelay := .fixed ⟨5⟩ }
    control := .ofMode (.time ⟨0⟩ ⟨1⟩ ⟨0⟩)
    seed := 0 }

/-- The thread has passed its gate before the start is fixed, and calls its handler when the run has
ended. -/
theorem calls_before_end_late :
    ∃ now e hs, Ensemble.Run RunPlan.late.follow RunPlan.late.ensemble now e hs ∧
      e.signals.start = some 0 ∧ ∃ x older, x :: older <:+ hs 0 ∧
        x.event? = some (.called false 0 5) ∧ ¬ SeesStart older ∧ AskedInVain older := by
  let order : List (Stamp × Nat) :=
    List.replicate 15 (0, 0) ++ List.replicate 10 (0, 1) ++ List.replicate 5 (5, 0)
  have passed : Ensemble.Run.reached (fun e hs => decide (e.signals.start = some 0 ∧
      (hs 0).head?.bind Exchange.event? = some (.called false 0 5)))
      (Ensemble.Run.play RunPlan.late.follow order 0 RunPlan.late.ensemble fun _ => []) = true := by
    decide +kernel
  obtain ⟨now, e, hs, run, passed⟩ := Ensemble.Run.exists_of_reached passed
  obtain ⟨fixed, last⟩ := of_decide_eq_true passed
  obtain ⟨x, latest, called⟩ := Option.bind_eq_some_iff.mp last
  obtain ⟨older, split⟩ := List.head?_eq_some_iff.mp latest
  have part : x :: older <:+ hs 0 := split ▸ List.suffix_refl _
  rcases calls_before_end RunPlan.late rfl run fixed 0 part called with ⟨-, before, -⟩ | late
  · exact absurd before (by decide)
  · exact ⟨now, e, hs, run, fixed, x, older, part, called, late.1, late.2.1⟩

end LoadGen
