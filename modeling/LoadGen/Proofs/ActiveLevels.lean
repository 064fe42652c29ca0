import LoadGen.Proofs.LevelLookup
import LoadGen.Proofs.SampleContract
import LoadGen.Proofs.SampleTimes

namespace LoadGen

open Program History

/-- A handler is called by a thread that was active when the gate of its iteration read the
clock. -/
def CalledWhileActive (schedule : LoadSchedule) (thread : Nat) (x : Exchange) (h : History) :
    Prop :=
  match x.request with
  | .emit (.called ..) => h.Active schedule thread
  | _ => True

/-- An event is no reading of the clock and no look at the flag or at the start. -/
theorem History.Active.emitted {schedule : LoadSchedule} {thread : Nat} {h : History}
    (active : h.Active schedule thread) (t : Stamp) (e : Event) :
    Active schedule thread (⟨t, .emit e, ()⟩ :: h) := by
  obtain ⟨start, now, known, read, within⟩ := active
  refine ⟨start, now, known, ?_, within⟩
  change (gateReading h).or none = some now
  rw [read]
  rfl

/-- An outline in which a thread that opens an invocation has been active at the gate. -/
def Outline.active (c : RunControl) (schedule : LoadSchedule) (thread : Nat) : Outline where
  unbegun _ := True
  resting l _ := l.policy.earlyFailure = c.policy.earlyFailure
  opening l _ h := l.policy.earlyFailure = c.policy.earlyFailure ∧ h.Active schedule thread
  serving l _ _ := l.policy.earlyFailure = c.policy.earlyFailure
  cleared l _ _ := l.policy.earlyFailure = c.policy.earlyFailure
  closing l _ _ _ := l.policy.earlyFailure = c.policy.earlyFailure

namespace Outline

variable {σ : Type} {schedule : LoadSchedule} {thread : Nat} {x : Exchange} {h : History}

theorem calledWhileActive_of_mute (mute : x.request.Mute) :
    CalledWhileActive schedule thread x h := by
  obtain ⟨t, request, reply⟩ := x
  cases request with
  | call c => trivial
  | emit e => cases e <;> trivial

/-- The plans after the gate leave what it has found. -/
theorem active_plans {env : Exchange → History → Prop} (active : h.Active schedule thread)
    (slots : Slots) (w : Workload σ) (random : ChaCha) :
    (VirtualUser.emitAll (slots.plan w random).2.2).Ensures env (CalledWhileActive schedule thread)
      (fun _ h => h.Active schedule thread) h := by
  have step : ∀ x h, x.request.Plans → env x h → h.Active schedule thread →
      CalledWhileActive schedule thread x h ∧ Active schedule thread (x :: h) := by
    intro x h plans _ active
    obtain ⟨t, request, reply⟩ := x
    obtain ⟨background, operation, intended, delay, rfl⟩ := plans
    exact ⟨trivial, active.emitted t _⟩
  exact ((VirtualUser.plan_only slots w random).ensures step active).mono fun _ _ kept => kept.2

theorem active_sound (p : RunPlan σ) (id : Nat) (timed : p.control.mode.isTime = true)
    (load : p.control.load = some schedule) :
    (active p.control schedule id).Sound p id Punctual (CalledWhileActive schedule id) where
  punctual punctual := punctual
  mute := calledWhileActive_of_mute
  ends _ := trivial
  unbegun_plain _ _ _ := trivial
  enters prepares _ _ := prepares.earlyFailure
  resting_plain _ _ mode := mode
  notices _ _ mode := (Policy.earlyFailure_noticing _ _).trans mode
  resumes _ _ _ mode := ⟨trivial, mode⟩
  plans := by
    intro l h passes mode
    have active : h.Active schedule id := by
      have rule := mode.trans (p.control.earlyFailure_eq.trans (if_pos timed))
      cases policy : l.policy with
      | cycles q =>
        rw [policy] at rule
        cases rule
      | time q =>
        rw [policy] at passes
        exact passes schedule load
    refine (active_plans active l.slots p.workload l.random).mono ?_
    exact fun _ _ active _ _ => ⟨mode, active⟩
  stops _ _ := trivial
  opening_tracked := .of_idle fun idle _ opening => ⟨opening.1, opening.2.idle idle⟩
  calls _ _ opening := ⟨opening.2, opening.1⟩
  serving_tracked := .of_idle fun _ _ mode => mode
  clears _ _ mode := mode
  cleared_plain _ _ mode := mode
  succeeds mode _ classified _ := ⟨trivial, classified.earlyFailure.trans mode⟩
  skips failed _ _ _ := ⟨trivial, failed.cleared⟩
  fails _ failed _ _ classified _ := ⟨trivial, classified.earlyFailure.trans failed.cleared⟩
  delays mode _ _ _ := ⟨trivial, mode⟩
  closes mode := mode

end Outline

/-- Under a load schedule, a thread that calls a handler was active when the gate of the iteration
read the clock. It is active as well at the time that the invocation is intended for if the same
switch follows, and otherwise unless another level has begun between the two. -/
theorem called_while_active_at_gate {σ : Type} (p : RunPlan σ) {now : Stamp}
    {e : Ensemble (Stage σ)} {hs : Nat → History}
    (run : Ensemble.Run p.follow p.ensemble now e hs) (timed : p.control.mode.isTime = true)
    {schedule : LoadSchedule} (load : p.control.load = some schedule) (i : Nat) {x : Exchange}
    {older : History} (part : x :: older <:+ hs i) {b : Bool} {operation : Nat} {intended : Stamp}
    (called : x.event? = some (.called b operation intended)) :
    ∃ start read, e.signals.start = some start ∧ gateReading older = some read ∧
      let atGate := schedule.levelAt (max (Stamp.minus read start) 0)
      let atTime := schedule.levelAt (max (Stamp.minus intended start) 0)
      i < atGate.1 ∧ (atTime.2 = atGate.2 → i < atTime.1) ∧
        (i < atTime.1 ∨ schedule.SwitchesBetween (max (Stamp.minus read start) 0)
          (max (Stamp.minus intended start) 0)) := by
  have sound := Outline.active_sound p i timed load
  have safe := each_iff_suffix.mp (sound.of_run trivial run (run.punctual p.fresh i)).1 x older part
  rw [Exchange.eq_of_event called] at safe
  obtain ⟨start, read, told, gate, within⟩ := safe
  have faithful : older.Each (Faithful e.signals.start) :=
    (SampleInvariant.faithful_of_run run i).suffix ((List.suffix_cons x older).trans part)
  refine ⟨start, read, tellsOnly_of_faithful faithful start told, gate, within, ?_, ?_⟩
  · intro same
    rw [LoadSchedule.levelAt_eq_of_next same]
    exact within
  · rcases schedule.levelAt_eq_or_switches (le_max_right (Stamp.minus read start) 0)
      (le_max_right (Stamp.minus intended start) 0) with same | switches
    · left
      rw [← same]
      exact within
    · exact Or.inr switches

/-- The thread has passed its gate at once, and calls its handler in its pause. -/
theorem called_in_pause_besidePausing : ∃ now e hs x older schedule,
    Ensemble.Run RunPlan.besidePausing.follow RunPlan.besidePausing.ensemble now e hs ∧
      RunPlan.besidePausing.control.load = some schedule ∧ e.signals.start = some 0 ∧
      hs 0 = x :: older ∧ x.event? = some (.called false 0 80) ∧
      ¬ 0 < (schedule.levelAt (max (Stamp.minus 80 0) 0)).1 := by
  let order : List (Stamp × Nat) := List.replicate 13 (0, 0) ++ List.replicate 10 (0, 1) ++
    List.replicate 41 (0, 0) ++ List.replicate 5 (80, 0)
  have passed : Ensemble.Run.reached (fun e hs => decide (e.signals.start = some 0 ∧
      (hs 0).head?.bind Exchange.event? = some (.called false 0 80)))
      (Ensemble.Run.play RunPlan.besidePausing.follow order 0 RunPlan.besidePausing.ensemble
        fun _ => []) = true := by
    decide +kernel
  obtain ⟨now, e, hs, run, passed⟩ := Ensemble.Run.exists_of_reached passed
  obtain ⟨fixed, last⟩ := of_decide_eq_true passed
  obtain ⟨x, latest, called⟩ := Option.bind_eq_some_iff.mp last
  obtain ⟨older, split⟩ := List.head?_eq_some_iff.mp latest
  exact ⟨now, e, hs, x, older, _, run, rfl, fixed, split, called, by decide⟩

/-- After the pause, the thread is active at its gate and at the time that it calls its handler
for. -/
theorem called_while_active_at_gate_besidePausing : ∃ now e hs x older,
    Ensemble.Run RunPlan.besidePausing.follow RunPlan.besidePausing.ensemble now e hs ∧
      hs 0 = x :: older ∧ x.event? = some (.called false 0 120) ∧
      ∃ start, e.signals.start = some start ∧ ∀ schedule,
        RunPlan.besidePausing.control.load = some schedule →
          0 < (schedule.levelAt (max (Stamp.minus 120 start) 0)).1 := by
  let order : List (Stamp × Nat) := List.replicate 13 (0, 0) ++ List.replicate 10 (0, 1) ++
    List.replicate 41 (0, 0) ++ List.replicate 19 (80, 0) ++ List.replicate 17 (120, 0)
  have passed : Ensemble.Run.reached (fun e hs => decide (e.signals.start = some 0 ∧
      (hs 0).head?.bind Exchange.event? = some (.called false 0 120) ∧
        gateReading (hs 0).tail = some 120))
      (Ensemble.Run.play RunPlan.besidePausing.follow order 0 RunPlan.besidePausing.ensemble
        fun _ => []) = true := by
    decide +kernel
  obtain ⟨now, e, hs, run, passed⟩ := Ensemble.Run.exists_of_reached passed
  obtain ⟨fixed, last, gate⟩ := of_decide_eq_true passed
  obtain ⟨x, latest, called⟩ := Option.bind_eq_some_iff.mp last
  obtain ⟨older, split⟩ := List.head?_eq_some_iff.mp latest
  rw [split] at gate
  refine ⟨now, e, hs, x, older, run, split, called, 0, fixed, fun schedule load => ?_⟩
  have part : x :: older <:+ hs 0 := split ▸ List.suffix_rfl
  obtain ⟨start, read, fixed', gate', active⟩ :=
    called_while_active_at_gate RunPlan.besidePausing run rfl load 0 part called
  obtain rfl := Option.some.inj (fixed.symm.trans fixed')
  obtain rfl := Option.some.inj (gate.symm.trans gate')
  exact active.2.1 rfl

end LoadGen
