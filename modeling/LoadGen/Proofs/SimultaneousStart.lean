import LoadGen.Proofs.AfterStart
import LoadGen.Proofs.Initialization

namespace LoadGen

open Program History

namespace Standing

variable {first st st' : Standing} {x : Exchange} {h : History}

/-- Whether it is the conducting thread that stands here. -/
def conducts : Standing → Bool
  | conducting | fixing => true
  | _ => false

theorem conducts_next (steps : st.next x.request x.reply = some st') :
    st'.conducts = st.conducts := by
  cases step_of_next steps with
  | drops looks => rcases looks with rfl | ⟨told, rfl⟩ | ⟨whole, rfl⟩ <;> rfl
  | ends leaves => rcases leaves with rfl | rfl | ⟨told, rfl⟩ | ⟨whole, rfl⟩ <;> rfl
  | _ => rfl

theorem conducts_of_awaitsAll (awaits : x.awaitsAll)
    (steps : st.next x.request x.reply = some st') : st.conducts := by
  unfold Exchange.awaitsAll at awaits
  split at awaits
  · cases step_of_next steps with
    | stays ordinary => cases ordinary
    | opens => rfl
  · cases awaits

theorem conducts_of_after (now : first.after h = some st) : st.conducts = first.conducts := by
  induction h generalizing st with
  | nil =>
    cases now
    rfl
  | cons x h ih =>
    obtain ⟨before, stood, steps⟩ := exists_of_after_cons now
    exact (conducts_next steps).trans (ih stood)

/-- A user's thread may fix the start only from within a handler. -/
theorem exists_calls_of_mayFix (begins : first.mayFix = false) (user : first.conducts = false)
    (now : first.after h = some st) (fixes : st.mayFix) : ∃ x ∈ h, x.calls := by
  obtain ⟨x, mem, calls | awaits⟩ := exists_of_mayFix begins now fixes
  · exact ⟨x, mem, calls⟩
  · obtain ⟨new, older, rfl⟩ := List.append_of_mem mem
    obtain ⟨after, stood⟩ := exists_after_of_append now
    obtain ⟨before, stood, steps⟩ := exists_of_after_cons stood
    have conducting := conducts_of_awaitsAll awaits steps
    rw [conducts_of_after stood, user] at conducting
    cases conducting

end Standing

namespace RunPlan

open Ensemble

variable {σ : Type} {p : RunPlan σ} {e : Ensemble (Stage σ)} {now start : Stamp}
  {hs : Nat → History} {i : Nat} {m : Member (Stage σ)} {next : Bool → Program (Stage σ)}

/-- A start that the request fixes is within the range of the clock. -/
def FixesWithin (request : Request) : Prop :=
  ∀ t, request = .call (.fixStart t) → t ≤ Stamp.greatest

theorem conduct_within :
    p.conduct.Only FixesWithin fun stage => ∃ now, stage = .conducted now := by
  simp [conduct, FixesWithin, Stamp.plus_le_greatest]

theorem follow_within {stage : Stage σ} {rest : Program (Stage σ)} {h : History}
    (conducts : stage = .conducting ∨ ∃ now, stage = .conducted now)
    (follows : p.follow stage = some rest) :
    rest.Ensures (fun _ _ => True) (fun x _ => FixesWithin x.request)
      (fun stage _ => stage = .conducting ∨ ∃ now, stage = .conducted now) h := by
  rcases conducts with rfl | ⟨now, rfl⟩
  · cases follows
    refine (conduct_within.ensures_of_safe fun _ _ within => within).mono fun stage _ ends => ?_
    exact Or.inr ends
  · cases follows

theorem within_of_conductor (run : Run p.follow p.ensemble now e hs)
    (present : e.members[i]? = some m)
    (began : p.ensemble.members[i]? = some (.atStage .conducting))
    (fixing : m.thread.rest = .ask (.call (.fixStart start)) next) : start ≤ Stamp.greatest := by
  obtain ⟨begun, there, course⟩ := run.course present
  rw [began, Option.some.injEq] at there
  subst there
  have begins : (Member.atStage (Stage.conducting (σ := σ))).thread.rest.Ensures
      (fun _ _ => True) (fun x _ => FixesWithin x.request)
      (fun stage _ => stage = .conducting ∨ ∃ now, stage = .conducted now) [] := Or.inl rfl
  obtain ⟨-, ensured⟩ := course.ensures begins (fun _ _ _ => follow_within)
    (each_of_mem fun _ _ => trivial)
  rw [fixing] at ensured
  exact (ensured now true trivial).1 start rfl

/-- A simultaneous start is within the range of the clock, however late it is to be. -/
theorem start_le_greatest (simultaneous : p.control.simultaneous = true)
    (run : Run p.follow p.ensemble now e hs) (fixed : e.signals.start = some start) :
    start ≤ Stamp.greatest := by
  induction run with
  | start => cases fixed
  | wait _ _ ih => exact ih fixed
  | @step t e e' hs i run stepped ih =>
    obtain ⟨m, m', s', x, taken, rfl⟩ := Run.exists_stepped stepped
    cases before : e.signals.start with
    | some earlier =>
      rcases OneShot.takes_cases (S := OneShot.start) taken.takes with hands | fires
      · exact ih (hands.value.symm.trans fixed)
      · cases before.symm.trans fires.unset
    | none =>
      -- The thread is the one that fixes the start. A user's would have been told it before.
      obtain ⟨next, fixing⟩ := taken.exists_fixing before fixed
      obtain ⟨begun, began, -⟩ := run.course taken.present
      rcases begins_of_member began with rfl | rfl
      · obtain ⟨st, way, walks⟩ := way_of_run run taken.present began rfl
        rw [fixing] at walks
        obtain ⟨st', steps, -⟩ := walks true
        have called := Standing.exists_calls_of_mayFix rfl rfl way (Standing.mayFix_of_next steps)
        have known := start_of_released run (released_of_calls simultaneous run called)
        simp [before] at known
      · exact within_of_conductor run taken.present began fixing

end RunPlan

/-- No slot and no record is possible. -/
def SampleInvariant.never : SampleInvariant where
  slot _ _ := False
  record _ _ _ := False
  clearSlot _ _ := False
  clearRecord _ _ _ := False

/-- A thread that is to wait for a simultaneous start has no slots as long as there is none. -/
theorem never_sound {σ : Type} {p : RunPlan σ} (simultaneous : p.control.simultaneous = true) :
    SampleInvariant.never.Sound p none fun x _ => x.request.Silent where
  silent := id
  slot_cons := False.elim
  clearSlot_cons := False.elim
  clearRecord_cons := False.elim
  kept _ := ⟨False.elim, fun held _ _ => held, fun held _ => held, fun held _ => held, id⟩
  clears_slot _ _ := id
  clears_record _ _ := id
  fresh_now single := by simp [simultaneous] at single
  fresh_start _ told := by cases told
  reset told := by cases told
  plan _ := id
  planned := False.elim
  takes := False.elim
  opens := False.elim
  transaction := False.elim
  error _ failure := failure.slot.elim

/-- With a simultaneous start, whatever the threads plan and report is dated at or after it, also
when they come into their loops before it. -/
theorem nothing_before_simultaneous_start {σ : Type} {p : RunPlan σ} {now : Stamp}
    {e : Ensemble (Stage σ)} {hs : Nat → History} (simultaneous : p.control.simultaneous = true)
    (run : Ensemble.Run p.follow p.ensemble now e hs) (i : Nat) {x : Exchange} (mem : x ∈ hs i) :
    (∀ background operation intended delay,
      x.event? = some (.planned background operation intended delay) →
        ∃ start, e.signals.start = some start ∧ start ≤ intended) ∧
    ∀ s, x.event? = some (.transaction s) ∨ x.event? = some (.error s) →
      ∃ start, e.signals.start = some start ∧ start ≤ s.invoke ∧ start ≤ s.respond := by
  cases fixed : e.signals.start with
  | none =>
    have sound := never_sound simultaneous
    rw [← fixed] at sound
    obtain ⟨older, -, silent⟩ := (sound.safe_of_run run i).exists_of_mem mem
    refine ⟨fun background operation intended delay planned => ?_, fun s reported => ?_⟩
    · rw [Exchange.eq_of_event planned] at silent
      exact silent.elim
    · rcases reported with reported | reported <;>
      · rw [Exchange.eq_of_event reported] at silent
        exact silent.elim
  | some start =>
    have word := RunPlan.start_le_greatest simultaneous run fixed
    obtain ⟨older, -, late⟩ := (notBefore_of_run run simultaneous fixed word i).exists_of_mem mem
    refine ⟨fun background operation intended delay planned => ?_, fun s reported => ?_⟩
    · rw [Exchange.eq_of_event planned] at late
      exact ⟨start, rfl, late⟩
    · rcases reported with reported | reported <;>
      · rw [Exchange.eq_of_event reported] at late
        exact ⟨start, rfl, late⟩

/-- A plan whose start lies five nanoseconds ahead. The operation fails at once, without having
recorded a time. -/
def RunPlan.startingLater : RunPlan Unit :=
  { workload :=
      Workload.single (fun _ => .created ()) ⟨"", [], 0, .manual, true, .fixed Span.zero⟩
        fun _ => .fails () (.plain "refused")
    control := { RunControl.ofMode (.cycles 0 1 0) with simultaneous := true, startDelay := ⟨5⟩ }
    seed := 0 }

/-- At zero, a thread reports a failure of the time at which it is to start. -/
theorem nothing_before_simultaneous_start_startingLater :
    ∃ now e hs, Ensemble.Run RunPlan.startingLater.follow RunPlan.startingLater.ensemble now e hs ∧
      e.signals.start = some 5 ∧ ∃ x ∈ hs 0, ∃ s, x.time = 0 ∧ x.event? = some (.error s) ∧
        5 ≤ s.invoke ∧ 5 ≤ s.respond := by
  let order : List (Stamp × Nat) :=
    List.replicate 3 (0, 0) ++ List.replicate 10 (0, 1) ++ List.replicate 19 (0, 0)
  have passed : Ensemble.Run.reached (fun e hs => decide (e.signals.start = some 5) &&
      (hs 0).any fun x => decide (x.time = 0 ∧
        x.event? = some (.error ⟨0, .steadyState, 5, 5, 5, 0⟩)))
      (Ensemble.Run.play RunPlan.startingLater.follow order 0 RunPlan.startingLater.ensemble
        fun _ => []) = true := by
    decide +kernel
  obtain ⟨now, e, hs, run, passed⟩ := Ensemble.Run.exists_of_reached passed
  obtain ⟨fixed, passed⟩ := Bool.and_eq_true_iff.mp passed
  obtain ⟨x, mem, passed⟩ := List.any_eq_true.mp passed
  obtain ⟨early, reported⟩ := of_decide_eq_true passed
  obtain ⟨-, dated⟩ := nothing_before_simultaneous_start rfl run 0 mem
  obtain ⟨start, known, first, second⟩ := dated _ (Or.inr reported)
  obtain rfl : start = 5 := Option.some.inj (known.symm.trans (of_decide_eq_true fixed))
  exact ⟨now, e, hs, run, known, x, mem, _, early, reported, first, second⟩

end LoadGen
