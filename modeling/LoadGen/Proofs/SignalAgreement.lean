import LoadGen.Proofs.Sections

namespace LoadGen

open Ensemble

variable {α β : Type} {follow : α → Option (Program α)} {first e e' : Ensemble α}
  {i threads : Nat} {now later : Stamp} {s' : Signals} {m m' : Member α} {x : Exchange}
  {hs hs' : Nat → History}

/-- The signal has been given at most once, and all that threads are told of it is the value that
one call has given. -/
structure OneShot.Agreed (S : OneShot β) (told : Exchange → Option β) (e : Ensemble α)
    (hs : Nat → History) : Prop where
  once : ∑ i ∈ Finset.range e.members.size, (hs i).countP (fun x => (S.given x).isSome) ≤ 1
  same : ∀ i, ∀ x ∈ hs i, ∀ b, told x = some b ∨ S.given x = some b → S.value e.signals = some b
  gave : ∀ b, S.value e.signals = some b → S.Gave e hs b

/-- What a thread can be told while the flag of the abort is raised. -/
def Exchange.InAbort : Exchange → Prop
  | ⟨_, .call .isAborted, aborted⟩ => aborted = true
  | ⟨_, .call .abortCause, cause⟩ => Option.isSome cause
  | ⟨_, .call .abortTime, t⟩ => Option.isSome t
  | _ => True

/-- Whoever has waited for the start is told that there is none. -/
def Exchange.Unstarted : Exchange → Prop
  | ⟨_, .call .awaitStart, start⟩ => start = (none : Option Stamp)
  | _ => True

namespace Ensemble.Run

theorem agreed (fresh : Fresh first threads) (run : Run follow first now e hs) (S : OneShot β)
    {told : Exchange → Option β}
    (faithful : ∀ i, ∀ x ∈ hs i, ∀ b, told x = some b → S.value e.signals = some b) :
    S.Agreed told e hs := by
  have kept := OneShot.kept_of_run (S := S) fresh run
  refine ⟨kept.once, fun i x mem b told => ?_, fun b set => kept.gave set⟩
  rcases told with told | given
  · exact faithful i x mem b told
  · exact kept.given i x mem b given

theorem recorded (fresh : Fresh first threads) (run : Run follow first now e hs) :
    Protocol.record.Kept now e hs :=
  fresh.kept (fun _ raised => by cases raised) run

theorem start_agreed (fresh : Fresh first threads) (run : Run follow first now e hs) :
    OneShot.start.Agreed Exchange.start? e hs :=
  run.agreed fresh _ fun _ _ mem _ told => run.told_start fresh mem told

theorem abort_agreed (fresh : Fresh first threads) (run : Run follow first now e hs) :
    OneShot.abort.Agreed Exchange.cause? e hs :=
  run.agreed fresh _ fun i x mem cause told => ((run.recorded fresh).said i x mem).told cause told

theorem record_grows (fresh : Fresh first threads) (run : Run follow first now e hs)
    {x : Option Exchange} (stepped : Stepped follow i now e m m' s' x) :
    Call.RecordGrows e.signals s' := by
  have kept := run.recorded fresh
  have allowed := kept.allows i m stepped.present
  obtain ⟨rfl | grown, -⟩ := Protocol.takes_kept kept.good allowed stepped.takes
  · exact .of_same rfl rfl rfl fun _ => id
  · exact grown

theorem inAbort_of_stepped (fresh : Fresh first threads) (run : Run follow first now e hs)
    (raised : e.signals.aborted) (stepped : Stepped follow i now e m m' s' (some x)) :
    x.InAbort := by
  obtain ⟨present, takes, -⟩ := stepped
  have caused : e.signals.cause.isSome := (run.recorded fresh).good raised
  cases takes with
  | emit => trivial
  | @answer thread c point reply next events s' stands answered =>
    cases c with
    | isAborted =>
      cases answered
      exact raised
    | abortCause =>
      cases point with
      | enter =>
        simp only [Call.Answers, Call.step, Call.guarded, Call.enterSection] at answered
        split at answered <;> cases answered
      | look =>
        cases answered
        exact caused
    | abortTime =>
      cases point with
      | enter =>
        simp only [Call.Answers, Call.step, Call.guarded, Call.enterSection] at answered
        split at answered <;> cases answered
      | look =>
        cases answered
        cases stands
        refine run.stamped_of_inside fresh caused present rfl fun c point next same => ?_
        cases same
    | _ => trivial

/-- Nobody is told a start that is not fixed, or that an abort forestalls. -/
theorem unstarted_of_stepped (barred : e.signals.start.isSome → e.signals.cause.isSome)
    (stepped : Stepped follow i now e m m' s' (some x)) : x.Unstarted := by
  obtain ⟨-, takes, -⟩ := stepped
  cases takes with
  | emit => trivial
  | @answer thread c point reply next events s' stands answered =>
    cases c with
    | awaitStart =>
      cases point with
      | look =>
        simp only [Call.Answers, Call.step, Call.stepAwait] at answered
        split at answered
        next =>
          cases answered
          rfl
        next unset set =>
          rw [set, unset] at barred
          cases barred rfl
        next => cases answered
      | _ =>
        simp only [Call.Answers, Call.step, Call.stepAwait, Call.enterSection] at answered
        split at answered <;> cases answered
    | _ => trivial

/-- Once the flag is raised it stays so, and every thread that asks is told of the abort. -/
theorem flag_lasts (fresh : Fresh first threads) (run : Run follow first now e hs)
    (raised : e.signals.aborted) (goes : Continues follow now e hs later e' hs') :
    e'.signals.aborted ∧ ∀ i, ∃ new, hs' i = new ++ hs i ∧ ∀ x ∈ new, x.InAbort := by
  refine run.holds_on (P := fun _ e _ => e.signals.aborted = true) raised (fun raised _ => raised)
    (fun run raised stepped => ⟨?_, fun y done => ?_⟩) goes
  · exact (run.record_grows fresh stepped).flag raised
  · cases done
    exact run.inAbort_of_stepped fresh raised stepped

/-- Once the cause of an abort is recorded, nobody who waits for the start is told one. -/
theorem cause_lasts (fresh : Fresh first threads) (run : Run follow first now e hs)
    (aborted : e.signals.cause.isSome) (goes : Continues follow now e hs later e' hs') :
    e'.signals.cause = e.signals.cause ∧
      ∀ i, ∃ new, hs' i = new ++ hs i ∧ ∀ x ∈ new, x.Unstarted := by
  obtain ⟨cause, set⟩ := Option.isSome_iff_exists.mp aborted
  rw [set]
  refine run.holds_on (P := fun _ e _ => e.signals.cause = some cause) set (fun set _ => set)
    (fun run set stepped => ⟨?_, fun y done => ?_⟩) goes
  · exact (run.record_grows fresh stepped).value cause set
  · cases done
    exact unstarted_of_stepped (fun _ => Option.isSome_of_eq_some set) stepped

end Ensemble.Run

/-- What all threads can rely on about the signals, whoever uses them and in whatever order. -/
structure SignalsAgree (follow : α → Option (Program α)) (now : Stamp) (e : Ensemble α)
    (hs : Nat → History) : Prop where
  start : OneShot.start.Agreed Exchange.start? e hs
  abort : OneShot.abort.Agreed Exchange.cause? e hs
  found : ∀ i, ∀ x ∈ hs i, x.findsAbort → e.signals.aborted
  caused : e.signals.aborted → e.signals.cause.isSome
  stamped : e.signals.aborted → e.signals.holder = none → e.signals.abortTime.isSome
  flag : e.signals.aborted → ∀ {later e' hs'}, Continues follow now e hs later e' hs' →
    e'.signals.aborted ∧ ∀ i, ∃ new, hs' i = new ++ hs i ∧ ∀ x ∈ new, x.InAbort
  unstarted : e.signals.cause.isSome → ∀ {later e' hs'}, Continues follow now e hs later e' hs' →
    ∀ i, ∃ new, hs' i = new ++ hs i ∧ ∀ x ∈ new, x.Unstarted

theorem Ensemble.Run.signalsAgree (fresh : Run.Fresh first threads)
    (run : Run follow first now e hs) : SignalsAgree follow now e hs where
  start := run.start_agreed fresh
  abort := run.abort_agreed fresh
  found i x mem := ((run.recorded fresh).said i x mem).found
  caused := (run.recorded fresh).good
  stamped raised free := run.stamped_of_free fresh ((run.recorded fresh).good raised) free
  flag raised _ _ _ goes := run.flag_lasts fresh raised goes
  unstarted aborted _ _ _ goes := (run.cause_lasts fresh aborted goes).2

end LoadGen
