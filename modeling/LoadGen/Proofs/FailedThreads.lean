import LoadGen.Proofs.Launch
import LoadGen.Proofs.Playback
import LoadGen.Proofs.RunOfPlan
import LoadGen.Proofs.SignalAgreement
import LoadGen.RunReport

namespace LoadGen

open Program History

/-- The thread has tried to abort the run. -/
def History.Aborts (h : History) : Prop := ∃ x ∈ h, ∃ cause, x.request = .call (.abort cause)

theorem History.Aborts.cons {h : History} (aborts : h.Aborts) (x : Exchange) : Aborts (x :: h) := by
  obtain ⟨y, mem, asks⟩ := aborts
  exact ⟨y, List.mem_cons_of_mem x mem, asks⟩

/-- The thread breaks down outside the handlers: while it is initialized, or in the hook after the
run, which belongs to the first thread. -/
def RunPlan.BreaksDown {σ : Type} (p : RunPlan σ) (thread : Nat) : Prop :=
  p.initialization thread = .panicked ∨
    (thread = 0 ∧ ∃ hook state, p.workload.afterRun = some hook ∧ (hook state).2 = .panicked)

/-- What an error of a thread goes with, once it has left its loop. -/
def Stage.Answered {σ : Type} (p : RunPlan σ) : Stage σ → History → Prop
  | .ended _ error, h => error.isSome → h.Aborts
  | .finished result, h => result.error.isSome → h.Aborts ∨
    (result.error = some (.panicked result.thread) ∧ p.BreaksDown result.thread)
  | _, _ => True

/-- Whatever the program is told, every error that it ends with is answered. -/
def RunPlan.Answers {σ : Type} (p : RunPlan σ) (q : Program (Stage σ)) (h : History) : Prop :=
  q.Ensures (fun _ _ => True) (fun _ _ => True) (Stage.Answered p) h

namespace RunPlan

variable {σ α : Type} {p : RunPlan σ} {h : History}

theorem answered_of_aborts (aborts : h.Aborts) (stage : Stage σ) : stage.Answered p h := by
  cases stage with
  | ended u error => exact fun _ => aborts
  | finished result => exact fun _ => Or.inl aborts
  | _ => trivial

/-- After an attempt to abort the run, nothing can be wrong any more. -/
theorem answers_of_aborts (aborts : h.Aborts) (q : Program (Stage σ)) : p.Answers q h :=
  (ensures_of_lasting (fun x _ aborts => aborts.cons x) aborts).mono
    fun stage _ aborts => answered_of_aborts aborts stage

/-- What a program does first does not matter if what follows is always answered. -/
theorem answers_bind {q : Program α} {f : α → Program (Stage σ)}
    (rest : ∀ a h, p.Answers (f a) h) : p.Answers (q >>= f) h := by
  have ends : q.Ensures (fun _ _ => True) (fun _ _ => True) (fun _ _ => True) h :=
    ensures_of_lasting (fun _ _ => id) trivial
  exact ensures_bind.mpr (ends.mono fun a h _ => rest a h)

theorem answers_abort {cause : AbortCause} {f : Bool → Program (Stage σ)} :
    p.Answers (abort cause >>= f) h := by
  refine ensures_bind.mpr fun t first _ => ⟨trivial, answers_of_aborts ?_ _⟩
  exact ⟨_, List.mem_cons_self, cause, rfl⟩

end RunPlan

open RunPlan

namespace VirtualUser

variable {σ : Type} {p : RunPlan σ}

theorem finish_answers (u : VirtualUser σ) (h : History) : p.Answers (u.finish none) h :=
  answers_bind fun _ _ => nofun

theorem fail_answers (u : VirtualUser σ) (operation : Nat) (name : String) (cause : ErrorChain)
    (h : History) : p.Answers (u.fail operation name cause) h :=
  answers_abort

theorem failBinding_answers (u : VirtualUser σ) (name message : String) (events : List Event)
    (h : History) : p.Answers (u.failBinding name message events) h :=
  answers_abort

theorem proceed_answers (u : VirtualUser σ) (slots : Slots) (slot : Slot) (h : History) :
    p.Answers (u.proceed slots slot) h := by
  unfold proceed
  split
  next => exact u.finish_answers h
  next => trivial

theorem accountSuccess_answers (u : VirtualUser σ) (slots : Slots) (slot : Slot)
    (pending : Pending) (name : String) (h : History) :
    p.Answers (u.accountSuccess slots slot pending name) h := by
  unfold accountSuccess
  cases u.timing.complete with
  | mk record fault =>
    cases fault with
    | some fault => exact fail_answers _ _ _ _ h
    | none =>
      refine answers_bind fun _ _ => answers_bind fun classified _ => ?_
      exact answers_bind fun _ _ => answers_bind fun _ _ => proceed_answers _ _ _ _

theorem reportFailure_answers (u : VirtualUser σ) (slots : Slots) (slot : Slot) (pending : Pending)
    (cause : ErrorChain) (repair : Timing.Repair) (h : History) :
    p.Answers (u.reportFailure slots slot pending cause repair) h := by
  unfold reportFailure
  split
  next => exact answers_bind fun _ _ => trivial
  next =>
    refine answers_bind fun classified _ => answers_bind fun _ _ => answers_bind fun _ h => ?_
    split
    next => exact answers_bind fun _ _ => proceed_answers _ _ _ _
    next => exact proceed_answers _ _ _ h

theorem accountFailure_answers (u : VirtualUser σ) (slots : Slots) (slot : Slot)
    (pending : Pending) (name : String) (cause : ErrorChain) (h : History) :
    p.Answers (u.accountFailure slots slot pending name cause) h := by
  unfold accountFailure
  split
  next => exact u.fail_answers _ _ _ h
  next =>
    refine answers_bind fun now h => ?_
    dsimp only
    split
    next => exact answers_bind fun _ _ => reportFailure_answers _ _ _ _ _ _ _
    next => exact reportFailure_answers _ _ _ _ _ _ h

theorem account_answers (u : VirtualUser σ) (slots : Slots) (slot : Slot) (pending : Pending)
    (operation : Operation) (ending : Ending) (h : History) :
    p.Answers (u.account slots slot pending operation ending) h := by
  unfold account
  cases ending with
  | panicked => exact u.failBinding_answers _ _ _ h
  | succeeded =>
    refine answers_bind fun _ _ => answers_bind fun v _ => answers_bind fun aborted h => ?_
    cases aborted with
    | true => exact v.finish_answers h
    | false => exact v.accountSuccess_answers _ _ _ _ h
  | failed cause =>
    refine answers_bind fun _ _ => answers_bind fun aborted h => ?_
    cases aborted with
    | true => exact u.finish_answers h
    | false => exact u.accountFailure_answers _ _ _ _ _ h

theorem invoke_answers (u : VirtualUser σ) (w : Workload σ) (slots : Slots) (slot : Slot)
    (pending : Pending) (h : History) : p.Answers (u.invoke w slots slot pending) h := by
  unfold invoke
  split
  next => exact u.finish_answers h
  next =>
    split
    next =>
      refine answers_bind fun _ _ => answers_bind fun result h => ?_
      obtain ⟨v, wait⟩ := result
      cases wait with
      | cancelled => exact v.finish_answers h
      | reached =>
        exact answers_bind fun _ _ => answers_bind fun _ _ => account_answers _ _ _ _ _ _ _
    next => exact u.failBinding_answers _ _ _ h

theorem iterate_answers (u : VirtualUser σ) (w : Workload σ) (load : Option LoadSchedule)
    (slots : Slots) (h : History) : p.Answers (u.iterate w load slots) h := by
  refine answers_bind fun aborted h => ?_
  cases aborted with
  | true => exact u.finish_answers h
  | false =>
    refine answers_bind fun result h => ?_
    obtain ⟨policy, gate⟩ := result
    cases gate with
    | stop | cancelled => exact finish_answers _ h
    | resumed => exact answers_bind fun _ _ => answers_bind fun _ _ => trivial
    | proceed =>
      refine answers_bind fun _ h => ?_
      dsimp only
      split
      next => exact finish_answers _ h
      next => exact invoke_answers _ _ _ _ _ h

theorem start_answers (u : VirtualUser σ) (w : Workload σ) (h : History) :
    p.Answers (u.start w) h := by
  refine answers_bind fun _ _ => answers_bind fun prepared h => ?_
  cases prepared with
  | none => exact nofun
  | some policy => exact answers_bind fun _ _ => answers_bind fun _ _ => trivial

end VirtualUser

namespace RunPlan

variable {σ : Type} {p : RunPlan σ}

/-- A thread whose initialization fails tries to abort the run; one that breaks down in it does
not. -/
theorem settle_answers (id : Nat) (h : History) :
    p.Answers (p.settle id (p.initialization id)) h := by
  cases outcome : p.initialization id with
  | created state => exact answers_bind fun _ _ => trivial
  | failed cause => exact ensures_bind.mpr fun _ _ _ => ⟨trivial, answers_abort⟩
  | panicked => exact answers_bind fun _ _ _ => Or.inr ⟨rfl, Or.inl outcome⟩

theorem launch_answers (id : Nat) (h : History) : p.Answers (p.launch id) h := by
  rcases p.launch_cases id with same | ⟨same, -⟩
  · rw [same]
    exact answers_bind fun _ h => settle_answers id h
  · rw [same]
    exact settle_answers id h

/-- The end of a thread keeps its error, unless the hook after the run breaks it down. -/
theorem conclude_answers {u : VirtualUser σ} {error : Option RunError} {h : History}
    (answered : (Stage.ended u error).Answered p h) : p.Answers (p.conclude u error) h := by
  have kept : ∀ {h} completed, (error.isSome → h.Aborts) →
      (Stage.finished ⟨u.id, completed, error⟩ : Stage σ).Answered p h :=
    fun _ answered failed => Or.inl (answered failed)
  unfold conclude
  split
  next hook first there =>
    simp only [Answers, ensures_bind, ensures_emit]
    refine fun t _ => ⟨trivial, ?_⟩
    have answered : error.isSome → Aborts (⟨t, .emit .hookAfter, ()⟩ :: h) :=
      fun failed => (answered failed).cons _
    split
    next => exact kept true answered
    next cause _ =>
      simp only [ensures_bind, ensures_emit]
      exact fun t' _ => ⟨trivial, kept true fun failed => (answered failed).cons _⟩
    next broken => exact fun _ => Or.inr ⟨rfl, Or.inr ⟨first, hook, u.state, there, broken⟩⟩
  next => exact kept true answered

theorem follow_answers {stage : Stage σ} {next : Program (Stage σ)} {h : History}
    (answered : stage.Answered p h) (follows : p.follow stage = some next) : p.Answers next h := by
  cases stage with
  | starting id =>
    cases follows
    exact launch_answers id h
  | ready u =>
    cases follows
    exact u.start_answers p.workload h
  | iterating u slots =>
    cases follows
    exact u.iterate_answers p.workload p.control.load slots h
  | ended u error =>
    cases follows
    exact conclude_answers answered
  | conducting =>
    cases follows
    exact answers_bind fun _ _ => answers_bind fun _ _ => answers_bind fun _ _ =>
      answers_bind fun _ _ => trivial
  | finished result => cases follows
  | conducted now => cases follows

variable {e : Ensemble (Stage σ)} {now : Stamp} {hs : Nat → History}

theorem answered_of_run (run : Ensemble.Run p.follow p.ensemble now e hs) {i : Nat}
    {m : Member (Stage σ)} (present : e.members[i]? = some m) {stage : Stage σ}
    (staged : m.stage? = some stage) : stage.Answered p (hs i) := by
  have possible : (hs i).Each fun _ _ => True := each_of_mem fun _ _ => trivial
  obtain ⟨-, holds⟩ := ensures_of_run (Stage.Answered p) trivial trivial
    (fun _ _ _ answered follows => follow_answers answered follows) run possible
  have answers := holds m present
  rw [Member.thread_of_stage staged] at answers
  exact answers

end RunPlan

/-- A thread of a report is one that has come to its end in the run. -/
theorem RunReport.exists_member {σ : Type} {p : RunPlan σ} {runId : String}
    {e : Ensemble (Stage σ)} {now : Stamp} {r : ThreadReport}
    (mem : r ∈ (ofEnsemble p runId e now).threads) :
    ∃ i : Nat, ∃ m : Member (Stage σ), ∃ result : ThreadEnd, e.members[i]? = some m ∧
      m.stage? = some (.finished result) ∧ r.thread = result.thread ∧ r.error = result.error := by
  obtain ⟨m, there, report⟩ := List.mem_filterMap.mp mem
  obtain ⟨i, within, rfl⟩ := List.mem_iff_getElem.mp there
  obtain ⟨result, ends, rfl⟩ := Option.map_eq_some_iff.mp report
  obtain ⟨stage, staged, finished⟩ := Option.bind_eq_some_iff.mp ends
  cases stage with
  | finished result' =>
    cases finished
    exact ⟨i, _, result, by simp, staged, rfl, rfl⟩
  | _ => cases finished

/-- A thread with an error fails the run, unless it has broken down outside the handlers. -/
theorem failed_thread_fails_run {σ : Type} (p : RunPlan σ) {now : Stamp}
    {e : Ensemble (Stage σ)} {hs : Nat → History}
    (run : Ensemble.Run p.follow p.ensemble now e hs) (runId : String) (ending : Stamp)
    {r : ThreadReport} (mem : r ∈ (RunReport.ofEnsemble p runId e ending).threads)
    (failed : r.error.isSome) :
    (RunReport.ofEnsemble p runId e ending).error?.isSome ∨
      (r.error = some (.panicked r.thread) ∧ p.BreaksDown r.thread) := by
  obtain ⟨i, m, result, present, staged, thread, error⟩ := RunReport.exists_member mem
  rw [error] at failed
  rw [thread, error]
  refine (RunPlan.answered_of_run run present staged failed).imp_left fun aborts => ?_
  obtain ⟨x, mem, cause, asks⟩ := aborts
  have raised := ((run.recorded p.fresh).said i x mem).tried cause asks
  simpa [RunReport.error?, RunReport.ofEnsemble] using raised

/-- A plan of one thread whose instance is created so. -/
def RunPlan.creating (creation : Creation Unit) : RunPlan Unit :=
  { workload := Workload.single (fun _ => creation)
      ⟨"", [], 0, .automatic, true, .fixed Span.zero⟩ fun _ => .succeeds ()
    control := .ofMode (.cycles 0 1 0)
    seed := 0 }

/-- A thread that panics while its instance is created has an error, and the run passes. -/
theorem broken_thread_passes : ∃ now e hs,
    Ensemble.Run (RunPlan.creating .panicked).follow (RunPlan.creating .panicked).ensemble now e
        hs ∧
      let report := RunReport.ofEnsemble (RunPlan.creating .panicked) "" e now
      report.threads.map (·.error) = [some (.panicked 0)] ∧ report.error? = none := by
  let order : List (Stamp × Nat) := List.replicate 2 (0, 0) ++ List.replicate 10 (0, 1)
  have passed : Ensemble.Run.reached (fun e _ =>
      let report := RunReport.ofEnsemble (RunPlan.creating .panicked) "" e 0
      decide (report.threads.map (·.error) = [some (.panicked 0)] ∧ report.error? = none))
      (Ensemble.Run.play (RunPlan.creating .panicked).follow order 0
        (RunPlan.creating .panicked).ensemble fun _ => []) = true := by
    decide +kernel
  obtain ⟨now, e, hs, run, passed⟩ := Ensemble.Run.exists_of_reached passed
  exact ⟨now, e, hs, run, of_decide_eq_true passed⟩

/-- A thread whose instance is refused fails the run. -/
theorem failed_thread_fails_run_refused : ∃ now e hs r,
    Ensemble.Run (RunPlan.creating (.failed (.plain "refused"))).follow
        (RunPlan.creating (.failed (.plain "refused"))).ensemble now e hs ∧
      let report := RunReport.ofEnsemble (RunPlan.creating (.failed (.plain "refused"))) "" e now
      r ∈ report.threads ∧ r.error = some (.initialization 0 "" (.plain "refused")) ∧
        report.error?.isSome := by
  let p := RunPlan.creating (.failed (.plain "refused"))
  let order : List (Stamp × Nat) := List.replicate 12 (0, 0) ++ List.replicate 10 (0, 1)
  have passed : Ensemble.Run.reached (fun e _ => decide
      ((RunReport.ofEnsemble p "" e 0).threads.map (·.error) =
        [some (.initialization 0 "" (.plain "refused"))]))
      (Ensemble.Run.play p.follow order 0 p.ensemble fun _ => []) = true := by
    decide +kernel
  obtain ⟨now, e, hs, run, passed⟩ := Ensemble.Run.exists_of_reached passed
  have errors : (RunReport.ofEnsemble p "" e now).threads.map (·.error) =
      [some (.initialization 0 "" (.plain "refused"))] := of_decide_eq_true passed
  obtain ⟨r, mem, error⟩ := List.mem_map.mp (errors ▸ List.mem_singleton_self _)
  have fails := failed_thread_fails_run p run "" now mem (by simp [error])
  refine ⟨now, e, hs, r, run, mem, error, fails.resolve_right fun broken => ?_⟩
  simp [error] at broken

end LoadGen
