import LoadGen.Proofs.Latch

namespace LoadGen

open Program

namespace History

def Arrived (h : History) : Prop := ∃ x ∈ h, x.arrives

/-- The thread has waited for the start, and there was one. -/
def Released (h : History) : Prop := ∃ x ∈ h, ¬ x.Unstarted

variable {h : History} {x : Exchange}

theorem Arrived.cons (arrived : h.Arrived) : Arrived (x :: h) := by
  obtain ⟨y, mem, arrives⟩ := arrived
  exact ⟨y, List.mem_cons_of_mem x mem, arrives⟩

theorem Released.cons (released : h.Released) : Released (x :: h) := by
  obtain ⟨y, mem, told⟩ := released
  exact ⟨y, List.mem_cons_of_mem x mem, told⟩

theorem Released.exists_start (released : h.Released) :
    ∃ x ∈ h, ∃ t, x.start? = some t := by
  obtain ⟨⟨t, request, reply⟩, mem, told⟩ := released
  refine ⟨_, mem, ?_⟩
  cases request with
  | emit e => exact absurd trivial told
  | call c =>
    cases c with
    | awaitStart => exact Option.ne_none_iff_exists'.mp told
    | _ => exact absurd trivial told

end History

open History

namespace RunPlan

variable {σ : Type} (p : RunPlan σ)

/-- What a thread has done in its initialization, by the outcome: a success includes the hook that
is the thread's own, and a failure has aborted the run. -/
def Prepared (id : Nat) (h : History) : Prop :=
  match p.initialization id with
  | .created _ => id = 0 → p.workload.beforeRun.isSome → ∃ x ∈ h, x.event? = some .hookBefore
  | .failed cause => ∃ x ∈ h, x.request = .call (.abort ⟨id, "", cause.full⟩)
  | .panicked => True

/-- The thread has come to the end of its initialization, after what is part of it. -/
def HasInitialized (id : Nat) (h : History) : Prop :=
  ∃ x older, x :: older <:+ h ∧ x.arrives ∧ p.Prepared id older

section Preparation

/-- The first arrival of a thread comes after all of its initialization. -/
def ArrivesPrepared (id : Nat) (x : Exchange) (older : History) : Prop :=
  older.Arrived ∨ (x.arrives → p.Prepared id older)

variable {p} {env : Exchange → History → Prop} {id : Nat} {h : History}

theorem hasInitialized_of_arrived (each : h.Each (p.ArrivesPrepared id)) (arrived : h.Arrived) :
    p.HasInitialized id h := by
  induction h with
  | nil =>
    obtain ⟨x, mem, -⟩ := arrived
    cases mem
  | cons x h ih =>
    -- Only the first arrival is known to come after the initialization.
    by_cases before : Arrived h
    · obtain ⟨y, older, part, first⟩ := ih each.2 before
      exact ⟨y, older, part.trans (List.suffix_cons x h), first⟩
    · obtain ⟨y, mem, arrives⟩ := arrived
      have latest : y = x :=
        (List.mem_cons.mp mem).resolve_right fun old => before ⟨y, old, arrives⟩
      subst latest
      exact ⟨y, h, List.suffix_rfl, arrives, (each.1.resolve_left before) arrives⟩

theorem arrives_prepared {t : Stamp} {reply : (Request.call .arrive).Reply}
    (prepared : p.Prepared id h) : p.ArrivesPrepared id ⟨t, .call .arrive, reply⟩ h ∧
      Arrived (⟨t, .call .arrive, reply⟩ :: h) :=
  ⟨Or.inr fun _ => prepared, _, List.mem_cons_self, rfl⟩

theorem failInitialization_prepared {cause : ErrorChain}
    (failed : p.initialization id = .failed cause) :
    (p.failInitialization id cause).Ensures env (p.ArrivesPrepared id) (fun _ => Arrived) h := by
  simp only [failInitialization, ensures_bind, ensures_emit, ensures_abort]
  refine fun t _ => ⟨Or.inr (by cases ·), fun t' first _ => ⟨Or.inr (by cases ·), ?_⟩⟩
  refine fun t'' _ _ => arrives_prepared ?_
  rw [Prepared, failed]
  exact ⟨_, List.mem_cons_self, rfl⟩

theorem settle_prepared (hooked : ∀ state, p.initialization id = .created state →
      id = 0 → p.workload.beforeRun.isSome → ∃ x ∈ h, x.event? = some .hookBefore) :
    (p.settle id (p.initialization id)).Ensures env (p.ArrivesPrepared id) (fun _ => Arrived)
      h := by
  cases outcome : p.initialization id with
  | created state =>
    refine fun t _ _ => arrives_prepared ?_
    rw [Prepared, outcome]
    exact hooked state outcome
  | failed cause => exact failInitialization_prepared outcome
  | panicked =>
    refine fun t _ _ => arrives_prepared ?_
    rw [Prepared, outcome]
    trivial

theorem launch_prepared :
    (p.launch id).Ensures env (p.ArrivesPrepared id) (fun _ => Arrived) h := by
  rcases p.launch_cases id with same | ⟨same, unhooked⟩
  · simp only [same, ensures_bind, ensures_emit]
    refine fun t _ => ⟨Or.inr (by cases ·), settle_prepared fun _ _ _ _ => ?_⟩
    exact ⟨_, List.mem_cons_self, rfl⟩
  · rw [same]
    refine settle_prepared fun state created first hooked => ?_
    simp [unhooked state created first] at hooked

/-- Between two programs, the thread is still to be initialized or has arrived. -/
def Launching (id : Nat) (stage : Stage σ) (h : History) : Prop :=
  stage = .starting id ∨ h.Arrived

theorem follow_prepared {stage : Stage σ} {next : Program (Stage σ)}
    (launching : Launching id stage h) (follows : p.follow stage = some next) :
    next.Ensures env (p.ArrivesPrepared id) (Launching id) h := by
  rcases launching with rfl | arrived
  · cases follows
    exact launch_prepared.mono fun _ _ => Or.inr
  · exact (ensures_of_kept (fun x h arrived => ⟨Or.inl arrived, arrived.cons⟩) arrived).mono
      fun _ _ => Or.inr

end Preparation

section Release

def CallsReleased (x : Exchange) (older : History) : Prop := x.calls → older.Released

/-- What holds of a thread that has not been released. -/
def Holding (p : RunPlan σ) : Stage σ → Prop
  | .ready u => u.policy = p.control.policy
  | .iterating .. => False
  | _ => True

variable {p} {env : Exchange → History → Prop} {h : History}

theorem callsReleased_of_idle {x : Exchange} (idle : x.request.Idle) : CallsReleased x h := by
  intro calls
  obtain ⟨t, request, reply⟩ := x
  cases request with
  | call c => cases calls
  | emit e =>
    cases e with
    | called => cases idle
    | _ => cases calls

theorem ensures_of_released {next : Program (Stage σ)} (released : h.Released) :
    next.Ensures env CallsReleased (fun stage h => h.Released ∨ p.Holding stage) h :=
  (ensures_of_kept (fun _ _ released => ⟨fun _ => released, released.cons⟩) released).mono
    fun _ _ => Or.inl

theorem prepare_released (simultaneous : p.control.simultaneous = true) :
    p.control.policy.prepare.Ensures env CallsReleased
      (fun prepared h => prepared.isSome → h.Released) h := by
  have told : ∀ {t : Stamp} {start : Option Stamp} {f : Stamp → Policy} {h : History},
      (start.map f).isSome → Released (⟨t, .call .awaitStart, start⟩ :: h) := by
    intro t start f h present
    refine ⟨_, List.mem_cons_self, fun untold => ?_⟩
    obtain rfl : start = none := untold
    cases present
  unfold RunControl.policy
  cases p.control.mode <;>
    simp only [Policy.prepare, CyclePolicy.ofLengths, TimePolicy.ofLengths, simultaneous, if_true,
      ensures_bind, ensures_awaitStart, ensures_pure] <;>
    exact fun t start _ => ⟨(by cases ·), told⟩

theorem start_released (simultaneous : p.control.simultaneous = true) {u : VirtualUser σ}
    (policy : u.policy = p.control.policy) :
    (u.start p.workload).Ensures env CallsReleased
      (fun stage h => h.Released ∨ p.Holding stage) h := by
  simp only [VirtualUser.start, ensures_bind, ensures_enrol, policy]
  refine fun t _ => ⟨(by cases ·), (prepare_released simultaneous).mono ?_⟩
  intro prepared h released
  cases prepared with
  | none => exact Or.inr trivial
  | some policy => exact ensures_of_released (released rfl)

theorem follow_released (simultaneous : p.control.simultaneous = true) {stage : Stage σ}
    {next : Program (Stage σ)} (holds : h.Released ∨ p.Holding stage)
    (follows : p.follow stage = some next) :
    next.Ensures env CallsReleased (fun stage h => h.Released ∨ p.Holding stage) h := by
  rcases holds with released | holding
  · exact ensures_of_released released
  · have idle : ∀ {result : Stage σ → Prop}, next.Only Request.Idle result →
        (∀ stage, result stage → p.Holding stage) →
        next.Ensures env CallsReleased (fun stage h => h.Released ∨ p.Holding stage) h := by
      intro result only holds
      exact (only.ensures_of_safe fun x h idle => callsReleased_of_idle idle).mono
        fun stage h ends => Or.inr (holds stage ends)
    cases stage with
    | starting id =>
      cases follows
      refine idle (p.launch_only id) fun stage launched => ?_
      rcases launched with ⟨state, rfl⟩ | ⟨result, rfl⟩
      · rfl
      · trivial
    | ready u =>
      cases follows
      exact start_released simultaneous holding
    | iterating u slots => cases holding
    | ended u error =>
      cases follows
      refine idle (p.conclude_only u error) fun stage ends => ?_
      obtain ⟨result, rfl⟩ := ends
      trivial
    | conducting =>
      cases follows
      refine idle p.conduct_only fun stage ends => ?_
      obtain ⟨now, rfl⟩ := ends
      trivial
    | finished result => cases follows
    | conducted now => cases follows

end Release

open Ensemble

variable {p} {e : Ensemble (Stage σ)} {now : Stamp} {hs : Nat → History} {i id : Nat}

theorem released_of_calls (simultaneous : p.control.simultaneous = true)
    (run : Run p.follow p.ensemble now e hs) (called : ∃ x ∈ hs i, x.calls) :
    (hs i).Released := by
  obtain ⟨x, mem, calls⟩ := called
  have possible : (hs i).Each fun _ _ => True := each_of_mem fun _ _ => trivial
  obtain ⟨each, -⟩ := ensures_of_run (fun stage h => h.Released ∨ p.Holding stage)
    (Or.inr trivial) (Or.inr trivial) (fun _ _ _ => follow_released simultaneous) run possible
  obtain ⟨older, part, released⟩ := each.exists_of_mem mem
  obtain ⟨y, old, told⟩ := released calls
  exact ⟨y, part.subset (List.mem_cons_of_mem x old), told⟩

theorem start_of_released (run : Run p.follow p.ensemble now e hs) (released : (hs i).Released) :
    e.signals.start.isSome := by
  obtain ⟨x, mem, t, told⟩ := released.exists_start
  exact Option.isSome_of_eq_some (run.told_start p.fresh mem told)

/-- The start is fixed only once the latch is open. -/
theorem open_of_start (simultaneous : p.control.simultaneous = true)
    (run : Run p.follow p.ensemble now e hs) (set : e.signals.start.isSome) :
    e.signals.uninitialized = 0 := by
  induction run with
  | start => cases set
  | wait _ _ ih => exact ih set
  | @step t e e' hs i run stepped ih =>
    obtain ⟨m, m', s', x, taken, rfl⟩ := Run.exists_stepped stepped
    obtain ⟨-, grown⟩ := uninitialized_of_takes taken.takes
    refine Nat.eq_zero_of_le_zero (le_trans grown (le_of_eq ?_))
    by_cases before : e.signals.start.isSome
    · exact ih before
    -- The thread fixes the start now. It is not a user's, which would have been told it before.
    have unset : e.signals.start = none := Option.not_isSome_iff_eq_none.mp before
    obtain ⟨start, set⟩ := Option.isSome_iff_exists.mp set
    obtain ⟨next, fixing⟩ := taken.exists_fixing unset set
    obtain ⟨first, st, begins, way, walks⟩ := way_of_member run taken.present
    rw [fixing] at walks
    obtain ⟨st', steps, -⟩ := walks true
    obtain ⟨y, mem, calls | awaits⟩ :=
      Standing.exists_of_mayFix begins way (Standing.mayFix_of_next steps)
    · have released := released_of_calls simultaneous run ⟨y, mem, calls⟩
      exact absurd (start_of_released run released) before
    · exact run.latch_open p.fresh mem awaits

/-- A user's thread has arrived only when it was through with its initialization. -/
theorem hasInitialized_of_open (run : Run p.follow p.ensemble now e hs)
    (opened : e.signals.uninitialized = 0) (user : id < p.threads) :
    p.HasInitialized id (hs id) := by
  obtain ⟨m, present⟩ := exists_member run (Nat.le_of_lt user)
  obtain ⟨begun, began, course⟩ := run.course present
  rw [p.member_of_lt user, Option.some.injEq] at began
  subst began
  have begins : (Member.atStage (Stage.starting (σ := σ) id)).thread.rest.Ensures
      (fun _ _ => True) (p.ArrivesPrepared id) (Launching id) [] := Or.inl rfl
  obtain ⟨each, -⟩ :=
    course.ensures begins (fun _ _ _ => follow_prepared) (each_of_mem fun _ _ => trivial)
  exact hasInitialized_of_arrived each (arrived_of_open run opened id user)

/-- If a thread fails in its initialization, no start is fixed without an abort. -/
theorem aborted_of_start (simultaneous : p.control.simultaneous = true) (user : id < p.threads)
    {cause : ErrorChain} (failed : p.initialization id = .failed cause)
    (run : Run p.follow p.ensemble now e hs) (set : e.signals.start.isSome) :
    e.signals.cause.isSome := by
  obtain ⟨x, older, part, -, prepared⟩ :=
    hasInitialized_of_open run (open_of_start simultaneous run set) user
  rw [Prepared, failed] at prepared
  obtain ⟨y, old, aborts⟩ := prepared
  have mem : y ∈ hs id := part.subset (List.mem_cons_of_mem x old)
  exact ((run.recorded p.fresh).said id y mem).tried _ aborts

/-- If a thread fails in its initialization, nobody is released. -/
theorem not_released_of_failed (simultaneous : p.control.simultaneous = true)
    (user : id < p.threads) {cause : ErrorChain} (failed : p.initialization id = .failed cause)
    (run : Run p.follow p.ensemble now e hs) : ¬ (hs i).Released := by
  have each : (hs i).Each fun x _ => x.Unstarted := run.each_of_step
    (fun run stepped => Run.unstarted_of_stepped (aborted_of_start simultaneous user failed run)
      stepped) i
  rintro ⟨x, mem, told⟩
  obtain ⟨older, -, untold⟩ := each.exists_of_mem mem
  exact told untold

end RunPlan

/-- With a simultaneous start no handler is called if a thread fails in its initialization, and none
before all threads are through with theirs. -/
theorem initialization_barrier {σ : Type} {p : RunPlan σ} {now : Stamp} {e : Ensemble (Stage σ)}
    {hs : Nat → History} (simultaneous : p.control.simultaneous = true)
    (run : Ensemble.Run p.follow p.ensemble now e hs) :
    (∀ id < p.threads, ∀ cause, p.initialization id = .failed cause →
      ∀ i, ∀ x ∈ hs i, x.calls = false) ∧
    ∀ i, ∀ x ∈ hs i, x.calls → ∀ id < p.threads, p.HasInitialized id (hs id) := by
  refine ⟨fun id user cause failed i x mem => ?_, fun i x mem calls id user => ?_⟩
  · by_contra calls
    have released := RunPlan.released_of_calls simultaneous run
      ⟨x, mem, (Bool.not_eq_false _).mp calls⟩
    exact RunPlan.not_released_of_failed simultaneous user failed run released
  · have released := RunPlan.released_of_calls simultaneous run ⟨x, mem, calls⟩
    have opened := RunPlan.open_of_start simultaneous run (RunPlan.start_of_released run released)
    exact RunPlan.hasInitialized_of_open run opened user

/-- A plan of two threads that start together, the first one after a hook. The second one is created
with the given outcome. -/
def RunPlan.together (second : Creation Unit) : RunPlan Unit :=
  { workload :=
      { Workload.single (fun id => if id = 1 then second else .created ())
          ⟨"", [], 0, .manual, true, .fixed Span.zero⟩ (fun _ => .succeeds ()) with
        beforeRun := some fun _ => ((), .succeeded) }
    control :=
      { RunControl.ofMode (.time ⟨0⟩ ⟨1⟩ ⟨0⟩) with threads := .fixed 2, simultaneous := true }
    seed := 0 }

/-- The second thread calls its handler after both threads and the hook. If it fails, the first one
ends without a call although the start is fixed. -/
theorem initialization_barrier_together :
    (∃ now e hs, Ensemble.Run (RunPlan.together (.created ())).follow
        (RunPlan.together (.created ())).ensemble now e hs ∧ (∃ x ∈ hs 1, x.calls) ∧
      ∀ id < 2, (RunPlan.together (.created ())).HasInitialized id (hs id)) ∧
    ∃ now e hs, Ensemble.Run (RunPlan.together (.failed (.plain ""))).follow
        (RunPlan.together (.failed (.plain ""))).ensemble now e hs ∧
      (e.signals.start.isSome ∧ (e.members[0]?.bind Member.stage?).any Stage.hasEnded) ∧
      ∀ i, ∀ x ∈ hs i, x.calls = false := by
  have called : Ensemble.Run.reached (fun _ hs => (hs 1).any Exchange.calls)
      (Ensemble.Run.play (RunPlan.together (.created ())).follow
        (List.replicate 3 (0, 0) ++ List.replicate 2 (0, 1) ++ List.replicate 10 (0, 2) ++
          List.replicate 13 (0, 1)) 0
        (RunPlan.together (.created ())).ensemble fun _ => []) = true := by
    decide +kernel
  have started : Ensemble.Run.reached (fun e _ => decide (e.signals.start.isSome ∧
      (e.members[0]?.bind Member.stage?).any Stage.hasEnded))
      (Ensemble.Run.play (RunPlan.together (.failed (.plain ""))).follow
        (List.replicate 3 (0, 0) ++ List.replicate 12 (0, 1) ++ List.replicate 10 (0, 2) ++
          List.replicate 6 (0, 0)) 0
        (RunPlan.together (.failed (.plain ""))).ensemble fun _ => []) = true := by
    decide +kernel
  have fails : (match (RunPlan.together (.failed (.plain ""))).initialization 1 with
      | .failed _ => true
      | _ => false) = true := by
    decide +kernel
  refine ⟨?_, ?_⟩
  · obtain ⟨now, e, hs, run, called⟩ := Ensemble.Run.exists_of_reached called
    obtain ⟨x, mem, calls⟩ := List.any_eq_true.mp called
    obtain ⟨-, barrier⟩ := initialization_barrier rfl run
    exact ⟨now, e, hs, run, ⟨x, mem, calls⟩, barrier 1 x mem calls⟩
  · obtain ⟨now, e, hs, run, started⟩ := Ensemble.Run.exists_of_reached started
    obtain ⟨barred, -⟩ := initialization_barrier rfl run
    split at fails
    next cause failed =>
      exact ⟨now, e, hs, run, of_decide_eq_true started, barred 1 (by decide) cause failed⟩
    next => cases fails

end LoadGen
