import LoadGen.Proofs.BuiltWorkload
import LoadGen.Run
import LoadGen.Shop

namespace LoadGen

namespace LoadSchedule

theorem foldl_max_le_iff (levels : List LoadLevel) (start n : Nat) :
    levels.foldl (fun n level => max n level.threads) start ≤ n ↔
      start ≤ n ∧ ∀ level ∈ levels, level.threads ≤ n := by
  induction levels generalizing start with
  | nil => simp
  | cons level rest ih => rw [List.foldl_cons, ih, Nat.max_le, List.forall_mem_cons, and_assoc]

/-- The most threads of a schedule bound those of every level, and tightly. -/
theorem maxThreads_le_iff {s : LoadSchedule} {n : Nat} :
    s.maxThreads ≤ n ↔ ∀ level ∈ s.levels, level.threads ≤ n :=
  (foldl_max_le_iff s.levels 0 n).trans (and_iff_right (Nat.zero_le n))

end LoadSchedule

namespace RunControl

variable {σ : Type} {c : RunControl} {w : Workload σ} {threads : Nat}

theorem checkThreads_eq_ok_iff :
    checkThreads threads = .ok () ↔ 1 ≤ threads ∧ threads ≤ maxThreads := by
  unfold checkThreads
  split
  next isZero => simp [isZero]
  next nonzero =>
    split
    next beyond => simp [Nat.not_le.mpr beyond]
    next within => exact iff_of_true rfl ⟨Nat.pos_of_ne_zero nonzero, Nat.le_of_not_lt within⟩

theorem checkSteadyState_eq_ok_iff {mode : RunMode} :
    checkSteadyState mode = .ok () ↔ mode.hasSteadyState = true := by
  unfold checkSteadyState
  split <;> simp_all

/-- A control that fits a workload. -/
structure Suits (c : RunControl) (w : Workload σ) : Prop where
  threads : 1 ≤ c.threadCount w
  load : c.load.isSome → c.mode.isTime = true
  background : w.backgroundMix.isSome → c.mode.isTime = true
  levels : ∀ load ∈ c.load, ∀ level ∈ load.levels, level.threads ≤ c.threadCount w

theorem check_eq_ok_iff : c.check w = .ok () ↔ c.Suits w := by
  unfold check
  dsimp only
  split
  next isZero => exact iff_of_false (by simp) fun suits => by simpa [isZero] using suits.threads
  next nonzero =>
    split
    next loaded =>
      exact iff_of_false (by simp) fun suits => loaded.1 (suits.load loaded.2)
    next unloaded =>
      split
      next beside =>
        exact iff_of_false (by simp) fun suits => beside.1 (suits.background beside.2)
      next alone =>
        have threads : 1 ≤ c.threadCount w := Nat.pos_of_ne_zero nonzero
        have timed : c.load.isSome → c.mode.isTime = true :=
          fun has => by_contra fun cycles => unloaded ⟨cycles, has⟩
        have timed' : w.backgroundMix.isSome → c.mode.isTime = true :=
          fun has => by_contra fun cycles => alone ⟨cycles, has⟩
        split
        next isZero => exact iff_of_true rfl ⟨threads, timed, timed', by simp [isZero]⟩
        next load has =>
          split
          next beyond =>
            refine iff_of_false (by simp) fun suits => Nat.not_le.mpr beyond ?_
            exact LoadSchedule.maxThreads_le_iff.mpr (suits.levels load has)
          next within =>
            refine iff_of_true rfl ⟨threads, timed, timed', fun load' has' => ?_⟩
            rw [has, Option.mem_some_iff] at has'
            exact has' ▸ LoadSchedule.maxThreads_le_iff.mp (Nat.le_of_not_lt within)

end RunControl

namespace Arguments

theorem withinLimit_eq_ok {α : Type} {x y : α} {checked : Except LimitError Unit}
    (within : withinLimit x checked = .ok y) : checked = .ok () ∧ x = y := by
  cases checked with
  | ok => exact ⟨rfl, Except.ok.inj within⟩
  | error e => cases within

/-- The threads that arguments ask for: a number within its limits, or else a scale. -/
theorem threadCount_eq_ok {a : Arguments} {count : ThreadCount}
    (asked : a.threadCount = .ok count) :
    (∃ threads, a.threads = some threads ∧ count = .fixed threads ∧
        threads ≤ RunControl.maxThreads) ∨
      (a.threads = none ∧ count = .scale a.scale) := by
  unfold threadCount at asked
  split at asked
  next threads given =>
    obtain ⟨checked, rfl⟩ := withinLimit_eq_ok asked
    exact Or.inl ⟨threads, given, rfl, (RunControl.checkThreads_eq_ok_iff.mp checked).2⟩
  next unset =>
    obtain ⟨-, rfl⟩ := withinLimit_eq_ok asked
    exact Or.inr ⟨unset, rfl⟩

theorem control_eq_ok {a : Arguments} {c : RunControl} (asked : a.control = .ok c) :
    a.threadCount = .ok c.threads ∧ c.mode.hasSteadyState = true := by
  unfold control at asked
  obtain ⟨mode, -, asked⟩ := exists_of_bind_ok asked
  obtain ⟨threads, counted, asked⟩ := exists_of_bind_ok asked
  obtain ⟨checked, rfl⟩ := withinLimit_eq_ok asked
  exact ⟨counted, RunControl.checkSteadyState_eq_ok_iff.mp checked⟩

end Arguments

theorem RunPlan.create_eq_ok_iff {σ : Type} {w : Workload σ} {c : RunControl} {seed : Nat}
    {p : RunPlan σ} : create w c seed = .ok p ↔ c.Suits w ∧ p = ⟨w, c, seed⟩ := by
  rw [← RunControl.check_eq_ok_iff]
  unfold create
  split
  next checked => simp [checked, eq_comm]
  next refused => simp [refused]

/-- A run whose arguments and control have been accepted keeps to the limits of both, for every
workload. The limit of the threads binds their number when it is given as such. There are more
threads than that just when the workload asks for more at the scale that is given instead. -/
theorem accepted_run_within_limits {σ : Type} {a : Arguments} {c : RunControl} {w : Workload σ}
    {seed : Nat} {p : RunPlan σ} (asked : a.control = .ok c)
    (accepted : RunPlan.create w c seed = .ok p) :
    1 ≤ p.threads ∧
      (RunControl.maxThreads < p.threads ↔
        a.threads = none ∧ RunControl.maxThreads < w.threadsForScale a.scale) ∧
      c.mode.hasSteadyState = true ∧
      (c.load.isSome ∨ w.backgroundMix.isSome → c.mode.isTime = true) ∧
      ∀ load ∈ c.load, ∀ level ∈ load.levels, level.threads ≤ p.threads := by
  obtain ⟨suits, rfl⟩ := RunPlan.create_eq_ok_iff.mp accepted
  obtain ⟨counted, steady⟩ := Arguments.control_eq_ok asked
  refine ⟨suits.threads, ?_, steady, fun has => has.elim suits.load suits.background, suits.levels⟩
  unfold RunPlan.threads RunControl.threadCount
  rcases Arguments.threadCount_eq_ok counted with ⟨threads, given, same, within⟩ | ⟨unset, same⟩
  · simp [same, given, within]
  · simp [same, unset]

/-- The threads of the shop's run under a command line, if all of it is accepted. -/
def Shop.threads? (arguments : List String) (withBackground : Bool) : Option Nat :=
  (Arguments.read arguments).toOption.bind fun a =>
    a.control.toOption.bind fun c =>
      (workload a 0 withBackground).toOption.bind fun w =>
        (RunPlan.create w c 0).toOption.map (·.threads)

theorem Shop.exists_of_threads {arguments : List String} {withBackground : Bool} {n : Nat}
    (threads : threads? arguments withBackground = some n) : ∃ a c w p,
      Arguments.read arguments = .ok a ∧ a.control = .ok c ∧ workload a 0 withBackground = .ok w ∧
        RunPlan.create w c 0 = .ok p ∧ p.threads = n := by
  obtain ⟨a, parsed, threads⟩ := Option.bind_eq_some_iff.mp threads
  obtain ⟨c, asked, threads⟩ := Option.bind_eq_some_iff.mp threads
  obtain ⟨w, made, threads⟩ := Option.bind_eq_some_iff.mp threads
  obtain ⟨p, accepted, same⟩ := Option.map_eq_some_iff.mp threads
  exact ⟨a, c, w, p, exists_of_toOption parsed, exists_of_toOption asked, exists_of_toOption made,
    exists_of_toOption accepted, same⟩

/-- Three threads follow from a scale, and the load schedule asks for all of them at its end. -/
theorem accepted_run_within_limits_scaled : ∃ a c w p,
    Arguments.read ["--scale", "3", "--variable-load", "10s:1,20s:3"] = .ok a ∧
      a.control = .ok c ∧ Shop.workload a 0 true = .ok w ∧ RunPlan.create w c 0 = .ok p ∧
        p.threads = 3 ∧ c.mode.hasSteadyState = true ∧
          (c.load.isSome ∨ w.backgroundMix.isSome → c.mode.isTime = true) ∧
            ∀ load ∈ c.load, ∀ level ∈ load.levels, level.threads ≤ 3 := by
  have threads :
      Shop.threads? ["--scale", "3", "--variable-load", "10s:1,20s:3"] true = some 3 := by
    decide +kernel
  obtain ⟨a, c, w, p, parsed, asked, made, accepted, same⟩ := Shop.exists_of_threads threads
  obtain ⟨-, -, steady, timed, levels⟩ := accepted_run_within_limits asked accepted
  exact ⟨a, c, w, p, parsed, asked, made, accepted, same, steady, timed, same ▸ levels⟩

/-- One thread more than the limit follows from a scale, and nothing refuses it. -/
theorem scale_exceeds_limit : ∃ a c w p, Arguments.read ["--scale", "10001"] = .ok a ∧
    a.control = .ok c ∧ Shop.workload a 0 false = .ok w ∧ RunPlan.create w c 0 = .ok p ∧
      ¬ p.threads ≤ RunControl.maxThreads := by
  have threads : Shop.threads? ["--scale", "10001"] false = some 10001 := by decide +kernel
  obtain ⟨a, c, w, p, parsed, asked, made, accepted, same⟩ := Shop.exists_of_threads threads
  exact ⟨a, c, w, p, parsed, asked, made, accepted, by rw [same]; decide⟩

end LoadGen
