import LoadGen.Run

namespace LoadGen

namespace RunPlan

variable {σ : Type} (p : RunPlan σ)

/-- What becomes of an instance in the hook before the run. -/
def afterHook : σ × Ending → Creation σ
  | (state, .succeeded) => .created state
  | (_, .failed cause) => .failed (cause.inContext "once-before hook failed")
  | (_, .panicked) => .panicked

/-- The hook is for the first thread to pass. -/
def passHook (id : Nat) (state : σ) : Creation σ :=
  match id, p.workload.beforeRun with
  | 0, some hook => afterHook (hook state)
  | _, _ => .created state

/-- The outcome of a thread's initialization: of its metrics, its instance, and the hook. -/
def initialization (id : Nat) : Creation σ :=
  match Metrics.empty p.workload id with
  | .error .overflow => .panicked
  | .error (.refused e) => .failed (.plain e.message)
  | .ok _ =>
    match p.workload.create id with
    | .created state => p.passHook id state
    | .failed cause => .failed cause
    | .panicked => .panicked

/-- The end of a launch, by the outcome of the initialization. -/
def settle (id : Nat) : Creation σ → Program (Stage σ)
  | .created state => p.enter id state
  | .failed cause => p.failInitialization id cause
  | .panicked => breakDown id

theorem prepare_cases (id : Nat) (state : σ) :
    (p.prepare id state = do
      Program.emit .hookBefore
      p.settle id (p.passHook id state)) ∨
    (p.prepare id state = p.settle id (p.passHook id state) ∧
      (id = 0 → p.workload.beforeRun = none)) := by
  unfold prepare passHook
  cases p.workload.beforeRun with
  | none => exact Or.inr ⟨by cases id <;> rfl, fun _ => rfl⟩
  | some hook =>
    cases id with
    | zero =>
      refine Or.inl (congrArg (Program.emit .hookBefore >>= ·) (funext fun _ => ?_))
      change _ = p.settle 0 (afterHook (hook state))
      obtain ⟨state', ending⟩ := hook state
      cases ending <;> rfl
    | succ id => exact Or.inr ⟨rfl, (by cases ·)⟩

/-- A thread goes through its initialization to the outcome of it; the first thread succeeds only by
way of the hook. -/
theorem launch_cases (id : Nat) :
    (p.launch id = do
      Program.emit .hookBefore
      p.settle id (p.initialization id)) ∨
    (p.launch id = p.settle id (p.initialization id) ∧
      ∀ state, p.initialization id = .created state → id = 0 → p.workload.beforeRun = none) := by
  unfold launch initialization
  cases Metrics.empty p.workload id with
  | error fault => cases fault <;> exact Or.inr ⟨rfl, fun _ created => by cases created⟩
  | ok metrics =>
    cases p.workload.create id with
    | created state =>
      rcases p.prepare_cases id state with same | ⟨same, unhooked⟩
      · exact Or.inl same
      · exact Or.inr ⟨same, fun _ _ => unhooked⟩
    | _ => exact Or.inr ⟨rfl, fun _ created => by cases created⟩

end RunPlan

end LoadGen
