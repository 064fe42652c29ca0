import LoadGen.RunReport
import LoadGen.Simulation

namespace LoadGen

/-- A clock reading with the shared memory at that time. -/
structure Moment where
  clock : Stamp
  signals : Signals

namespace Moment

/-- The beginning, before any thread has done anything. -/
def first : Moment := ⟨0, Signals.fresh 0⟩

/-- Performs a program by itself. There is no result when it would wait for another thread. -/
def perform? {α : Type} (m : Moment) (p : Program α) : Option (α × Moment) :=
  let follow (_ : α) : Option (Program α) := none
  let x := (Simulation.mk m.clock ⟨m.signals, #[Member.ofProgram p]⟩).run follow
  (x.stage? 0).map fun result => (result, ⟨x.clock, x.ensemble.signals⟩)

end Moment

/-- What is left of a virtual user that ran by itself. -/
structure Rehearsal (σ : Type) where
  user : VirtualUser σ
  error : Option RunError
  trace : List Event
  signals : Signals

namespace VirtualUser

variable {σ : Type}

/-- The programs of a virtual user up to the end of its loop. -/
def followUser (p : RunPlan σ) : Stage σ → Option (Program (Stage σ))
  | .ended _ _ => none
  | stage => p.follow stage

/-- Runs a virtual user by itself, from its start to the end of its loop. There is no result when it
would wait for ever. -/
def rehearse? (u : VirtualUser σ) (p : RunPlan σ) (m : Moment) : Option (Rehearsal σ) :=
  let member := Member.atStage (Stage.ready u)
  let x := (Simulation.mk m.clock ⟨m.signals, #[member]⟩).run (followUser p)
  match x.stage? 0 with
  | some (.ended user error) =>
    some ⟨user, error, (x.ensemble.members[0]?.map (·.trace)).getD [], x.ensemble.signals⟩
  | _ => none

end VirtualUser

namespace RunPlan

variable {σ : Type}

def rehearse (p : RunPlan σ) (runId : String) : RunReport :=
  let x := (Simulation.mk 0 p.ensemble).run p.follow
  RunReport.ofEnsemble p runId x.ensemble x.clock

end RunPlan

end LoadGen
