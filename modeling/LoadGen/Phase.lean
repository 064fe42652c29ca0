import LoadGen.Timing

namespace LoadGen

inductive Phase
  | rampUp
  | steadyState
  | rampDown
  deriving DecidableEq

namespace Phase

def name : Phase → String
  | rampUp => "ramp-up"
  | steadyState => "steady-state"
  | rampDown => "ramp-down"

def ofName? (s : String) : Option Phase :=
  [rampUp, steadyState, rampDown].find? (·.name = s)

/-- The place of the phase in a run. -/
def order : Phase → Nat
  | rampUp => 0
  | steadyState => 1
  | rampDown => 2

end Phase

/-- The last cycle of each phase. -/
structure CycleBounds where
  endRampUp : Nat
  endSteadyState : Nat
  endRampDown : Nat
  deriving DecidableEq

namespace CycleBounds

/-- The bounds for the lengths of the phases; no bound exceeds 64 bits. -/
def ofLengths (rampUp steadyState rampDown : Nat) : CycleBounds :=
  let endSteadyState := min (rampUp + steadyState) Word.greatest
  ⟨rampUp, endSteadyState, min (endSteadyState + rampDown) Word.greatest⟩

/-- The phase of a cycle, the first one having the number 1. -/
def phaseOf (b : CycleBounds) (cycle : Nat) : Phase :=
  if cycle ≤ b.endRampUp then .rampUp
  else if cycle ≤ b.endSteadyState then .steadyState
  else .rampDown

end CycleBounds

/-- The clock reading at which each phase is over. -/
structure TimeBounds where
  endRampUp : Stamp
  endSteadyState : Stamp
  endRampDown : Stamp
  deriving DecidableEq

namespace TimeBounds

def ofStart (start : Stamp) (rampUp steadyState rampDown : Span) : TimeBounds :=
  let endRampUp := Stamp.plus start (Stamp.ofSpan rampUp)
  let endSteadyState := Stamp.plus endRampUp (Stamp.ofSpan steadyState)
  ⟨endRampUp, endSteadyState, Stamp.plus endSteadyState (Stamp.ofSpan rampDown)⟩

/-- An invocation is in the steady state if it begins after the ramp-up and ends strictly before the
ramp-down. -/
def isSteady (b : TimeBounds) (invoke respond : Stamp) : Bool :=
  decide (b.endRampUp ≤ invoke ∧ respond < b.endSteadyState)

def phaseOf (b : TimeBounds) (invoke respond : Stamp) : Phase :=
  if b.isSteady invoke respond then .steadyState
  else if invoke < b.endRampUp then .rampUp
  else .rampDown

end TimeBounds

/-- How far a thread has come, as an operation sees it while it runs. -/
inductive PhaseView
  | cycles (started : Bool) (completed : Nat) (bounds : CycleBounds)
  | time (bounds : Option TimeBounds)
  deriving DecidableEq

namespace PhaseView

def noInvokeText : String :=
  "steady state queried before invoke time capture, this is a bug in the driver code"

/-- Whether the invocation with this record is in the steady state; there is no answer before it
has begun. -/
def isSteady? (v : PhaseView) (r : Timing) : Option Bool :=
  r.invoke.map fun invoke =>
    match v with
    | cycles started completed bounds =>
      started && decide (bounds.phaseOf (min (completed + 1) Word.greatest) = .steadyState)
    | time none => false
    | time (some bounds) => bounds.isSteady invoke ((r.respond <|> r.lastRespond).getD invoke)

end PhaseView

end LoadGen
