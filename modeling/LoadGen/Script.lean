import LoadGen.Handler

namespace LoadGen

/-- One action of a scripted call. -/
inductive Action
  | recordTime
  | recordStart
  | recordEnd
  | recordLast
  | addPause (length : Stamp)
  /-- Notes whether the invocation is in the steady state, or why that is not known. -/
  | tellSteady
  /-- Notes whether the invocation is in the steady state, and fails if that is not known. -/
  | requireSteady
  | tellNames
  | tellTiming
  | tellThreadName
  | sleep (s : Span)
  /-- Fixes the start time and notes whether it was the first to do so. -/
  | fixStart (t : Stamp)
  /-- Raises the abort and notes whether it was the first to do so. -/
  | abort (cause : AbortCause)
  | fail (cause : ErrorChain)
  | panic

/-- The entries of a script, used in turn. Without entries every call succeeds. -/
structure Script where
  entries : List (List Action)

/-- How often the operations of a workload have been called, by their place. -/
structure CallCounts where
  counts : List Nat

namespace CallCounts

def zero (operations : Nat) : CallCounts := ⟨List.replicate operations 0⟩

def get (c : CallCounts) (operation : Nat) : Nat := c.counts.getD operation 0

def count (c : CallCounts) (operation : Nat) : CallCounts := ⟨c.counts.modify operation (· + 1)⟩

end CallCounts

namespace ContextNames

def threadName (n : ContextNames) : String := n.workload ++ "-" ++ toString n.thread

end ContextNames

namespace Script

variable {σ : Type}

def noInvoke : ErrorChain := .fatal PhaseView.noInvokeText

def noting (content : Note) (rest : Behaviour σ) : Behaviour σ :=
  .calls (.note content) fun _ => rest

/-- Goes on after a wait, or fails when it was cancelled. -/
def afterWait (state : σ) (rest : Behaviour σ) : Wait → Behaviour σ
  | .reached => rest
  | .cancelled => .fails state .aborted

/-- The behaviour of a list of actions. -/
def play (state : σ) : List Action → Behaviour σ
  | [] => .succeeds state
  | .recordTime :: rest => .calls .recordTime (afterWait state (play state rest))
  | .recordStart :: rest => .calls .recordStart (afterWait state (play state rest))
  | .recordEnd :: rest => .calls .recordEnd fun _ => play state rest
  | .recordLast :: rest => .calls .recordLast fun _ => play state rest
  | .addPause length :: rest => .calls (.addPause length) fun _ => play state rest
  | .tellSteady :: rest => .calls .isSteady fun
    | some steady => noting (.flag steady) (play state rest)
    | none => noting (.failure noInvoke) (play state rest)
  | .requireSteady :: rest => .calls .isSteady fun
    | some steady => noting (.flag steady) (play state rest)
    | none => .fails state noInvoke
  | .tellNames :: rest => .calls .names fun n =>
    noting (.names n.thread n.workload n.operation) (play state rest)
  | .tellTiming :: rest => .calls .timing fun record => noting (.timing record) (play state rest)
  | .tellThreadName :: rest => .calls .names fun n =>
    noting (.threadName n.threadName) (play state rest)
  | .sleep span :: rest => .calls (.sleep span) fun _ => play state rest
  | .fixStart t :: rest => .calls (.fixStart t) fun first =>
    noting (.flag first) (play state rest)
  | .abort cause :: rest => .calls (.abort cause) fun first =>
    noting (.flag first) (play state rest)
  | .fail cause :: _ => .fails state cause
  | .panic :: _ => .panics state

/-- The actions of a call when there have been `calls` calls before it. -/
def entry (s : Script) (calls : Nat) : List Action :=
  s.entries.getD (calls % s.entries.length) []

/-- The handler of the operation at a place. Every thread plays its own script from the start. -/
def handler (scripts : Nat → Script) (operation : Nat) : Handler CallCounts := fun state =>
  .calls .names fun n =>
    play (state.count operation) ((scripts n.thread).entry (state.get operation))

end Script

end LoadGen
