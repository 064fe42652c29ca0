import LoadGen.Program

namespace LoadGen

/-- A thread with the events it has emitted. A program that is done leaves a stage, from which the
next program follows. -/
structure Member (α : Type) where
  thread : Thread α
  /-- The latest event first. -/
  events : List Event

namespace Member

variable {α : Type}

/-- A thread that begins at a stage. -/
def atStage (stage : α) : Member α := ⟨.between (.done stage), []⟩

def ofProgram (p : Program α) : Member α := ⟨.between p, []⟩

/-- The events in the order in which they happened. -/
def trace (m : Member α) : List Event := m.events.reverse

/-- The stage of a thread whose program is done. -/
def stage? (m : Member α) : Option α := m.thread.result?

/-- One atomic step of the thread `me`, if it can take one: the next request, or the beginning of
the program that follows a stage. -/
def step (follow : α → Option (Program α)) (me : Nat) (now : Stamp) (s : Signals) (m : Member α) :
    Option (Signals × Member α) :=
  match m.stage? with
  | some stage => (follow stage).map fun p => (s, { m with thread := .between p })
  | none =>
    match m.thread.step me now s with
    | none => none
    | some (s, thread, none) => some (s, { m with thread := thread })
    | some (s, thread, some event) => some (s, ⟨thread, event :: m.events⟩)

end Member

/-- Threads over one shared memory. They take their atomic steps one at a time, in any order. -/
structure Ensemble (α : Type) where
  signals : Signals
  members : Array (Member α)

namespace Ensemble

variable {α : Type}

/-- The outcome of trying a step of a member. -/
def attempt (follow : α → Option (Program α)) (i : Nat) (now : Stamp) (e : Ensemble α) :
    Option (Signals × Member α) :=
  match e.members[i]? with
  | some m => m.step follow i now e.signals
  | none => none

def withMember (e : Ensemble α) (i : Nat) (signals : Signals) (m : Member α) : Ensemble α :=
  ⟨signals, e.members.setIfInBounds i m⟩

/-- One atomic step of a member when the clock shows `now`; none if it cannot take one. -/
def step (follow : α → Option (Program α)) (i : Nat) (now : Stamp) (e : Ensemble α) :
    Option (Ensemble α) :=
  (e.attempt follow i now).map fun (signals, m) => e.withMember i signals m

/-- The earliest clock reading that would let a sleeping member go on. -/
def wakeTime? (e : Ensemble α) : Option Stamp :=
  e.members.foldl (fun earliest m =>
    match earliest, m.thread.wakeTime? with
    | some t, some u => some (min t u)
    | none, wake => wake
    | earliest, none => earliest) none

end Ensemble

end LoadGen
