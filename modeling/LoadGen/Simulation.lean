import LoadGen.Ensemble

namespace LoadGen

/-- An ensemble under a clock of its own. The members step in turn, every step takes a tick, and
when none of them can move, the clock goes on to the earliest wake-up. -/
structure Simulation (α : Type) where
  clock : Stamp
  ensemble : Ensemble α

namespace Simulation

variable {α : Type}

/-- The nanoseconds that a step takes. -/
def tick : Stamp := 500

/-- More steps than any simulation is meant to take. -/
def patience : Nat := 4000000000000000000

def ofMembers (signals : Signals) (members : List (Member α)) : Simulation α :=
  ⟨0, ⟨signals, members.toArray⟩⟩

/-- Lets a member take a step, if it can. -/
def move (follow : α → Option (Program α)) (i : Nat) (x : Simulation α) : Simulation α :=
  match x.ensemble.attempt follow i x.clock with
  | some (signals, m) => ⟨x.clock + tick, x.ensemble.withMember i signals m⟩
  | none => x

/-- Lets the members with the last `left` numbers take a step each. -/
def round (follow : α → Option (Program α)) : Nat → Simulation α → Simulation α
  | 0, x => x
  | left + 1, x => round follow left (x.move follow (x.ensemble.members.size - (left + 1)))

/-- Goes on until the goal is reached or no member can move. Sleeping members go on in time if
`waking`. -/
def runFor (follow : α → Option (Program α)) (waking : Bool) (goal : Ensemble α → Bool) :
    Nat → Simulation α → Simulation α
  | 0, x => x
  | patience + 1, x =>
    if goal x.ensemble then x
    else
      let before := x.clock
      let x := x.round follow x.ensemble.members.size
      if before < x.clock then runFor follow waking goal patience x
      else if waking then
        match x.ensemble.wakeTime? with
        | some wake => runFor follow waking goal patience { x with clock := max wake (before + 1) }
        | none => x
      else x

/-- Goes on until no member can ever move again. -/
def run (follow : α → Option (Program α)) (x : Simulation α) : Simulation α :=
  x.runFor follow true (fun _ => false) patience

/-- Goes on until no member can move before its wake-up. -/
def settle (follow : α → Option (Program α)) (x : Simulation α) : Simulation α :=
  x.runFor follow false (fun _ => false) patience

/-- The stage that a member has come to for good, if it has. -/
def stage? (x : Simulation α) (i : Nat) : Option α := x.ensemble.members[i]?.bind (·.stage?)

/-- Goes on until a member has come to the end of its program. -/
def runUntilDone (follow : α → Option (Program α)) (i : Nat) (x : Simulation α) : Simulation α :=
  x.runFor follow true (fun e => (e.members[i]?.bind (·.stage?)).isSome) patience

def join (p : Program α) (x : Simulation α) : Simulation α :=
  { x with ensemble := { x.ensemble with members := x.ensemble.members.push (.ofProgram p) } }

def dismiss (x : Simulation α) : Simulation α :=
  { x with ensemble := { x.ensemble with members := x.ensemble.members.pop } }

/-- Performs a program beside the members, which then go on as far as they can. There is no result
when the program would wait for ever, or, unless `waking`, for a time. -/
def beside? (follow : α → Option (Program α)) (waking : Bool) (p : Program α) (x : Simulation α) :
    Option (α × Simulation α) :=
  let i := x.ensemble.members.size
  let after := if waking then (x.join p).runUntilDone follow i else (x.join p).settle follow
  (after.stage? i).map fun result => (result, after.dismiss.settle follow)

end Simulation

end LoadGen
