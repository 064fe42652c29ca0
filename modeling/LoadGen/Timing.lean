import LoadGen.ErrorChain
import LoadGen.Span

namespace LoadGen

/-- Readings of one invocation. What has not been captured is `none`. -/
structure Timing where
  intended : Option Stamp
  invoke : Option Stamp
  respond : Option Stamp
  /-- An interim response within a request that is still open. -/
  lastRespond : Option Stamp
  /-- Time within the invocation that does not count as response time. -/
  pause : Stamp
  deriving DecidableEq

namespace Timing

def empty : Timing := ⟨none, none, none, none, 0⟩

instance : Inhabited Timing := ⟨empty⟩

/-- The record at the beginning of an iteration. -/
def intendedAt (t : Stamp) : Timing := { empty with intended := some t }

def withInvoke (r : Timing) (t : Stamp) : Timing := { r with invoke := some t }

def withRespond (r : Timing) (t : Stamp) : Timing := { r with respond := some t }

def withLastRespond (r : Timing) (t : Stamp) : Timing := { r with lastRespond := some t }

/-- Adds to the pause; a negative one counts as nothing. -/
def addPause (r : Timing) (length : Stamp) : Timing :=
  { r with pause := Stamp.plus r.pause (max length 0) }

/-- The time from the invocation to its response without the pause, when both are known. -/
def responseTime? (r : Timing) : Option Stamp :=
  match r.invoke, r.respond with
  | some invoke, some respond => some (max (Stamp.minus (Stamp.minus respond invoke) r.pause) 0)
  | _, _ => none

/-- Why the record of a successful invocation shows a fault of the operation. -/
inductive Fault
  | noInvoke
  | noRespond
  | inverted (respond invoke : Stamp)
  deriving DecidableEq

def Fault.message (operation : String) : Fault → String
  | noInvoke =>
    "operation " ++ operation ++ " returned without an invoke time, " ++
      "manually timed operations must call record_time"
  | noRespond => "operation " ++ operation ++ " returned without a respond time"
  | inverted respond invoke =>
    "operation " ++ operation ++ " responded at " ++ toString respond ++
      " before its invoke time " ++ toString invoke

/-- The record of a successful invocation with its response, which is the last interim one when no
other was captured; and the fault it shows, if any. -/
def complete (r : Timing) : Timing × Option Fault :=
  match r.invoke with
  | none => (r, some .noInvoke)
  | some invoke =>
    match r.respond with
    | some respond => (r, if respond < invoke then some (.inverted respond invoke) else none)
    | none =>
      match r.lastRespond with
      | none => (r, some .noRespond)
      | some last =>
        (r.withRespond last, if last < invoke then some (.inverted last invoke) else none)

/-- What happens to a failed invocation that was never begun and whose time has not yet come. -/
inductive EarlyFailure
  /-- It is dropped without a trace in the statistics. -/
  | skip
  /-- It takes over the times of the previous invocation. -/
  | reusePrevious
  deriving DecidableEq

/-- What follows for a failed invocation. -/
structure Repair where
  /-- It is not accounted for at all. -/
  skip : Bool
  /-- The delay before it can be measured. -/
  delayValid : Bool
  /-- The last interim response became its response. -/
  openRequest : Bool
  deriving DecidableEq

/-- A response before the invocation is moved to it. -/
def inOrder (r : Timing) : Timing :=
  match r.invoke, r.respond with
  | some invoke, some respond => if respond < invoke then r.withRespond invoke else r
  | _, _ => r

/-- Makes the record of a failed invocation consistent. `previous` holds the start and the end of
the invocation before it. -/
def repair (r : Timing) (now : Stamp) (rule : EarlyFailure) (previous : Stamp × Stamp) :
    Timing × Repair :=
  let (r, openRequest) :=
    match r.respond, r.lastRespond with
    | none, some last => (r.withRespond last, true)
    | _, _ => (r, false)
  match r.invoke with
  | some _ =>
    let r := if r.respond.isNone then r.withRespond now else r
    (r.inOrder, ⟨false, true, openRequest⟩)
  | none =>
    let early := r.intended.any fun intended => decide (now < intended)
    match early, rule with
    | true, .skip => (r.inOrder, ⟨true, false, openRequest⟩)
    | true, .reusePrevious =>
      (((r.withInvoke previous.1).withRespond previous.2).inOrder, ⟨false, false, openRequest⟩)
    | false, _ => (((r.withInvoke now).withRespond now).inOrder, ⟨false, false, openRequest⟩)

end Timing

end LoadGen
