import LoadGen.Event
import LoadGen.Signals

namespace LoadGen

/-- What a program asks of its surroundings. -/
inductive Request
  | call (c : Call)
  /-- Appends an event to the thread's sequence. -/
  | emit (e : Event)

def Request.Reply : Request → Type
  | call c => c.Reply
  | emit _ => Unit

/-- A tree of requests to the surroundings, each with the rest of the program for every reply. The
surroundings answer one atomic step at a time. -/
inductive Program (α : Type) : Type
  | done (result : α)
  | ask (request : Request) (next : request.Reply → Program α)

namespace Program

variable {α β : Type}

protected def bind (p : Program α) (f : α → Program β) : Program β :=
  match p with
  | done result => f result
  | ask request next => ask request fun reply => (next reply).bind f

instance : Monad Program where
  pure := done
  bind := Program.bind

def call (c : Call) : Program c.Reply := ask (.call c) done

def emit (e : Event) : Program Unit := ask (.emit e) done

def clock : Program Stamp := call .clock

def isAborted : Program Bool := call .isAborted

def startTime : Program (Option Stamp) := call .startTime

def awaitStart : Program (Option Stamp) := call .awaitStart

def fixStart (t : Stamp) : Program Bool := call (.fixStart t)

def abort (cause : AbortCause) : Program Bool := call (.abort cause)

def enrol : Program Unit := call .enrol

def arrive : Program Unit := call .arrive

def awaitAll : Program Unit := call .awaitAll

def sleepUntil (t : Stamp) : Program Wait := call (.sleepUntil t)

def pass (s : Span) : Program Unit := call (.pass s)

end Program

/-- A thread: between two requests of its program, or within a call. -/
inductive Thread (α : Type)
  | between (program : Program α)
  | within (c : Call) (point : c.Point) (next : c.Reply → Program α)

namespace Thread

variable {α : Type}

/-- Tries one atomic step of a call. -/
def stepCall (me : Nat) (now : Stamp) (s : Signals) (c : Call) (point : c.Point)
    (next : c.Reply → Program α) : Option (Signals × Thread α × Option Event) :=
  match c.step me now s point with
  | .blocked => none
  | .moved s point => some (s, .within c point next, none)
  | .answered s reply => some (s, .between (next reply), none)

/-- One atomic step of the thread `me` when the clock shows `now`, with the event it emits; none
when the thread is blocked or its program is done. -/
def step (me : Nat) (now : Stamp) (s : Signals) :
    Thread α → Option (Signals × Thread α × Option Event)
  | between (.done _) => none
  | between (.ask (.emit e) next) => some (s, between (next ()), some e)
  | between (.ask (.call c) next) => stepCall me now s c c.entry next
  | within c point next => stepCall me now s c point next

/-- The event that the next step emits, if it emits one. -/
def emission? : Thread α → Option Event
  | between (.ask (.emit e) _) => some e
  | _ => none

/-- The clock reading that would let the thread go on, if it sleeps. -/
def wakeTime? : Thread α → Option Stamp
  | within c point _ => c.wakeTime? point
  | between _ => none

def result? : Thread α → Option α
  | between (.done result) => some result
  | _ => none

end Thread

end LoadGen
