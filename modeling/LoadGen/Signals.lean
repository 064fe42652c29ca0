import LoadGen.Span

namespace LoadGen

structure AbortCause where
  thread : Nat
  operation : String
  message : String
  deriving DecidableEq

/-- The memory that the threads of a run share. Every access is a call that proceeds in atomic
steps, so that the steps of several threads can interleave. -/
structure Signals where
  /-- The thread inside the section that guards the next four fields. -/
  holder : Option Nat
  start : Option Stamp
  cause : Option AbortCause
  abortTime : Option Stamp
  /-- The threads that wait for the start and have not been notified. -/
  waiting : List Nat
  /-- The start time for readers outside the section, valid once `startFixed` is set. -/
  startCell : Stamp
  startFixed : Bool
  aborted : Bool
  /-- The thread inside the section that guards the list of sleepers. -/
  sleepersHolder : Option Nat
  sleepers : List Nat
  /-- The sleepers whose next park returns at once. -/
  tokens : List Nat
  /-- The threads that have not finished their initialization. -/
  uninitialized : Nat

namespace Signals

/-- The memory before a run of the given count of threads. -/
def fresh (threads : Nat) : Signals :=
  { holder := none, start := none, cause := none, abortTime := none, waiting := [],
    startCell := 0, startFixed := false, aborted := false, sleepersHolder := none,
    sleepers := [], tokens := [], uninitialized := threads }

end Signals

inductive Wait
  | reached
  | cancelled
  deriving DecidableEq

/-- What a thread can do with the shared memory and the clock. -/
inductive Call
  | clock
  | isAborted
  /-- The start time, if it is fixed. Never waits. -/
  | startTime
  /-- Waits for the start time; an abort takes precedence over it. -/
  | awaitStart
  /-- Fixes the start time. Only the first call has an effect. -/
  | fixStart (t : Stamp)
  /-- Raises the abort. Only the first call has an effect. -/
  | abort (cause : AbortCause)
  | abortCause
  /-- The reading taken when the abort was raised. -/
  | abortTime
  /-- Enters the calling thread into the list of sleepers. -/
  | enrol
  /-- Sleeps until the clock reaches a time or the run is aborted. -/
  | sleepUntil (t : Stamp)
  /-- Lets a span pass, whatever happens. -/
  | pass (s : Span)
  | arrive
  | awaitAll
  deriving DecidableEq

namespace Call

def Reply : Call → Type
  | clock => Stamp
  | isAborted => Bool
  | startTime => Option Stamp
  | awaitStart => Option Stamp
  | fixStart _ => Bool
  | abort _ => Bool
  | abortCause => Option AbortCause
  | abortTime => Option Stamp
  | enrol => Unit
  | sleepUntil _ => Wait
  | pass _ => Unit
  | arrive => Unit
  | awaitAll => Unit

inductive PollPoint
  | loadFlag
  | loadTime

inductive AwaitPoint
  | enter
  | look
  /-- Outside the section until a notification comes. -/
  | wait

inductive FixPoint
  | enter
  | look
  | storeTime
  | storeFlag
  | notify
  | leave

inductive AbortPoint
  | enter
  | look
  | raise
  | stamp
  | notify
  | leave
  | enterSleepers
  /-- Gives a token to each of the sleepers in turn. -/
  | wake (left : List Nat)
  | leaveSleepers

inductive GuardedPoint
  | enter
  | look

inductive EnrolPoint
  | enter
  | add
  | leave

inductive SleepPoint
  | checkFlag
  | checkClock
  | park

inductive PassPoint
  | begin
  | rest (deadline : Stamp)

/-- The places within a call at which its thread can be between two atomic steps. -/
def Point : Call → Type
  | startTime => PollPoint
  | awaitStart => AwaitPoint
  | fixStart _ => FixPoint
  | abort _ => AbortPoint
  | abortCause | abortTime => GuardedPoint
  | enrol => EnrolPoint
  | sleepUntil _ => SleepPoint
  | pass _ => PassPoint
  | clock | isAborted | arrive | awaitAll => Unit

/-- Where a call begins. -/
def entry : (c : Call) → c.Point
  | startTime => PollPoint.loadFlag
  | awaitStart => AwaitPoint.enter
  | fixStart _ => FixPoint.enter
  | abort _ => AbortPoint.enter
  | abortCause | abortTime => GuardedPoint.enter
  | enrol => EnrolPoint.enter
  | sleepUntil _ => SleepPoint.checkFlag
  | pass _ => PassPoint.begin
  | clock | isAborted | arrive | awaitAll => ()

/-- The outcome of trying one atomic step of a call. -/
inductive Progress (c : Call)
  /-- The thread has to wait for another one, or for the clock. -/
  | blocked
  | moved (signals : Signals) (point : c.Point)
  | answered (signals : Signals) (reply : c.Reply)

/-- Enters the section of the signals if no thread is inside. -/
def enterSection {c : Call} (me : Nat) (s : Signals) (point : c.Point) : Progress c :=
  match s.holder with
  | some _ => .blocked
  | none => .moved { s with holder := some me } point

/-- Enters the section of the sleepers if no thread is inside. -/
def enterSleepersSection {c : Call} (me : Nat) (s : Signals) (point : c.Point) : Progress c :=
  match s.sleepersHolder with
  | some _ => .blocked
  | none => .moved { s with sleepersHolder := some me } point

def leaveSection (s : Signals) : Signals := { s with holder := none }

/-- Reads within the section and leaves it. -/
def guarded {c : Call} (me : Nat) (s : Signals) (point : GuardedPoint) (inside : c.Point)
    (value : c.Reply) : Progress c :=
  match point with
  | .enter => enterSection me s inside
  | .look => .answered (leaveSection s) value

def stepPoll (s : Signals) : PollPoint → Progress startTime
  | .loadFlag =>
    if s.startFixed then .moved s PollPoint.loadTime else .answered s (none : Option Stamp)
  | .loadTime => .answered s (some s.startCell)

def stepAwait (me : Nat) (s : Signals) : AwaitPoint → Progress awaitStart
  | .enter => enterSection me s AwaitPoint.look
  | .look =>
    match s.cause, s.start with
    | some _, _ => .answered (leaveSection s) (none : Option Stamp)
    | none, some start => .answered (leaveSection s) (some start)
    | none, none => .moved { s with holder := none, waiting := me :: s.waiting } AwaitPoint.wait
  | .wait => if me ∈ s.waiting then .blocked else .moved s AwaitPoint.enter

def stepFix (t : Stamp) (me : Nat) (s : Signals) : FixPoint → Progress (fixStart t)
  | .enter => enterSection me s FixPoint.look
  | .look =>
    match s.start with
    | some _ => .answered (leaveSection s) false
    | none => .moved { s with start := some t } FixPoint.storeTime
  | .storeTime => .moved { s with startCell := t } FixPoint.storeFlag
  | .storeFlag => .moved { s with startFixed := true } FixPoint.notify
  | .notify => .moved { s with waiting := [] } FixPoint.leave
  | .leave => .answered (leaveSection s) true

/-- The flag is raised before the time of the abort is read, so that a thread which finds the flag
down has taken all its readings no later. -/
def stepAbort (cause : AbortCause) (me : Nat) (now : Stamp) (s : Signals) :
    AbortPoint → Progress (abort cause)
  | .enter => enterSection me s AbortPoint.look
  | .look =>
    match s.cause with
    | some _ => .answered (leaveSection s) false
    | none => .moved { s with cause := some cause } AbortPoint.raise
  | .raise => .moved { s with aborted := true } AbortPoint.stamp
  | .stamp => .moved { s with abortTime := some now } AbortPoint.notify
  | .notify => .moved { s with waiting := [] } AbortPoint.leave
  | .leave => .moved (leaveSection s) AbortPoint.enterSleepers
  | .enterSleepers => enterSleepersSection me s (AbortPoint.wake s.sleepers)
  | .wake [] => .moved s AbortPoint.leaveSleepers
  | .wake (sleeper :: left) =>
    .moved { s with tokens := sleeper :: s.tokens } (AbortPoint.wake left)
  | .leaveSleepers => .answered { s with sleepersHolder := none } true

def stepEnrol (me : Nat) (s : Signals) : EnrolPoint → Progress enrol
  | .enter => enterSleepersSection me s EnrolPoint.add
  | .add => .moved { s with sleepers := s.sleepers ++ [me] } EnrolPoint.leave
  | .leave => .answered { s with sleepersHolder := none } ()

/-- A sleeper looks at the flag before every look at the clock. A token ends one park early. -/
def stepSleep (t : Stamp) (me : Nat) (now : Stamp) (s : Signals) :
    SleepPoint → Progress (sleepUntil t)
  | .checkFlag =>
    if s.aborted then .answered s Wait.cancelled else .moved s SleepPoint.checkClock
  | .checkClock => if t ≤ now then .answered s Wait.reached else .moved s SleepPoint.park
  | .park =>
    if me ∈ s.tokens then .moved { s with tokens := s.tokens.filter (· != me) } SleepPoint.checkFlag
    else if t ≤ now then .moved s SleepPoint.checkFlag
    else .blocked

def stepPass (span : Span) (now : Stamp) (s : Signals) : PassPoint → Progress (pass span)
  | .begin => .moved s (PassPoint.rest (Stamp.plus now (Stamp.ofSpan span)))
  | .rest deadline => if deadline ≤ now then .answered s () else .blocked

/-- One atomic step of a call by the thread `me` when the clock shows `now`. -/
def step (me : Nat) (now : Stamp) (s : Signals) : (c : Call) → c.Point → Progress c
  | clock, _ => .answered s now
  | isAborted, _ => .answered s s.aborted
  | startTime, p => stepPoll s p
  | awaitStart, p => stepAwait me s p
  | fixStart t, p => stepFix t me s p
  | abort cause, p => stepAbort cause me now s p
  | abortCause, p => guarded me s p GuardedPoint.look s.cause
  | abortTime, p => guarded me s p GuardedPoint.look s.abortTime
  | enrol, p => stepEnrol me s p
  | sleepUntil t, p => stepSleep t me now s p
  | pass span, p => stepPass span now s p
  | arrive, _ => .answered { s with uninitialized := s.uninitialized - 1 } ()
  | awaitAll, _ => if s.uninitialized = 0 then .answered s () else .blocked

/-- The clock reading that would let a blocked call go on, if it waits for one. -/
def wakeTime? : (c : Call) → c.Point → Option Stamp
  | sleepUntil t, SleepPoint.park => some t
  | pass _, PassPoint.rest deadline => some deadline
  | _, _ => none

end Call

end LoadGen
