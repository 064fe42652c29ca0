import LoadGen.Event

namespace LoadGen

/-- Where a time of a sample stems from. -/
inductive TimeSource
  /-- It was captured by the time the handler came back. -/
  | captured
  | interim
  /-- It is the time of the sample before in the same slot, or the start. -/
  | previous
  /-- It is the time of the invocation itself. -/
  | invocation
  /-- It was read after the handler came back. -/
  | clock
  deriving DecidableEq

/-- A sample with the sources of its times. -/
structure SampleEntry where
  sample : Sample
  failed : Bool
  invoke : TimeSource
  respond : TimeSource
  /-- The intended time counted from a known start, for the first sample of a slot. -/
  sinceStart : Option Stamp
  deriving DecidableEq

/-- A delay with the time it was counted from, if that is known, and the sample it led to. -/
structure DelayEntry where
  delay : DelaySample
  reference : Option Stamp
  sample : Option Sample
  deriving DecidableEq

inductive ChronicleEntry
  | hookBefore
  | hookAfter
  /-- A handler has come back, with what it put out. -/
  | call (operation : Nat) (notes : List Note)
  | sample (entry : SampleEntry)
  | delay (entry : DelayEntry)
  deriving DecidableEq

/-- Whether the entry is about what the metrics account for. -/
def ChronicleEntry.isAccount : ChronicleEntry → Bool
  | sample _ | delay _ => true
  | _ => false

/-- What is known of a trace while it is retold. -/
structure Chronicle where
  /-- The start of the run, if all delays are counted from it. -/
  start : Option Stamp
  background : Bool
  notes : List Note
  captured : Timing
  /-- The last sample of the foreground and of the background. -/
  foregroundLast : Option Sample
  backgroundLast : Option Sample
  /-- The times before the latest sample, and that sample. -/
  before : Option (Stamp × Stamp)
  latest : Option Sample
  /-- The latest entry first. -/
  entries : List ChronicleEntry

namespace Chronicle

def empty (start : Option Stamp) : Chronicle :=
  ⟨start, false, [], Timing.empty, none, none, none, none, []⟩

def last (c : Chronicle) : Option Sample :=
  if c.background then c.backgroundLast else c.foregroundLast

/-- The invocation and the response of the slot's last sample, or the start. -/
def previous (c : Chronicle) : Option (Stamp × Stamp) :=
  match c.last with
  | some sample => some (sample.invoke, sample.respond)
  | none => c.start.map fun t => (t, t)

def push (c : Chronicle) (entry : ChronicleEntry) : Chronicle :=
  { c with entries := entry :: c.entries }

def invokeSource (c : Chronicle) (sample : Sample) : TimeSource :=
  if c.captured.invoke = some sample.invoke then .captured
  else if c.previous.map (·.1) = some sample.invoke then .previous
  else .clock

def respondSource (c : Chronicle) (failed : Bool) (sample : Sample) : TimeSource :=
  if c.captured.respond = some sample.respond then .captured
  else if c.captured.lastRespond = some sample.respond then .interim
  else if c.previous.map (·.2) = some sample.respond then .previous
  else if failed ∧ sample.respond = sample.invoke then .invocation
  else .clock

def sinceStart (c : Chronicle) (sample : Sample) : Option Stamp :=
  match c.last with
  | some _ => none
  | none => c.start.map fun start => Stamp.minus sample.intended start

def withSample (c : Chronicle) (failed : Bool) (sample : Sample) : Chronicle :=
  let entry : SampleEntry :=
    ⟨sample, failed, c.invokeSource sample, c.respondSource failed sample, c.sinceStart sample⟩
  let c := { c.push (.sample entry) with before := c.previous, latest := some sample }
  if c.background then { c with backgroundLast := some sample }
  else { c with foregroundLast := some sample }

def withDelay (c : Chronicle) (d : DelaySample) : Chronicle :=
  let reference := c.before.map fun (invoke, respond) =>
    if d.basis = .cycleTime then invoke else respond
  c.push (.delay ⟨d, reference, c.latest⟩)

def add (c : Chronicle) : Event → Chronicle
  | .hookBefore => c.push .hookBefore
  | .hookAfter => c.push .hookAfter
  | .called background _ _ =>
    { c with background := background, notes := [], captured := Timing.empty }
  | .note content => { c with notes := content :: c.notes }
  | .returned operation r => { c with captured := r }.push (.call operation c.notes.reverse)
  | .transaction sample => c.withSample false sample
  | .error sample => c.withSample true sample
  | .delay d => c.withDelay d
  | _ => c

/-- The entries of a trace in order. -/
def ofTrace (start : Option Stamp) (trace : List Event) : List ChronicleEntry :=
  (trace.foldl add (empty start)).entries.reverse

end Chronicle

end LoadGen
