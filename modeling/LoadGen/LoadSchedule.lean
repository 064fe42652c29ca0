import LoadGen.Span.Reading

namespace LoadGen

structure LoadLevel where
  duration : Span
  threads : Nat
  deriving DecidableEq

inductive LoadScheduleError
  | noLevels
  | zeroDuration (threads : Nat)
  deriving DecidableEq

def LoadScheduleError.message : LoadScheduleError → String
  | noLevels => "variable load schedule has no levels"
  | zeroDuration threads =>
    "variable load level for " ++ toString threads ++ " threads has zero duration"

/-- The levels in their order. The last one holds until the end of the run. -/
structure LoadSchedule where
  levels : List LoadLevel
  deriving DecidableEq

namespace LoadSchedule

def ofLevels (levels : List LoadLevel) : Except LoadScheduleError LoadSchedule :=
  if levels.isEmpty then .error .noLevels
  else
    match levels.find? fun level => level.duration.nanos = 0 with
    | some level => .error (.zeroDuration level.threads)
    | none => .ok ⟨levels⟩

def maxThreads (s : LoadSchedule) : Nat := s.levels.foldl (fun n level => max n level.threads) 0

/-- The threads active at a time, the levels given starting at `boundary`, and when the next level
begins. -/
def levelFrom (boundary elapsed : Stamp) : List LoadLevel → Nat × Option Stamp
  | [] => (0, none)
  | [level] => (level.threads, none)
  | level :: rest =>
    let boundary := Stamp.plus boundary (Stamp.ofSpan level.duration)
    if elapsed < boundary then (level.threads, some boundary) else levelFrom boundary elapsed rest

/-- The threads active at a time since the start, and when the next level begins, if one does. -/
def levelAt (s : LoadSchedule) (elapsed : Stamp) : Nat × Option Stamp :=
  levelFrom 0 elapsed s.levels

/-- Why a text is no schedule. -/
inductive ReadError
  | noColon (level : String)
  | threads (level : String)
  | duration (e : Span.ReadError)
  | schedule (e : LoadScheduleError)
  deriving DecidableEq

def ReadError.message : ReadError → String
  | noColon level => "Load level must be duration:threads, got " ++ level
  | threads level => "Invalid thread count in load level: " ++ level
  | duration e => e.message
  | schedule e => "invalid run control: " ++ e.message

/-- Reads one level, `duration:threads`. A faulty thread count is reported before a faulty
duration. -/
def readLevel (level : List Char) : Except (Fault ReadError) LoadLevel :=
  match Text.cutAt? ':' level with
  | none => refuse (.noColon (String.ofList level))
  | some (duration, threads) =>
    match Text.word (Text.trim threads) with
    | .error _ => refuse (.threads (String.ofList level))
    | .ok threads =>
      match Span.read duration with
      | .ok duration => .ok ⟨duration, threads⟩
      | .error e => .error (e.map .duration)

def readLevels : List (List Char) → Except (Fault ReadError) (List LoadLevel)
  | [] => .ok []
  | segment :: rest =>
    match readLevel segment with
    | .error e => .error e
    | .ok level => (readLevels rest).map (level :: ·)

/-- Reads levels between commas. Blank segments do not count. -/
def read (s : List Char) : Except (Fault ReadError) LoadSchedule :=
  let segments := ((Text.splitAt ',' s).map Text.trim).filter fun segment => !segment.isEmpty
  match readLevels segments with
  | .error e => .error e
  | .ok levels =>
    match ofLevels levels with
    | .ok schedule => .ok schedule
    | .error e => refuse (.schedule e)

end LoadSchedule

end LoadGen
