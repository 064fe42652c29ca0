import LoadGen.Binary64.Decimal
import LoadGen.Fault
import LoadGen.Span
import LoadGen.Text.Blank

namespace LoadGen.Span

open Text (trim dropEnding?)

inductive Unit
  | milliseconds
  | seconds
  | minutes
  | hours
  deriving DecidableEq

/-- A count of units as seconds. -/
def Unit.toSeconds (x : Binary64) : Unit → Binary64
  | milliseconds => x / 1000
  | seconds => x
  | minutes => x * 60
  | hours => x * 3600

/-- Why a text is no span. -/
inductive ReadError
  | empty
  | number (text : String)
  | negative (text : String)
  deriving DecidableEq

def ReadError.message : ReadError → String
  | empty => "Duration cannot be empty"
  | number text => "Invalid number in duration: " ++ text
  | negative text => "Duration must be non-negative: " ++ text

/-- The unit a text ends in, seconds when it names none, and the text before it. -/
def splitUnit (s : List Char) : List Char × Unit :=
  match dropEnding? ['m', 's'] s with
  | some number => (number, .milliseconds)
  | none =>
    match dropEnding? ['s'] s with
    | some number => (number, .seconds)
    | none =>
      match dropEnding? ['m'] s with
      | some number => (number, .minutes)
      | none =>
        match dropEnding? ['h'] s with
        | some number => (number, .hours)
        | none => (s, .seconds)

/-- Reads a span. Blanks around the text do not count; a span of `2 ^ 64` seconds or more
overflows. -/
def read (s : List Char) : Except (Fault ReadError) Span :=
  let body := trim s
  if body.isEmpty then refuse .empty
  else
    let (digits, unit) := splitUnit body
    match Binary64.read? digits with
    | none => refuse (.number (String.ofList digits))
    | some x =>
      if x.isFinite ∧ ¬ x < 0 then
        match ofSeconds? (unit.toSeconds x) with
        | some span => .ok span
        | none => .error .overflow
      else refuse (.negative (String.ofList body))

end LoadGen.Span
