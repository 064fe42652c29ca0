import LoadGen.DefinitionError
import LoadGen.Text.Blank

namespace LoadGen

open Text (trim dropEnding? digit?)

structure Percentile where
  value : Binary64
  /-- The number as it was written. -/
  label : String
  suffix : Option String
  deriving DecidableEq

namespace Percentile

def isOrdinalSuffix (s : List Char) : Bool :=
  s = ['t', 'h'] || s = ['s', 't'] || s = ['n', 'd'] || s = ['r', 'd']

/-- Cuts off the last two bytes of the text's encoding, which is where an ordinal suffix would
stand. When a character straddles the cut, all of the text is the tail. -/
def splitTail (s : List Char) : List Char × List Char :=
  match s.reverse with
  | [] => ([], [])
  | last :: before =>
    if last.utf8Size = 2 then (before.reverse, [last])
    else
      match before with
      | [] => ([], s)
      | next :: rest =>
        if last.utf8Size = 1 ∧ next.utf8Size = 1 then (rest.reverse, [next, last]) else ([], s)

/-- The number part of a label and its suffix. A label whose last character is no digit has to end
in an ordinal suffix. -/
def splitSuffix (label body : List Char) :
    Except DefinitionError (List Char × Option String) :=
  match body.getLast? with
  | none => .ok (body, none)
  | some last =>
    if (digit? last).isSome then .ok (body, none)
    else
      let (number, tail) := splitTail body
      if isOrdinalSuffix tail then .ok (number, some (String.ofList tail))
      else .error (.percentileSuffix (String.ofList label) (String.ofList tail))

/-- Reads a label. Blanks around it and one percent sign at its end do not count. -/
def read (label : List Char) : Except DefinitionError Percentile :=
  let trimmed := trim label
  let body := (dropEnding? ['%'] trimmed).getD trimmed
  match splitSuffix label body with
  | .error e => .error e
  | .ok (number, suffix) =>
    match Binary64.read? number with
    | none => .error (.percentileNotANumber (String.ofList number))
    | some value =>
      if 0 < value ∧ value < 100 then .ok ⟨value, String.ofList number, suffix⟩
      else .error (.percentileRange (String.ofList number))

/-- The label and its suffix, a percent sign when it has none. -/
def display (p : Percentile) : String := p.label ++ p.suffix.getD "%"

end Percentile

end LoadGen
