import LoadGen.Word

namespace LoadGen.Text

/-- Why a text is no whole number of the range asked for. -/
inductive NumeralError
  | empty
  | invalidDigit
  | tooLarge
  | tooSmall
  deriving DecidableEq

def NumeralError.message : NumeralError → String
  | empty => "cannot parse integer from empty string"
  | invalidDigit => "invalid digit found in string"
  | tooLarge => "number too large to fit in target type"
  | tooSmall => "number too small to fit in target type"

def digit? (c : Char) : Option Nat :=
  if '0' ≤ c ∧ c ≤ '9' then some (c.toNat - '0'.toNat) else none

/-- Reads digits on from `read` and refuses the first character that is no digit or that leads
above `limit`, whichever comes first. -/
def digitsWithin (limit : Nat) (excess : NumeralError) (read : Nat) :
    List Char → Except NumeralError Nat
  | [] => .ok read
  | c :: rest =>
    match digit? c with
    | none => .error .invalidDigit
    | some d =>
      if 10 * read + d ≤ limit then digitsWithin limit excess (10 * read + d) rest
      else .error excess

/-- A natural number up to `limit`, with an optional plus sign. -/
def natural (limit : Nat) : List Char → Except NumeralError Nat
  | [] => .error .empty
  | ['+'] => .error .invalidDigit
  | '+' :: digits => digitsWithin limit .tooLarge 0 digits
  | digits => digitsWithin limit .tooLarge 0 digits

def word (s : List Char) : Except NumeralError Nat := natural Word.greatest s

/-- A whole number of 64 bits with an optional sign. -/
def signedWord : List Char → Except NumeralError Int
  | ['-'] => .error .invalidDigit
  | '-' :: digits => (digitsWithin Word.highBit .tooSmall 0 digits).map fun n => -(n : Int)
  | s => (natural (Word.highBit - 1) s).map fun n => (n : Int)

end LoadGen.Text
