import LoadGen.ErrorChain
import LoadGen.Phase
import LoadGen.Span.Reading
import LoadGen.Text.Numeral

namespace LoadGen

/-- Why a text is no length of a phase. -/
inductive PhaseLengthError
  | cycles (phase value : String) (e : Text.NumeralError)
  | span (phase : String) (e : Span.ReadError)
  deriving DecidableEq

def PhaseLengthError.chain : PhaseLengthError → ErrorChain
  | cycles phase value e =>
    (ErrorChain.plain e.message).inContext ("Invalid " ++ phase ++ " cycle count: " ++ value)
  | span phase e => (ErrorChain.plain e.message).inContext ("Invalid " ++ phase ++ " duration")

namespace PhaseLength

/-- Reads a count of cycles. Blanks around it do not count. -/
def readCycles (phase value : String) : Except PhaseLengthError Nat :=
  match Text.word (Text.trim value.toList) with
  | .ok n => .ok n
  | .error e => .error (.cycles phase value e)

def readSpan (phase value : String) : Except (Fault PhaseLengthError) Span :=
  match Span.read value.toList with
  | .ok span => .ok span
  | .error e => .error (e.map (.span phase))

end PhaseLength

end LoadGen
