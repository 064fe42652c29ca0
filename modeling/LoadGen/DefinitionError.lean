import LoadGen.Binary64.Decimal

namespace LoadGen

inductive DefinitionError
  | percentileSuffix (label suffix : String)
  | percentileNotANumber (label : String)
  | percentileRange (label : String)
  | nanosecondResponseUnit
  | nanosecondHistogramUnit
  | percentileLimitCount (operation : String) (expected actual : Nat)
  | noPercentileLimit
  | noMax90th
  | noCycle (operation : String)
  | unknownOperation (name : String)
  | duplicateOperation (name : String)
  | emptyMix
  | invalidWeight (name : String) (weight : Binary64)
  | zeroWeights
  | mixLengthMismatch (operations weights : Nat)
  | weightedMix (reason : String)
  | backgroundTimings (operations timings : Nat)
  | negativeBound (field : String) (value : Binary64)
  | nonFinite (field : String) (value : Binary64)
  | invertedBounds (least most : Binary64)
  | deviation (value : Binary64)
  | threadPerScale (value : Binary64)
  | missingMix
  deriving DecidableEq

def DefinitionError.message : DefinitionError → String
  | percentileSuffix label suffix => "invalid percentile suffix " ++ suffix ++ " in " ++ label
  | percentileNotANumber label => label ++ " not a number"
  | percentileRange label => "percentile " ++ label ++ " must be greater than 0 and less than 100"
  | nanosecondResponseUnit => "response time unit must not be nanoseconds"
  | nanosecondHistogramUnit => "histogram unit must not be nanoseconds"
  | percentileLimitCount operation expected actual =>
    "operation " ++ operation ++ " has " ++ toString actual ++
      " percentile limits, driver declares " ++ toString expected ++ " percentiles"
  | noPercentileLimit => "at least one percentile limit must be specified"
  | noMax90th => "at least one max90th must be specified"
  | noCycle operation => "no cycle distribution for operation " ++ operation
  | unknownOperation name => "operation \"" ++ name ++ "\" listed in mix not found"
  | duplicateOperation name => "duplicate operation name " ++ name
  | emptyMix => "mix has no operations"
  | invalidWeight name weight =>
    "mix weight for " ++ name ++ " is " ++ weight.text ++
      ", weights must be finite and non-negative"
  | zeroWeights => "mix weights sum to zero"
  | mixLengthMismatch operations weights =>
    "mix lists " ++ toString operations ++ " operations but " ++ toString weights ++ " weights"
  | weightedMix reason => "mix weights rejected: " ++ reason
  | backgroundTimings operations timings =>
    "no of background ops must match the no of timings, currently " ++ toString operations ++
      " vs " ++ toString timings
  | negativeBound field value => field ++ " must not be negative, got " ++ value.text
  | nonFinite field value => field ++ " must be finite, got " ++ value.text
  | invertedBounds least most => "uniform cycle min " ++ least.text ++ " exceeds max " ++ most.text
  | deviation value => "cycle deviation " ++ value.text ++ " must be in [0, 100)"
  | threadPerScale value => "thread per scale must be positive, got " ++ value.text
  | missingMix => "driver defines no foreground mix"

/-- Whether a number is a percentage that a deviation may have. -/
def isDeviation (x : Binary64) : Bool := x.isFinite && decide (0 ≤ x ∧ x < 100)

end LoadGen
