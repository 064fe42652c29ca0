import LoadGen.Span

namespace LoadGen

inductive TimeUnit
  | nanoseconds
  | microseconds
  | milliseconds
  | seconds
  deriving DecidableEq

namespace TimeUnit

def nanos : TimeUnit → Nat
  | nanoseconds => 1
  | microseconds => 1000
  | milliseconds => 1000000
  | seconds => 1000000000

def symbol : TimeUnit → String
  | nanoseconds => "ns"
  | microseconds => "us"
  | milliseconds => "ms"
  | seconds => "s"

def ofSymbol? (s : String) : Option TimeUnit :=
  [nanoseconds, microseconds, milliseconds, seconds].find? (·.symbol = s)

/-- A count of nanoseconds in the unit. -/
def ofNanos (u : TimeUnit) (nanos : Nat) : Binary64 := Binary64.ofNat nanos / Binary64.ofNat u.nanos

/-- A count of units as a span of at most `2 ^ 64 - 1` nanoseconds; none for negative counts. -/
def toSpan (u : TimeUnit) (x : Binary64) : Span := ⟨(x.larger 0 * Binary64.ofNat u.nanos).toWord⟩

end TimeUnit

end LoadGen
