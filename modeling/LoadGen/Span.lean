import LoadGen.Binary64
import LoadGen.Word

namespace LoadGen

/-- A length of time. Its whole seconds take at most 64 bits. -/
structure Span where
  nanos : Nat
  deriving DecidableEq

namespace Span

def nanosPerSecond : Nat := 1000000000

/-- The first count of nanoseconds whose seconds need more than 64 bits. -/
def limit : Nat := Word.count * nanosPerSecond

def zero : Span := ⟨0⟩

instance : Inhabited Span := ⟨zero⟩

def ofParts (seconds subsecondNanos : Nat) : Span := ⟨seconds * nanosPerSecond + subsecondNanos⟩

def ofMillis (n : Nat) : Span := ⟨n * 1000000⟩

def seconds (s : Span) : Nat := s.nanos / nanosPerSecond

/-- The nanoseconds beyond the whole seconds. -/
def subsecondNanos (s : Span) : Nat := s.nanos % nanosPerSecond

/-- The whole nanoseconds nearest to a count of seconds that is not negative, ties to even. There
are none when the seconds need more than 64 bits. -/
def ofSeconds? (x : Binary64) : Option Span :=
  if x.isFinite then
    let nanos := Binary64.roundHalfEven (Binary64.units x.magnitude * nanosPerSecond)
      Binary64.unitsOfOne
    if nanos < limit then some ⟨nanos⟩ else none
  else none

/-- The seconds, rounded once for the fraction and once for the sum. -/
def toSeconds (s : Span) : Binary64 :=
  Binary64.ofNat s.seconds + Binary64.ofNat s.subsecondNanos / Binary64.ofNat nanosPerSecond

/-- The span taken several times, unless it grows too long. -/
def times? (s : Span) (n : Nat) : Option Span :=
  if s.nanos * n < limit then some ⟨s.nanos * n⟩ else none

def half (s : Span) : Span := ⟨s.nanos / 2⟩

/-- The nanoseconds as an unsigned number of 64 bits, the largest one for longer spans. -/
def wordNanos (s : Span) : Nat := min s.nanos Word.greatest

end Span

/-- A reading of the run's clock in nanoseconds from its epoch, or a difference of readings; signed
numbers of 64 bits. -/
abbrev Stamp := Int

namespace Stamp

def least : Stamp := -9223372036854775808

def greatest : Stamp := 9223372036854775807

/-- The nearest number that takes 64 bits. -/
def clamp (n : Int) : Stamp := max least (min n greatest)

/-- The sum, held within 64 bits. -/
def plus (a b : Stamp) : Stamp := clamp (a + b)

/-- The difference, held within 64 bits. -/
def minus (a b : Stamp) : Stamp := clamp (a - b)

/-- A span as a difference of readings, the greatest one for longer spans. -/
def ofSpan (s : Span) : Stamp := min (s.nanos : Int) greatest

end Stamp

end LoadGen
