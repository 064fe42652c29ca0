import LoadGen.Binary64.Decimal
import LoadGen.Span

namespace LoadGen.Span

/-- Two places of the nanoseconds counted in a larger unit. -/
def inUnit (nanos unit : Nat) : String :=
  (Binary64.ofNat nanos / Binary64.ofNat unit).fixedText 2

/-- The unit is chosen by the exact nanoseconds, before the number is rounded to two places. -/
def readable (s : Span) : String :=
  if s.nanos < 1000 then toString s.nanos ++ "ns"
  else if s.nanos < 1000000 then inUnit s.nanos 1000 ++ "μs"
  else if s.nanos < 1000000000 then inUnit s.nanos 1000000 ++ "ms"
  else if s.nanos < 60000000000 then inUnit s.nanos 1000000000 ++ "s"
  else
    let minutes := s.seconds / 60
    let seconds := toString (s.seconds % 60) ++ "s"
    if minutes < 60 then toString minutes ++ "m " ++ seconds
    else toString (minutes / 60) ++ "h " ++ toString (minutes % 60) ++ "m " ++ seconds

end LoadGen.Span
