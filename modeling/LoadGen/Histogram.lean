import LoadGen.Binary64
import LoadGen.Total

namespace LoadGen

/-- Counts of values to three significant digits: the bins have one width up to 2048 units, and from
there on twice the width for every doubling of the values. Values below `low` need not be told
apart, and those beyond the range of `high` count as `high`. -/
structure Histogram where
  low : Nat
  high : Nat
  /-- The filled bins by their least value, in increasing order, with their counts. -/
  bins : List (Nat × Nat)
  greatest : Nat
  deriving DecidableEq

namespace Histogram

/-- Why there is no histogram of a range. -/
inductive RangeError
  | lowIsZero
  | highBelowTwiceLow
  | lowTooLarge
  deriving DecidableEq

def RangeError.message : RangeError → String
  | lowIsZero => "Lowest discernible value must be >= 1"
  | highBelowTwiceLow => "Highest trackable value must be >= 2 * lowest discernible value"
  | lowTooLarge => "Cannot represent sigfig worth of values beyond low"

/-- The empty histogram of a range of 64-bit values. -/
def empty (low high : Nat) : Except RangeError Histogram :=
  if low = 0 then .error .lowIsZero
  else if high < 2 * low then .error .highBelowTwiceLow
  else if 52 < low.log2 then .error .lowTooLarge
  else .ok ⟨low, high, [], 0⟩

/-- The binary exponent of the width of the narrowest bins. -/
def unit (h : Histogram) : Nat := h.low.log2

/-- How many times the width of the bins has doubled where a value lies. -/
def doublings (h : Histogram) (v : Nat) : Nat := (v >>> h.unit).log2 - 10

/-- The binary exponent of the width of a value's bin. -/
def widthLog (h : Histogram) (v : Nat) : Nat := h.unit + h.doublings v

/-- The least value in the bin of a value. -/
def lowest (h : Histogram) (v : Nat) : Nat := (v >>> h.widthLog v) <<< h.widthLog v

/-- The greatest value in the bin of a value. -/
def highest (h : Histogram) (v : Nat) : Nat := h.lowest v + (1 <<< h.widthLog v) - 1

/-- The value to be counted: a value with wider bins than `high` has is held at `high`. -/
def held (h : Histogram) (v : Nat) : Nat := if h.doublings v ≤ h.doublings h.high then v else h.high

/-- Adds one to the count of a bin. -/
def countBin (bin : Nat) : List (Nat × Nat) → List (Nat × Nat)
  | [] => [(bin, 1)]
  | (b, n) :: rest =>
    if bin < b then (bin, 1) :: (b, n) :: rest
    else if bin = b then (b, n + 1) :: rest
    else (b, n) :: countBin bin rest

def record (h : Histogram) (v : Nat) : Histogram :=
  let v := h.held v
  { h with bins := countBin (h.lowest v) h.bins, greatest := max h.greatest v }

def size (h : Histogram) : Nat := total (h.bins.map (·.2))

/-- The greatest value that looks like the greatest one recorded. -/
def maximum (h : Histogram) : Nat := if h.greatest = 0 then 0 else h.highest h.greatest

/-- The first bin up to which at least `rank` values have been counted, `seen` of them before the
list. -/
def binOfRank? (rank seen : Nat) : List (Nat × Nat) → Option Nat
  | [] => none
  | (bin, n) :: rest => if rank ≤ seen + n then some bin else binOfRank? rank (seen + n) rest

/-- The rank of a quantile among the values. -/
def rankOf (h : Histogram) (q : Binary64) : Nat :=
  let q := if 1 < q then 1 else q
  max (q * Binary64.ofNat h.size).ceilWord 1

/-- The greatest value that looks like the value of a quantile's rank; for the quantile zero the
least one. -/
def quantile (h : Histogram) (q : Binary64) : Nat :=
  match binOfRank? (h.rankOf q) 0 h.bins with
  | none => 0
  | some bin => if q.magnitude = 0 then bin else h.highest bin

/-- The quantiles to show unless others are asked for: 0, 0.5, 0.9, 0.99 and 1. -/
def usualQuantiles : List Binary64 :=
  [0, 50, 90, 99, 100].map fun percent => Binary64.ofDecimal false percent (-2)

def percentile (h : Histogram) (p : Binary64) : Nat := h.quantile (p / 100)

end Histogram

end LoadGen
