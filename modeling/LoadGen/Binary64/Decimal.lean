import LoadGen.Binary64
import LoadGen.Text.Numeral

namespace LoadGen.Binary64

open Text (digit?)

/-- The digits a text begins with, and the rest of it. -/
def spanDigits (s : List Char) : List Char × List Char :=
  s.span fun c => (digit? c).isSome

def digitsValue (digits : List Char) : Nat :=
  digits.foldl (fun n c => 10 * n + (digit? c).getD 0) 0

/-- The power of ten after `e` or `E`; zero when nothing follows. -/
def readExponent : List Char → Option Int
  | [] => some 0
  | e :: rest =>
    if e = 'e' ∨ e = 'E' then
      let (negative, digits) :=
        match rest with
        | '-' :: digits => (true, digits)
        | '+' :: digits => (false, digits)
        | digits => (false, digits)
      if digits.isEmpty || digits.any (fun c => (digit? c).isNone) then none
      else
        let n : Int := digitsValue digits
        some (if negative then -n else n)
    else none

/-- Digits with at most one point among them, and a power of ten. -/
def readUnsigned (negative : Bool) (s : List Char) : Option Binary64 :=
  let (whole, rest) := spanDigits s
  let (fraction, rest) :=
    match rest with
    | '.' :: rest => spanDigits rest
    | rest => ([], rest)
  if whole.isEmpty && fraction.isEmpty then none
  else (readExponent rest).map fun exponent =>
    ofDecimal negative (digitsValue (whole ++ fraction)) (exponent - fraction.length)

/-- Reads an optional sign and then a decimal number or, in letters of either case, `inf`,
`infinity` or `nan`. -/
def read? (s : List Char) : Option Binary64 :=
  let (negative, body) :=
    match s with
    | '-' :: body => (true, body)
    | '+' :: body => (false, body)
    | body => (false, body)
  let word := body.map Char.toLower
  if word = "inf".toList ∨ word = "infinity".toList then some ⟨negative, infinityMagnitude⟩
  else if word = "nan".toList then some nan
  else readUnsigned negative body

/-- The whole number part of `n / d` and the next one, whichever of them lie in the interval
between `low` and `high`, all counted in the unit of the grid; the nearer one if both do. -/
def gridPoint? (closed : Bool) (low high n d : Nat) : Option Nat :=
  let q := n / d
  let inside (k : Nat) : Bool :=
    if closed then decide (2 * low ≤ 4 * (k * d) ∧ 4 * (k * d) ≤ 2 * high)
    else decide (2 * low < 4 * (k * d) ∧ 4 * (k * d) < 2 * high)
  match inside q, inside (q + 1) with
  | false, false => none
  | true, false => some q
  | false, true => some (q + 1)
  | true, true => some (if 2 * (n % d) ≤ d then q else q + 1)

/-- Tries the decimal grids from coarse to fine, `10 ^ exponent` being the step of the first one. -/
def shortestFrom (closed : Bool) (low high n : Nat) : Nat → Int → Nat × Int
  | 0, exponent => (n / unitsOfOne, exponent)
  | tries + 1, exponent =>
    let up := tenTo (-exponent).toNat
    let down := unitsOfOne * tenTo exponent.toNat
    match gridPoint? closed (low * up) (high * up) (n * up) down with
    | some k => (k, exponent)
    | none => shortestFrom closed low high n tries (exponent - 1)

/-- The power of ten at the leading digit of `n` multiples of `2 ^ -1074`. -/
def leadingExponent (n : Nat) : Int :=
  if unitsOfOne ≤ n then ((Nat.toDigits 10 (n / unitsOfOne)).length : Int) - 1
  else -((Nat.toDigits 10 (unitsOfOne / n)).length : Int)

/-- Digits and a power of ten: among the decimals that are nearer to the magnitude than to any
other one, those with the fewest digits, and the nearest of these. The bounds of that interval are
twice the sums of the neighbours, and belong to it when the magnitude is even. -/
def shortest (m : Nat) : Nat × Int :=
  let n := units m
  let low := units (m - 1) + n
  let high := n + units (m + 1)
  shortestFrom (m % 2 == 0) low high n 20 (leadingExponent n + 1)

/-- Digits with a point at the right place and no power of ten. -/
def positional (digits : Nat) (exponent : Int) : String :=
  let ds := Nat.toDigits 10 digits
  if 0 ≤ exponent then String.ofList (ds ++ List.replicate exponent.toNat '0')
  else
    let places := (-exponent).toNat
    let padded := List.replicate (places + 1 - ds.length) '0' ++ ds
    let point := padded.length - places
    String.ofList (padded.take point ++ '.' :: padded.drop point)

def signText (x : Binary64) : String := if x.negative then "-" else ""

/-- The digits without the zeros they end in. -/
def dropTrailingZeros : Nat → Nat × Int → Nat × Int
  | 0, d => d
  | tries + 1, (digits, exponent) =>
    if digits ≠ 0 ∧ digits % 10 = 0 then dropTrailingZeros tries (digits / 10, exponent + 1)
    else (digits, exponent)

/-- The shortest text that reads back, without a power of ten. -/
def text (x : Binary64) : String :=
  if x.isNaN then "NaN"
  else if x.isInfinite then x.signText ++ "inf"
  else if x.magnitude = 0 then x.signText ++ "0"
  else
    let (digits, exponent) := dropTrailingZeros 20 (shortest x.magnitude)
    x.signText ++ positional digits exponent

/-- The number rounded to a count of places, a tie going to the even digit. -/
def fixedText (places : Nat) (x : Binary64) : String :=
  if x.isNaN then "NaN"
  else if x.isInfinite then x.signText ++ "inf"
  else
    let scaled := roundHalfEven (units x.magnitude * tenTo places) unitsOfOne
    x.signText ++ positional scaled (-(places : Int))

end LoadGen.Binary64
