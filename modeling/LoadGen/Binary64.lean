import LoadGen.Word

namespace LoadGen

/-- A sign, and the other 63 bits read as one number. Numbers of one sign are ordered as their
magnitudes are. Every finite number is a whole multiple of `2 ^ -1074`, so that each operation is
exact arithmetic on those multiples with one rounding to the nearest number, ties to the even
neighbour. -/
structure Binary64 where
  negative : Bool
  magnitude : Nat
  deriving DecidableEq

namespace Binary64

/-- How many numbers there are from one power of two up to the next, `2 ^ 52`. -/
def binade : Nat := 4503599627370496

/-- The magnitude of the infinities; the larger magnitudes are no numbers. -/
def infinityMagnitude : Nat := 2047 * binade

def zero : Binary64 := ⟨false, 0⟩

def nan : Binary64 := ⟨false, infinityMagnitude + binade / 2⟩

def infinity : Binary64 := ⟨false, infinityMagnitude⟩

instance : Inhabited Binary64 := ⟨zero⟩

def isNaN (x : Binary64) : Bool := decide (infinityMagnitude < x.magnitude)

def isFinite (x : Binary64) : Bool := decide (x.magnitude < infinityMagnitude)

def isInfinite (x : Binary64) : Bool := decide (x.magnitude = infinityMagnitude)

/-- How many multiples of `2 ^ -1074` a finite magnitude stands for. -/
def units (m : Nat) : Nat :=
  if m < binade then m else (binade + m % binade) <<< (m / binade - 1)

/-- One, counted in multiples of `2 ^ -1074`. -/
def unitsOfOne : Nat := 1 <<< 1074

/-- The signed count of multiples of `2 ^ -1074` of a finite number. -/
def value (x : Binary64) : Int :=
  if x.negative then - (units x.magnitude : Int) else units x.magnitude

/-- The whole number nearest to `n / d`, ties to the even one. -/
def roundHalfEven (n d : Nat) : Nat :=
  let q := n / d
  let r := n % d
  if 2 * r < d then q else if d < 2 * r then q + 1 else q + q % 2

/-- The magnitude nearest to `n / d` multiples of `2 ^ -1074`. Above `2 ^ 53` multiples only the
leading 53 binary digits are kept, and a carry out of them moves on to the next binade by itself. -/
def nearestMagnitude (n d : Nat) : Nat :=
  let dropped := (n / d).log2 - 52
  min (dropped * binade + roundHalfEven n (d <<< dropped)) infinityMagnitude

/-- The number nearest to `n / d` multiples of `2 ^ -1074` with the given sign. -/
def nearest (negative : Bool) (n d : Nat) : Binary64 := ⟨negative, nearestMagnitude n d⟩

/-- The number nearest to a natural number. -/
def ofNat (n : Nat) : Binary64 := nearest false (n * unitsOfOne) 1

instance (n : Nat) : OfNat Binary64 n := ⟨ofNat n⟩

def tenTo (n : Nat) : Nat := Nat.pow 10 n

/-- The number nearest to `digits * 10 ^ exponent`. A decimal with more than 400 leading or
trailing places lies beyond every finite number or below half of the smallest one. -/
def ofDecimal (negative : Bool) (digits : Nat) (exponent : Int) : Binary64 :=
  let places := (Nat.toDigits 10 digits).length
  if digits = 0 then ⟨negative, 0⟩
  else if exponent + places > 400 then ⟨negative, infinityMagnitude⟩
  else if exponent + places < -400 then ⟨negative, 0⟩
  else if 0 ≤ exponent then nearest negative (digits * tenTo exponent.toNat * unitsOfOne) 1
  else nearest negative (digits * unitsOfOne) (tenTo (-exponent).toNat)

def neg (x : Binary64) : Binary64 := if x.isNaN then x else ⟨!x.negative, x.magnitude⟩

def abs (x : Binary64) : Binary64 := ⟨false, x.magnitude⟩

def add (x y : Binary64) : Binary64 :=
  if x.isNaN || y.isNaN then nan
  else if x.isInfinite then (if y.isInfinite && x.negative != y.negative then nan else x)
  else if y.isInfinite then y
  else
    let sum := x.value + y.value
    if sum = 0 then ⟨x.negative && y.negative, 0⟩
    else nearest (decide (sum < 0)) sum.natAbs 1

def sub (x y : Binary64) : Binary64 := x.add y.neg

def mul (x y : Binary64) : Binary64 :=
  let negative := x.negative != y.negative
  if x.isNaN || y.isNaN then nan
  else if x.isInfinite || y.isInfinite then
    (if x.magnitude = 0 || y.magnitude = 0 then nan else ⟨negative, infinityMagnitude⟩)
  else nearest negative (units x.magnitude * units y.magnitude) unitsOfOne

def div (x y : Binary64) : Binary64 :=
  let negative := x.negative != y.negative
  if x.isNaN || y.isNaN then nan
  else if x.isInfinite then (if y.isInfinite then nan else ⟨negative, infinityMagnitude⟩)
  else if y.isInfinite then ⟨negative, 0⟩
  else if y.magnitude = 0 then
    (if x.magnitude = 0 then nan else ⟨negative, infinityMagnitude⟩)
  else nearest negative (units x.magnitude * unitsOfOne) (units y.magnitude)

instance : Add Binary64 := ⟨add⟩
instance : Sub Binary64 := ⟨sub⟩
instance : Mul Binary64 := ⟨mul⟩
instance : Div Binary64 := ⟨div⟩
instance : Neg Binary64 := ⟨neg⟩

/-- The place of a number in the order; both zeros have the same one. -/
def rank (x : Binary64) : Int := if x.negative then - (x.magnitude : Int) else x.magnitude

/-- Order of the numbers. Nothing is in order with `nan`. -/
protected def le (x y : Binary64) : Prop :=
  x.isNaN = false ∧ y.isNaN = false ∧ x.rank ≤ y.rank

protected def lt (x y : Binary64) : Prop :=
  x.isNaN = false ∧ y.isNaN = false ∧ x.rank < y.rank

instance : LE Binary64 := ⟨Binary64.le⟩
instance : LT Binary64 := ⟨Binary64.lt⟩

instance (x y : Binary64) : Decidable (x ≤ y) :=
  inferInstanceAs (Decidable (_ ∧ _ ∧ _))

instance (x y : Binary64) : Decidable (x < y) :=
  inferInstanceAs (Decidable (_ ∧ _ ∧ _))

/-- The larger one; a number wins over `nan`. -/
def larger (x y : Binary64) : Binary64 :=
  if x.isNaN then y else if x < y then y else x

/-- The smaller one; a number wins over `nan`. -/
def smaller (x y : Binary64) : Binary64 :=
  if x.isNaN then y else if y < x then y else x

def towardsZero (x : Binary64) : Binary64 := ⟨x.negative, x.magnitude - 1⟩

/-- The whole part, held between 0 and `2 ^ 64 - 1`; 0 for `nan`. -/
def toWord (x : Binary64) : Nat :=
  if x.isNaN || x.negative then 0
  else if x.isInfinite then Word.greatest
  else min (units x.magnitude / unitsOfOne) Word.greatest

/-- The least whole number not below the number, held between 0 and `2 ^ 64 - 1`. -/
def ceilWord (x : Binary64) : Nat :=
  if x.isNaN || x.negative then 0
  else if x.isInfinite then Word.greatest
  else min ((units x.magnitude + unitsOfOne - 1) / unitsOfOne) Word.greatest

/-- The nearest whole number, a half going away from zero, held between 0 and `2 ^ 64 - 1`. -/
def roundWord (x : Binary64) : Nat :=
  if x.isNaN || x.negative then 0
  else if x.isInfinite then Word.greatest
  else min ((2 * units x.magnitude + unitsOfOne) / (2 * unitsOfOne)) Word.greatest

/-- The 64 bits as one number. -/
def toBits (x : Binary64) : Nat := if x.negative then Word.highBit + x.magnitude else x.magnitude

/-- The 64 bits in sixteen hexadecimal digits. -/
def hexadecimal (x : Binary64) : String :=
  let digits := Nat.toDigits 16 x.toBits
  String.ofList (List.replicate (16 - digits.length) '0' ++ digits)

/-- The number with the given 64 bits; all patterns beyond the infinities are the one `nan`. -/
def ofBits (bits : Nat) : Binary64 :=
  let magnitude := bits % Word.highBit
  if infinityMagnitude < magnitude then nan else ⟨decide (Word.highBit ≤ bits), magnitude⟩

/-- The same number as the machine has it, for the functions that only the machine computes. -/
def toMachine (x : Binary64) : Float := Float.ofBits (UInt64.ofNat x.toBits)

def ofMachine (x : Float) : Binary64 := ofBits x.toBits.toNat

def exp (x : Binary64) : Binary64 := ofMachine x.toMachine.exp

/-- The natural logarithm; minus infinity at zero. -/
def ln (x : Binary64) : Binary64 := ofMachine x.toMachine.log

end Binary64

end LoadGen
