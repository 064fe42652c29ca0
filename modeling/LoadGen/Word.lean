namespace LoadGen.Word

/-- How many numbers take 64 bits, `2 ^ 64`. -/
def count : Nat := 18446744073709551616

def greatest : Nat := 18446744073709551615

/-- The weight of the highest of 64 bits, `2 ^ 63`. -/
def highBit : Nat := 9223372036854775808

end LoadGen.Word
