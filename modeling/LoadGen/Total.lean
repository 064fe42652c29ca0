namespace LoadGen

def total (counts : List Nat) : Nat := counts.foldr (· + ·) 0

end LoadGen
