namespace LoadGen.RunId

def hex (b : UInt8) : List Char :=
  let digits := Nat.toDigits 16 b.toNat
  List.replicate (2 - digits.length) '0' ++ digits

/-- The byte at a place, with the version and the variant where they belong. -/
def marked (i : Nat) (b : UInt8) : UInt8 :=
  if i = 6 then (b &&& 0x0f) ||| 0x40
  else if i = 8 then (b &&& 0x3f) ||| 0x80
  else b

/-- Whether a dash stands before the byte at a place. -/
def opensGroup (i : Nat) : Bool := i = 4 || i = 6 || i = 8 || i = 10

def ofBytes (bytes : List UInt8) : String :=
  String.ofList (bytes.zipIdx.flatMap fun (b, i) =>
    (if opensGroup i then ['-'] else []) ++ hex (marked i b))

end LoadGen.RunId
