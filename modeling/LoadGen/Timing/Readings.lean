namespace LoadGen.Timing

/-- The text behind a literal one. -/
def afterText? (text s : List Char) : Option (List Char) :=
  if text.isPrefixOf s then some (s.drop text.length) else none

/-- The text behind a whole number. -/
def afterNumber? (s : List Char) : Option (List Char) :=
  let digits := (afterText? ['-'] s).getD s
  let rest := digits.dropWhile Char.isDigit
  if rest.length = digits.length then none else some rest

/-- What stands between the two readings. -/
def readingsMiddle : String := " before its invoke time "

/-- The text behind a response, with its two readings hidden. -/
def hiddenPair? (s : String) : Option String := do
  let rest ← afterNumber? s.toList
  let rest ← afterText? readingsMiddle.toList rest
  let rest ← afterNumber? rest
  some ("#" ++ readingsMiddle ++ "#" ++ String.ofList rest)

/-- The text with every response before its invocation told without the two readings. -/
def hideReadings (s : String) : String :=
  match s.splitOn " responded at " with
  | [] => s
  | first :: parts =>
    parts.foldl (fun done part => done ++ " responded at " ++ (hiddenPair? part).getD part) first

end LoadGen.Timing
