import LoadGen.Text.Blank

namespace LoadGen

/-- A file to be created, with the directories on the way to it. -/
structure LogFile where
  directory : String
  name : String
  /-- The names of the directory's path and of the file, as they are written. -/
  components : List String
  /-- Whether the path begins at the root of the file system. -/
  absolute : Bool
  deriving DecidableEq

namespace LogFile

/-- The names between the slashes. Empty names and single points do not count. -/
def componentsOf (path : String) : List String :=
  (((Text.splitAt '/' path.toList).map String.ofList).filter fun c => c ≠ "" ∧ c ≠ ".")

/-- The file of a path; none when its last name is missing or leads upwards. -/
def ofPath? (path : String) : Option LogFile :=
  let absolute := path.startsWith "/"
  let components := componentsOf path
  match components.getLast? with
  | none => none
  | some name =>
    if name = ".." then none
    else
      let above := String.intercalate "/" components.dropLast
      let directory := if absolute then "/" ++ above else if above = "" then "." else above
      some ⟨directory, name, components, absolute⟩

/-- The names in the working directory on the way, `depth` directories below it. -/
def entriesFrom (depth : Int) : List String → List String
  | [] => []
  | c :: rest =>
    if c = ".." then entriesFrom (depth - 1) rest
    else if depth = 0 then c :: entriesFrom 1 rest
    else entriesFrom (depth + 1) rest

/-- The names that creating the file leaves in an empty working directory. -/
def entries (f : LogFile) : List String :=
  if f.absolute then [] else (entriesFrom 0 f.components).eraseDups

end LogFile

end LoadGen
