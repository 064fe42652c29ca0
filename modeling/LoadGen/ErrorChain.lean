namespace LoadGen

/-- What a context layer adds to the failure below it. -/
inductive Annotation
  | text (message : String)
  | fatal (message : String)
  | aborted
  deriving DecidableEq

/-- A failure, outermost layer first. A `wrapped` layer is a failure of its own with the rest as its
source, while an `annotated` layer only adds its text. -/
inductive ErrorChain
  | plain (message : String)
  | fatal (message : String)
  | aborted
  | wrapped (message : String) (source : ErrorChain)
  | annotated (context : Annotation) (source : ErrorChain)
  deriving DecidableEq

def fatalText (message : String) : String := "fatal: " ++ message

def abortedText : String := "run aborted while waiting"

def Annotation.display : Annotation → String
  | text message => message
  | fatal message => fatalText message
  | aborted => abortedText

namespace ErrorChain

/-- The text of the outermost layer. -/
def display : ErrorChain → String
  | plain message => message
  | fatal message => fatalText message
  | aborted => abortedText
  | wrapped message _ => message
  | annotated context _ => context.display

/-- The texts of the layers below the outermost one. -/
def causes : ErrorChain → List String
  | wrapped _ source | annotated _ source => source.display :: source.causes
  | _ => []

/-- The texts of all layers, outermost first. -/
def layers (e : ErrorChain) : List String := e.display :: e.causes

def full (e : ErrorChain) : String := String.intercalate ": " e.layers

/-- The message of the outermost fatal layer. The value of an annotation is not looked into. -/
def fatalCause? : ErrorChain → Option String
  | fatal message => some message
  | wrapped _ source | annotated _ source => source.fatalCause?
  | plain _ | aborted => none

/-- Whether a cancelled wait lies below the annotations. -/
def isAborted : ErrorChain → Bool
  | aborted => true
  | wrapped _ source | annotated _ source => source.isAborted
  | plain _ | fatal _ => false

/-- Whether the failure ends the whole run. -/
def stopsRun (e : ErrorChain) : Bool := e.fatalCause?.isSome || e.isAborted

/-- The failure with one more text around it. -/
def inContext (message : String) (e : ErrorChain) : ErrorChain := annotated (.text message) e

/-- The failure as a program ends with it: the outermost text, and below it the causes, numbered
when there are several. The lines after the first of a cause are indented as far as its text. -/
def report (e : ErrorChain) : String :=
  let indented (pad line : String) (text : String) : String :=
    line ++ String.intercalate ("\n" ++ pad) (text.splitOn "\n")
  match e.causes with
  | [] => e.display
  | [cause] => e.display ++ "\n\nCaused by:\n" ++ indented "    " "    " cause
  | several =>
    let number (n : Nat) : String :=
      let digits := toString n
      String.ofList (List.replicate (5 - digits.length) ' ') ++ digits ++ ": "
    e.display ++ "\n\nCaused by:\n" ++
      String.intercalate "\n"
        (several.zipIdx.map fun (cause, n) => indented "       " (number n) cause)

end ErrorChain

end LoadGen
