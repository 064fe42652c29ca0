import LoadGen.ErrorChain

namespace LoadGen

inductive RunError
  /-- A thread met a fatal cause and stopped all threads. -/
  | fatal (thread : Nat) (operation : String) (cause : ErrorChain)
  /-- A thread could not use the handler of an operation. -/
  | binding (thread : Nat) (message : String)
  /-- A thread could not create its instance, its sink, or pass the hook before the run. -/
  | initialization (thread : Nat) (driver : String) (cause : ErrorChain)
  | spawn (thread : Nat) (reason : String)
  | panicked (thread : Nat)
  | runControl (message : String)
  deriving DecidableEq

namespace RunError

def message : RunError → String
  | fatal thread operation cause =>
    "thread " ++ toString thread ++ " aborted the run during " ++ operation ++ ": " ++ cause.full
  | binding thread message => "thread " ++ toString thread ++ ": " ++ message
  | initialization thread driver cause =>
    "thread " ++ toString thread ++ ": error initializing driver " ++ driver ++ ": " ++ cause.full
  | spawn thread reason =>
    "failed to spawn driver thread " ++ toString thread ++ ": " ++ reason
  | panicked thread => "driver thread " ++ toString thread ++ " panicked"
  | runControl message => "invalid run control: " ++ message

/-- The texts below the message; only a failed start of a thread has a cause of its own. -/
def sources : RunError → List String
  | spawn _ reason => [reason]
  | _ => []

/-- The failure as a chain of its texts. -/
def chain (e : RunError) : ErrorChain :=
  match e.sources with
  | [] => .plain e.message
  | source :: _ => .wrapped e.message (.plain source)

def thread? : RunError → Option Nat
  | fatal thread _ _ | binding thread _ | initialization thread _ _ | spawn thread _
  | panicked thread => some thread
  | runControl _ => none

end RunError

end LoadGen
