namespace LoadGen

/-- Why a computation has no result: it has been refused, or arithmetic has left its range, after
which nothing can go on. -/
inductive Fault (ε : Type) where
  | refused (reason : ε)
  | overflow
  deriving DecidableEq

namespace Fault

/-- The same fault with its reason seen in another way. -/
def map {ε δ : Type} (f : ε → δ) : Fault ε → Fault δ
  | refused reason => refused (f reason)
  | overflow => overflow

end Fault

/-- A refusal as the outcome of a computation that may also overflow. -/
def refuse {ε α : Type} (reason : ε) : Except (Fault ε) α := .error (.refused reason)

end LoadGen
