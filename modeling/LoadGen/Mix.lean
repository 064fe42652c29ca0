import LoadGen.DefinitionError
import LoadGen.Random.ChaCha
import LoadGen.Random.Real

namespace LoadGen

/-- Weights with their running sums, ready for draws. -/
structure WeightTable where
  weights : List Binary64
  /-- The sums of the first one, two, … weights, without the sum of all of them. -/
  sums : List Binary64
  /-- The factor that takes fractions below one to numbers below the sum of all weights. -/
  scale : Binary64
  deriving DecidableEq

namespace WeightTable

/-- All sums of one or more leading weights, `total` being the sum before the list. -/
def runningSums (total : Binary64) : List Binary64 → List Binary64
  | [] => []
  | w :: rest => (total + w) :: runningSums (total + w) rest

/-- The largest fraction that a draw multiplies the scale with. -/
def largestFraction : Binary64 := 1 - ⟨false, (1023 - 52) * Binary64.binade⟩

/-- The largest number of at most the given magnitude whose scaled fractions all lie below the
total. -/
def scaleBelow (total : Binary64) : Nat → Binary64
  | 0 => 0
  | m + 1 =>
    if total ≤ ⟨false, m + 1⟩ * largestFraction then scaleBelow total m else ⟨false, m + 1⟩

def ofWeights (weights : List Binary64) : Except String WeightTable :=
  match weights with
  | [] => .error "No weights provided in distribution"
  | first :: rest =>
    let sums := first :: runningSums first rest
    let total := sums.getLastD first
    if total.rank = 0 then .error "All weights are zero in distribution"
    else .ok ⟨weights, sums.dropLast, scaleBelow total total.magnitude⟩

/-- The position drawn by a word: how many sums the scaled fraction has reached. -/
def position (t : WeightTable) (w : UInt64) : Nat :=
  let x := (Random.oneToTwo w - 1) * t.scale + 0
  t.sums.countP fun s => decide (s ≤ x)

end WeightTable

/-- How the next operation of a mix is chosen. -/
inductive Choice
  | weighted (table : WeightTable)
  | sequence
  deriving DecidableEq

/-- The operations of a mix by their place in the workload, and the deviation in percent that its
observed shares may show. -/
structure Mix where
  operations : List Nat
  choice : Choice
  deviation : Binary64
  deriving DecidableEq

namespace Mix

def defaultDeviation : Binary64 := 2

def firstInvalidWeight? : List Binary64 → List String → Option DefinitionError
  | [], _ => none
  | w :: weights, names =>
    if w.isFinite ∧ 0 ≤ w then firstInvalidWeight? weights names.tail
    else some (.invalidWeight (names.headD "?") w)

/-- A mix of independent weighted draws. The weights are scaled to sum to one. -/
def flat (operations : List Nat) (weights : List Binary64) (names : List String) :
    Except DefinitionError Mix :=
  if operations.isEmpty then .error .emptyMix
  else if operations.length ≠ weights.length then
    .error (.mixLengthMismatch operations.length weights.length)
  else
    match firstInvalidWeight? weights names with
    | some e => .error e
    | none =>
      let total := weights.foldl (· + ·) 0
      if total ≤ 0 then .error .zeroWeights
      else
        match WeightTable.ofWeights (weights.map (· / total)) with
        | .ok table => .ok ⟨operations, .weighted table, defaultDeviation⟩
        | .error reason => .error (.weightedMix reason)

/-- The operations in their order, over and over. -/
def fixedSequence (operations : List Nat) : Except DefinitionError Mix :=
  if operations.isEmpty then .error .emptyMix else .ok ⟨operations, .sequence, defaultDeviation⟩

def withDeviation (m : Mix) (deviation : Binary64) : Except DefinitionError Mix :=
  if isDeviation deviation then .ok { m with deviation := deviation }
  else .error (.deviation deviation)

/-- The share that each listed operation should have. -/
def expectedShares (m : Mix) : List (Nat × Binary64) :=
  match m.choice with
  | .weighted table => m.operations.zip table.weights
  | .sequence =>
    let share := 1 / Binary64.ofNat m.operations.length
    m.operations.map fun operation => (operation, share)

end Mix

/-- What a selector knows of its draws so far: its own word source, or its place in the sequence. -/
inductive SelectorState
  | weighted (table : WeightTable) (random : ChaCha)
  | sequence (position : Nat)

structure Selector where
  operations : List Nat
  state : SelectorState

/-- A selector of the mix; a weighted one is seeded with the next word of the source. -/
def Mix.selector {ρ : Type} [WordSource ρ] (m : Mix) (r : ρ) : Selector × ρ :=
  match m.choice with
  | .weighted table =>
    let (seed, r) := WordSource.draw r
    (⟨m.operations, .weighted table (ChaCha.ofSeed seed)⟩, r)
  | .sequence => (⟨m.operations, .sequence 0⟩, r)

/-- The next operation and the selector after it. -/
def Selector.select (s : Selector) : Nat × Selector :=
  match s.state with
  | .weighted table random =>
    let (w, random) := WordSource.draw random
    (s.operations.getD (table.position w) 0, { s with state := .weighted table random })
  | .sequence position =>
    (s.operations.getD position 0,
      { s with state := .sequence ((position + 1) % s.operations.length) })

end LoadGen
