import LoadGen.Binary64
import LoadGen.Random.Words
import LoadGen.Random.Ziggurat

namespace LoadGen.Random

open Binary64

variable {ρ : Type} [WordSource ρ]

/-- A fraction from 0 below 1, a multiple of `2 ^ -53`. -/
def fraction (r : ρ) : Binary64 × ρ :=
  let (n, r) := fraction53 r
  (nearest false (n * unitsOfOne) (2 * binade), r)

/-- The number from 1 below 2 whose fraction bits are the top 52 bits of a word. -/
def oneToTwo (w : UInt64) : Binary64 := ⟨false, 1023 * binade + (w.toNat >>> 12)⟩

/-- True with the given probability. Certainty takes no word. -/
def chance (p : Binary64) (r : ρ) : Bool × ρ :=
  if p = 1 then (true, r)
  else
    let (w, r) := WordSource.draw r
    (decide (w.toNat < (p * ofNat Word.count).toWord), r)

/-- One less half of the spacing below it. -/
def belowOne : Binary64 := 1 - ⟨false, (1023 - 53) * binade⟩

/-- An exponential time of mean one, by rejection from the layers of the ziggurat. -/
def exponentialFrom : Nat → ρ → Binary64 × ρ
  | 0, r => (0, r)
  | more + 1, r =>
    let (w, r) := WordSource.draw r
    let layer := w.toNat % 256
    let u := oneToTwo w - belowOne
    let x := u * Ziggurat.edge layer
    if x < Ziggurat.edge (layer + 1) then (x, r)
    else if layer = 0 then
      let (v, r) := fraction r
      (Ziggurat.edge 1 - v.ln, r)
    else
      let (v, r) := fraction r
      let height := Ziggurat.density (layer + 1) +
        (Ziggurat.density layer - Ziggurat.density (layer + 1)) * v
      if height < (-x).exp then (x, r) else exponentialFrom more r

/-- An exponential time of the given mean. -/
def exponential (mean : Binary64) (r : ρ) : Binary64 × ρ :=
  let rate := 1 / mean
  let (x, r) := exponentialFrom attempts r
  (x * (1 / rate), r)

end LoadGen.Random
