import LoadGen.Word

namespace LoadGen

/-- A source of words: each draw gives a word and the source for the draws after it. -/
class WordSource (ρ : Type) where
  draw : ρ → UInt64 × ρ

namespace Random

variable {ρ : Type} [WordSource ρ]

/-- How many words a draw by rejection takes at most. The last one is kept as it is. -/
def attempts : Nat := 65536

/-- A word below `2 ^ 53`, the whole number behind a fraction of that denominator. -/
def fraction53 (r : ρ) : Nat × ρ :=
  let (w, r) := WordSource.draw r
  (w.toNat >>> 11, r)

def repeated {α : Type} (draw : ρ → α × ρ) : Nat → ρ → List α × ρ
  | 0, r => ([], r)
  | n + 1, r =>
    let (x, r) := draw r
    let (xs, r) := repeated draw n r
    (x :: xs, r)

/-- Scales words to the range and rejects those in the incomplete last part of the 64-bit range. -/
def scaled (range zone : Nat) : Nat → ρ → Nat × ρ
  | 0, r => (0, r)
  | more + 1, r =>
    let (w, r) := WordSource.draw r
    let product := w.toNat * range
    if more = 0 ∨ product % Word.count ≤ zone then (product / Word.count, r)
    else scaled range zone more r

/-- A number between `low` and `high`, all of them alike likely; both take 64 bits. -/
def between (low high : Nat) (r : ρ) : Nat × ρ :=
  let range := high + 1 - low
  if range = Word.count then
    let (w, r) := WordSource.draw r
    (w.toNat, r)
  else
    let zone := range <<< (63 - range.log2) - 1
    let (n, r) := scaled range zone attempts r
    (low + n, r)

end Random

/-- A list of words taken round and round, and the words still ahead in this round. -/
structure Loop where
  words : List UInt64
  ahead : List UInt64

namespace Loop

def ofList (words : List UInt64) : Loop := ⟨words, words⟩

instance : WordSource Loop where
  draw l :=
    match l.ahead with
    | w :: rest => (w, ⟨l.words, rest⟩)
    | [] =>
      match l.words with
      | w :: rest => (w, ⟨l.words, rest⟩)
      | [] => (0, l)

end Loop

end LoadGen
