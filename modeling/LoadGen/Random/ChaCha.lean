import LoadGen.Random.Words

namespace LoadGen

/-- A key stream of twelve rounds: the key, the counter of the next block, and the words left of the
last block. -/
structure ChaCha where
  key : List UInt32
  counter : UInt64
  pending : List UInt64

namespace ChaCha

def rotateLeft (x : UInt32) (n : UInt32) : UInt32 := (x <<< n) ||| (x >>> (32 - n))

/-- Mixes the four words of a state at the given places. -/
def quarterRound (s : Array UInt32) (i j k l : Nat) : Array UInt32 :=
  let a := s.getD i 0
  let b := s.getD j 0
  let c := s.getD k 0
  let d := s.getD l 0
  let a := a + b
  let d := rotateLeft (d ^^^ a) 16
  let c := c + d
  let b := rotateLeft (b ^^^ c) 12
  let a := a + b
  let d := rotateLeft (d ^^^ a) 8
  let c := c + d
  let b := rotateLeft (b ^^^ c) 7
  (((s.setIfInBounds i a).setIfInBounds j b).setIfInBounds k c).setIfInBounds l d

/-- One round over the columns and one over the diagonals. -/
def doubleRound (s : Array UInt32) : Array UInt32 :=
  let s := quarterRound s 0 4 8 12
  let s := quarterRound s 1 5 9 13
  let s := quarterRound s 2 6 10 14
  let s := quarterRound s 3 7 11 15
  let s := quarterRound s 0 5 10 15
  let s := quarterRound s 1 6 11 12
  let s := quarterRound s 2 7 8 13
  quarterRound s 3 4 9 14

/-- The first four words of every block. -/
def constants : List UInt32 := [0x61707865, 0x3320646e, 0x79622d32, 0x6b206574]

/-- The words of a block before the rounds: constants, key, counter, and two zeros. -/
def initial (key : List UInt32) (counter : UInt64) : Array UInt32 :=
  (constants ++ key ++ [counter.toUInt32, (counter >>> 32).toUInt32, 0, 0]).toArray

def block (key : List UInt32) (counter : UInt64) : List UInt32 :=
  let start := initial key counter
  let mixed := (List.range 6).foldl (fun s _ => doubleRound s) start
  List.zipWith (· + ·) mixed.toList start.toList

/-- Neighbouring words of 32 bits as words of 64 bits, the first one the low half. -/
def paired : List UInt32 → List UInt64
  | low :: high :: rest => (low.toUInt64 ||| (high.toUInt64 <<< 32)) :: paired rest
  | _ => []

def rotateRight (x : UInt32) (n : UInt32) : UInt32 :=
  if n = 0 then x else (x >>> n) ||| (x <<< (32 - n))

/-- One step of the key expansion: the next state and the key word it gives. -/
def expand (state : UInt64) : UInt64 × UInt32 :=
  let state := state * 6364136223846793005 + 11634580027462260723
  let shifted := ((((state >>> 18) ^^^ state) >>> 27)).toUInt32
  (state, rotateRight shifted (state >>> 59).toUInt32)

def expandKey : Nat → UInt64 → List UInt32
  | 0, _ => []
  | n + 1, state =>
    let (state, word) := expand state
    word :: expandKey n state

def ofSeed (seed : UInt64) : ChaCha := ⟨expandKey 8 seed, 0, []⟩

instance : WordSource ChaCha where
  draw g :=
    match g.pending with
    | w :: rest => (w, { g with pending := rest })
    | [] =>
      match paired (block g.key g.counter) with
      | w :: rest => (w, ⟨g.key, g.counter + 1, rest⟩)
      | [] => (0, { g with counter := g.counter + 1 })

end ChaCha

end LoadGen
