import LoadGen.Random.ChaCha

namespace LoadGen

inductive RandomSource
  | seeded (stream : ChaCha)
  | given (words : Loop)

namespace RandomSource

instance : WordSource RandomSource where
  draw
    | seeded stream => let (w, stream) := WordSource.draw stream; (w, seeded stream)
    | given words => let (w, words) := WordSource.draw words; (w, given words)

end RandomSource

end LoadGen
