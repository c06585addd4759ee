import MetricHistory.Sample.Draw

/-!
## The ChaCha stream

The words that random histories are drawn from: the ChaCha stream cipher with twelve rounds, under a
key that a linear congruential generator makes of a 64-bit seed.

* `ChaCha.keyOfSeed`: the key of a seed.
* `ChaCha.block`: the sixteen words of one block of the stream.
* `ChaCha.ofSeed`: the stream of a seed, block after block.
-/

namespace MetricHistory

/-- A stream of words: its key, the number of the next block, and the words left of the last one. -/
structure ChaCha where
  key : Vector UInt32 8
  counter : UInt64
  buffer : List UInt32

namespace ChaCha

/-! ### The key -/

/-- A word turned left by `count` bits. -/
def turnLeft (x count : UInt32) : UInt32 :=
  (x <<< count) ||| (x >>> (32 - count))

/-- The next state of the seed generator. -/
def nextSeed (state : UInt64) : UInt64 :=
  state * 6364136223846793005 + 11634580027462260723

/-- The word that a state of the seed generator gives: its high bits, folded and turned right by the
count in its five highest bits. -/
def seedWord (state : UInt64) : UInt32 :=
  let folded := (((state >>> 18) ^^^ state) >>> 27).toUInt32
  let count := (state >>> 59).toUInt32
  (folded >>> count) ||| (folded <<< ((32 - count) % 32))

/-- The state of the seed generator after so many steps. -/
def seedState (seed : UInt64) : Nat → UInt64
  | 0 => seed
  | n + 1 => nextSeed (seedState seed n)

/-- The key of a seed: the first eight words of the seed generator. -/
def keyOfSeed (seed : UInt64) : Vector UInt32 8 :=
  Vector.ofFn fun i => seedWord (seedState seed (i.val + 1))

/-! ### The blocks -/

/-- The sixteen words that the rounds work on. -/
abbrev Block := Vector UInt32 16

/-- Stirs four words of a block. -/
def quarterRound (b : Block) (i j k l : Fin 16) : Block :=
  let b := b.set i (b[i] + b[j])
  let b := b.set l (turnLeft (b[l] ^^^ b[i]) 16)
  let b := b.set k (b[k] + b[l])
  let b := b.set j (turnLeft (b[j] ^^^ b[k]) 12)
  let b := b.set i (b[i] + b[j])
  let b := b.set l (turnLeft (b[l] ^^^ b[i]) 8)
  let b := b.set k (b[k] + b[l])
  b.set j (turnLeft (b[j] ^^^ b[k]) 7)

/-- A round over the columns of the block and one over its diagonals. -/
def doubleRound (b : Block) : Block :=
  let b := quarterRound b 0 4 8 12
  let b := quarterRound b 1 5 9 13
  let b := quarterRound b 2 6 10 14
  let b := quarterRound b 3 7 11 15
  let b := quarterRound b 0 5 10 15
  let b := quarterRound b 1 6 11 12
  let b := quarterRound b 2 7 8 13
  quarterRound b 3 4 9 14

/-- The block before the rounds: four constants, the key, the counter, and a nonce of zero. -/
def initialBlock (key : Vector UInt32 8) (counter : UInt64) : Block :=
  #v[0x61707865, 0x3320646e, 0x79622d32, 0x6b206574,
    key[0], key[1], key[2], key[3], key[4], key[5], key[6], key[7],
    counter.toUInt32, (counter >>> 32).toUInt32, 0, 0]

/-- The words of a block: twelve rounds, and what was there before them added. -/
def block (key : Vector UInt32 8) (counter : UInt64) : List UInt32 :=
  let start := initialBlock key counter
  let stirred := (List.range 6).foldl (fun b _ => doubleRound b) start
  (Vector.zipWith (· + ·) stirred start).toList

/-! ### The stream -/

/-- The stream of a seed. -/
def ofSeed (seed : UInt64) : ChaCha :=
  { key := keyOfSeed seed, counter := 0, buffer := [] }

/-- The next word of the stream. -/
def next (c : ChaCha) : UInt32 × ChaCha :=
  match c with
  | ⟨key, counter, word :: rest⟩ => (word, ⟨key, counter, rest⟩)
  | ⟨key, counter, []⟩ =>
    match block key counter with
    | [] => (0, ⟨key, counter + 1, []⟩)
    | word :: rest => (word, ⟨key, counter + 1, rest⟩)

instance : WordSource ChaCha := ⟨next⟩

end ChaCha

end MetricHistory
