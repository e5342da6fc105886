/-!
# Keystream words

An endless stream of 32-bit words made from a 64-bit seed: the blocks of the
ChaCha cipher with eight rounds, a block counter from 0 and a stream number of 0.
The key is expanded from the seed by a linear congruential generator.
-/

namespace MarketTape

/-- A stream of 32-bit words: the next word and the stream behind it. -/
class WordSource (ω : Type) where
  next : ω → UInt32 × ω

/-- A place in a keystream: the key, the number of the next block, and the words
of the last block that are not taken yet. -/
structure Keystream where
  key : Vector UInt32 8
  block : UInt64
  ready : List UInt32

namespace Keystream

/-- The state that the rounds work on. -/
abbrev State := Vector UInt32 16

def rotateLeft (word places : UInt32) : UInt32 :=
  (word <<< places) ||| (word >>> (32 - places))

/-- Adds the word at `b` to the one at `a` and mixes the sum into the word at `d`. -/
def mix (state : State) (a b d : Fin 16) (places : UInt32) : State :=
  let sum := state[a] + state[b]
  (state.set a sum).set d (rotateLeft (state[d] ^^^ sum) places)

def quarterRound (state : State) (a b c d : Fin 16) : State :=
  let state := mix state a b d 16
  let state := mix state c d b 12
  let state := mix state a b d 8
  mix state c d b 7

/-- A round over the columns and a round over the diagonals. -/
def doubleRound (state : State) : State :=
  let state := quarterRound state 0 4 8 12
  let state := quarterRound state 1 5 9 13
  let state := quarterRound state 2 6 10 14
  let state := quarterRound state 3 7 11 15
  let state := quarterRound state 0 5 10 15
  let state := quarterRound state 1 6 11 12
  let state := quarterRound state 2 7 8 13
  quarterRound state 3 4 9 14

/-- The state that a block starts from: four constants, the key, the block
number and the stream number. -/
def initial (key : Vector UInt32 8) (block : UInt64) : State :=
  #v[0x61707865, 0x3320646e, 0x79622d32, 0x6b206574,
    key[0], key[1], key[2], key[3], key[4], key[5], key[6], key[7],
    block.toUInt32, (block >>> 32).toUInt32, 0, 0]

/-- The sixteen words of a block after eight rounds. -/
def blockWords (key : Vector UInt32 8) (block : UInt64) : List UInt32 :=
  let start := initial key block
  let finish := doubleRound (doubleRound (doubleRound (doubleRound start)))
  (Vector.zipWith (· + ·) finish start).toList

/-- The next word, from a fresh block where the last one is used up. -/
def next (stream : Keystream) : UInt32 × Keystream :=
  match stream.ready with
  | word :: ready => (word, { stream with ready })
  | [] =>
    match blockWords stream.key stream.block with
    | word :: ready => (word, { stream with block := stream.block + 1, ready })
    | [] => (0, stream)

instance : WordSource Keystream := ⟨next⟩

/-- One step of the generator that expands a seed. -/
def expand (state : UInt64) : UInt64 := state * 6364136223846793005 + 11634580027462260723

/-- The word that a state of that generator gives: its high bits folded together
and rotated by the highest five. -/
def fold (state : UInt64) : UInt32 :=
  let word := (((state >>> 18) ^^^ state) >>> 27).toUInt32
  let places := (state >>> 59).toUInt32
  (word >>> places) ||| (word <<< ((32 - places) % 32))

/-- The words of consecutive states behind a state. -/
def expansion (state : UInt64) : Nat → List UInt32
  | 0 => []
  | count + 1 => fold (expand state) :: expansion (expand state) count

@[simp] theorem length_expansion (state : UInt64) (count : Nat) :
    (expansion state count).length = count := by
  induction count generalizing state with
  | zero => rfl
  | succ count ih => simp [expansion, ih]

/-- The beginning of the keystream of a seed. -/
def ofSeed (seed : UInt64) : Keystream where
  key := ⟨(expansion seed 8).toArray, by simp⟩
  block := 0
  ready := []

end Keystream

end MarketTape
