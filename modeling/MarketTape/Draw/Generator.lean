import MarketTape.Draw.Basic
import MarketTape.Keystream
import MarketTape.Walk

/-!
# Draws from random words

A generator makes its draws from a stream of 32-bit words. Whole numbers are
drawn without bias: a word is multiplied by the size of the range, the high half
of the product is the value, and words whose low half falls into the uneven rest
are refused and drawn again. Fractions take the high bits of two words.
-/

namespace MarketTape

-- Powers are the core library's, whichever others are in scope.
attribute [local instance (2000)] instPowNat

/-- A source of draws over a stream of words. -/
structure Generator (ω : Type) where
  words : ω

namespace Generator

/-- The shortest time from one tick to the next. -/
def minTimeStep : Nat := 10000000

/-- The longest time from one tick to the next. -/
def maxTimeStep : Nat := 500000000

/-- The sizes of a quote are whole lots, between these numbers of them. -/
def minBookLots : Nat := 100

def maxBookLots : Nat := 1000

/-- The size of a lot. -/
def lot : Nat := 10

def minTradeSize : Nat := 10

def maxTradeSize : Nat := 200

section Words

variable {ω : Type} [WordSource ω]

/-- One word as a number. -/
def word (words : ω) : Nat × ω :=
  let (low, words) := WordSource.next words
  (low.toNat, words)

/-- Two words as one number, the low word first. -/
def doubleWord (words : ω) : Nat × ω :=
  let (low, words) := word words
  let (high, words) := word words
  (high * UInt32.size + low, words)

end Words

/-- The highest low half that is not refused for a range of `count` values: the
largest multiple of `count` by a power of two that fits, less one. -/
def zone (width count : Nat) : Nat := count * 2 ^ (width - 1 - count.log2) - 1

/-- A number from `low` on out of `count` many, drawn from numbers below
`2 ^ width`. A refused number is drawn again, up to a number of attempts; the
last number is taken as it is. Rejection without a limit is the relation `Sampled`;
the two agree as long as one of the numbers tried is accepted (`sampled_draw`,
`Sampled.exists_attempts`). -/
def draw (width : Nat) (next : ω → Nat × ω) (low count : Nat) : Nat → ω → Nat × ω
  | 0, words =>
    let (value, words) := next words
    (low + value * count / 2 ^ width, words)
  | attempts + 1, words =>
    let (value, words) := next words
    if value * count % 2 ^ width ≤ zone width count then
      (low + value * count / 2 ^ width, words)
    else draw width next low count attempts words

/-- How often a refused number is drawn again. The limit is no part of the method, and
is set only to have the draws end on every stream of words. Draws without a limit
are the relation `GivesAll`, and keep to the same ranges (`GivesAll.inRange`). -/
def attempts : Nat := 1000

/-- A fraction `count / 2 ^ places`. -/
def fraction (count places : Nat) : Binary64 :=
  Binary64.ofQuotient false (count * Binary64.one) (2 ^ places)

/-- The largest fraction with 52 binary places. -/
def topFraction : Binary64 := fraction (Binary64.binade - 1) 52

/-- The first scale, at or below a given one within a number of steps, that
keeps the top of the range from passing the largest drift. -/
def scaleFrom : Nat → Binary64 → Binary64
  | 0, scale => scale
  | steps + 1, scale =>
    if Walk.maxDrift < scale * topFraction + -Walk.maxDrift then
      scaleFrom steps scale.towardsZero
    else scale

/-- What a fraction is multiplied by to span the drifts. -/
def driftScale : Binary64 :=
  scaleFrom 64 ((Walk.maxDrift - -Walk.maxDrift) / topFraction)

/-- The drift that a fraction stands for. -/
def driftAt (part : Binary64) : Binary64 := part * driftScale + -Walk.maxDrift

section Draws

variable {ω : Type} [WordSource ω]

/-- A time step between the shortest and the longest. -/
def timeStep (source : Generator ω) : UInt64 × Generator ω :=
  let (value, words) :=
    draw 64 doubleWord minTimeStep (maxTimeStep - minTimeStep + 1) attempts source.words
  (UInt64.ofNat value, ⟨words⟩)

/-- A drift between the largest downwards and the largest upwards. -/
def drift (source : Generator ω) : Binary64 × Generator ω :=
  let (value, words) := doubleWord source.words
  (driftAt (fraction (value >>> 12) 52), ⟨words⟩)

/-- A fraction with 53 binary places. -/
def share (source : Generator ω) : Binary64 × Generator ω :=
  let (value, words) := doubleWord source.words
  (fraction (value >>> 11) 53, ⟨words⟩)

/-- A number of lots, as a size. -/
def bookSize (source : Generator ω) : UInt32 × Generator ω :=
  let (value, words) :=
    draw 32 word minBookLots (maxBookLots - minBookLots + 1) attempts source.words
  (UInt32.ofNat (value * lot), ⟨words⟩)

/-- The size of a trade. -/
def tradeSize (source : Generator ω) : UInt32 × Generator ω :=
  let (value, words) :=
    draw 32 word minTradeSize (maxTradeSize - minTradeSize + 1) attempts source.words
  (UInt32.ofNat value, ⟨words⟩)

instance : DrawSource (Generator ω) where
  timeStep := timeStep
  drift := drift
  classifier := share
  side := share
  bookSize := bookSize
  tradeSize := tradeSize

end Draws

/-- The generator of a seed: the same seed always gives the same draws. -/
def ofSeed (seed : UInt64) : Generator Keystream := ⟨Keystream.ofSeed seed⟩

end Generator

end MarketTape
