/-!
# Binary64 numbers

A finite binary64 number is a whole number of least units, the unit being
`2 ^ -1074`. The finite magnitudes are numbered by their *rank*: rank 0 is zero,
rank 1 the least positive number, and a larger rank is a larger magnitude. The
rank of a magnitude is also its bit pattern without the sign.

Every operation takes the exact result, a quotient of two counts, and rounds it
once by `ofQuotient`. There is a single NaN, so that equality of values is
equality of numbers, and a zero keeps its sign.
-/

namespace MarketTape

-- Powers are the core library's, whichever others are in scope.
attribute [local instance (2000)] instPowNat

/-- How many numbers lie from a power of two to below the next. -/
abbrev Binary64.binade : Nat := 2 ^ (52 : Nat)

/-- How many finite magnitudes there are; infinity follows the last of them. -/
abbrev Binary64.rankCount : Nat := 2047 * binade

/-- A binary64 number. The rank of a finite number is its place among the
finite magnitudes in increasing order. -/
inductive Binary64 where
  | nan
  | infinity (negative : Bool)
  | finite (negative : Bool) (rank : Fin Binary64.rankCount)
deriving DecidableEq, Repr, Inhabited

namespace Binary64

/-- How many least units make one. -/
def one : Nat := 2 ^ (1074 : Nat)

/-- The leading digits of a magnitude as a whole number. -/
def significand (rank : Nat) : Nat :=
  if rank < binade then rank else binade + rank % binade

/-- How many binary places the significand of a magnitude stands above the
least unit. -/
def scale (rank : Nat) : Nat := rank / binade - 1

/-- The magnitude of a rank in least units. -/
def units (rank : Nat) : Nat := significand rank <<< scale rank

/-- A quotient rounded to a whole number, a tie going to the even neighbour. -/
def roundHalfEven (num den : Nat) : Nat :=
  let below := num / den
  let twice := 2 * (num % den)
  if twice < den then below
  else if den < twice then below + 1
  else below + below % 2

/-- The rank whose magnitude is nearest to `num / den` least units, a tie going
to the even significand. Ranks from `rankCount` on stand for infinity. -/
def nearestRank (num den : Nat) : Nat :=
  let places := (num / den).log2 - 52
  roundHalfEven num (den <<< places) + places * binade

/-- The number nearest to `num / den` least units with the given sign. It is
kept from unfolding by itself, since it reaches counts of a thousand bits. -/
@[irreducible] def ofQuotient (negative : Bool) (num den : Nat) : Binary64 :=
  let rank := nearestRank num den
  if h : rank < rankCount then .finite negative ⟨rank, h⟩ else .infinity negative

/-- A zero with the given sign. -/
def zero (negative : Bool) : Binary64 := .finite negative ⟨0, by decide⟩

/-- The number nearest to an integer. -/
def ofInt (n : Int) : Binary64 := ofQuotient (decide (n < 0)) (n.natAbs * one) 1

/-- The number nearest to a natural number. -/
def ofNat (n : Nat) : Binary64 := ofQuotient false (n * one) 1

/-! ## Signs and kinds -/

/-- Whether the sign is a minus; the NaN counts as unsigned. -/
def isNegative : Binary64 → Bool
  | .nan => false
  | .infinity negative => negative
  | .finite negative _ => negative

def isNaN : Binary64 → Bool
  | .nan => true
  | _ => false

def isFinite : Binary64 → Bool
  | .finite _ _ => true
  | _ => false

/-- A count of units under a sign. -/
def signed (negative : Bool) (count : Nat) : Int :=
  if negative then -(count : Int) else count

@[simp] theorem signed_false (count : Nat) : signed false count = count := rfl

@[simp] theorem signed_true (count : Nat) : signed true count = -(count : Int) := rfl

/-- The place on the number line in least units. Infinity stands at the first
count past the finite numbers; a NaN has no place and is given 0. -/
def place : Binary64 → Int
  | .nan => 0
  | .infinity negative => signed negative (units rankCount)
  | .finite negative rank => signed negative (units rank)

/-- The exact value of a finite number; a NaN and the infinities have none and
are given 0. -/
def toRat : Binary64 → Rat
  | .finite negative rank => mkRat (signed negative (units rank)) one
  | _ => 0

/-! ## Arithmetic -/

/-- The number with the other sign. -/
def negate : Binary64 → Binary64
  | .nan => .nan
  | .infinity negative => .infinity (!negative)
  | .finite negative rank => .finite (!negative) rank

/-- The exact sum, rounded. A sum that is exactly zero is negative only if both
terms are. -/
def add : Binary64 → Binary64 → Binary64
  | .nan, _ => .nan
  | _, .nan => .nan
  | .infinity s, .infinity t => if s = t then .infinity s else .nan
  | .infinity s, .finite _ _ => .infinity s
  | .finite _ _, .infinity t => .infinity t
  | .finite s a, .finite t b =>
    let sum := signed s (units a) + signed t (units b)
    if sum = 0 then zero (s && t) else ofQuotient (decide (sum < 0)) sum.natAbs 1

/-- The exact difference, rounded. -/
def sub (x y : Binary64) : Binary64 := add x (negate y)

/-- The exact product, rounded. Infinity times zero is a NaN. -/
def mul : Binary64 → Binary64 → Binary64
  | .nan, _ => .nan
  | _, .nan => .nan
  | .infinity s, .infinity t => .infinity (s != t)
  | .infinity s, .finite t b => if b.val = 0 then .nan else .infinity (s != t)
  | .finite s a, .infinity t => if a.val = 0 then .nan else .infinity (s != t)
  | .finite s a, .finite t b => ofQuotient (s != t) (units a * units b) one

/-- The exact quotient, rounded. A number over zero is infinite, and zero over
zero and infinity over infinity are NaN. -/
def div : Binary64 → Binary64 → Binary64
  | .nan, _ => .nan
  | _, .nan => .nan
  | .infinity _, .infinity _ => .nan
  | .infinity s, .finite t _ => .infinity (s != t)
  | .finite s _, .infinity t => zero (s != t)
  | .finite s a, .finite t b =>
    if b.val = 0 then
      if a.val = 0 then .nan else .infinity (s != t)
    else ofQuotient (s != t) (units a * one) (units b)

instance : Neg Binary64 := ⟨negate⟩
instance : Add Binary64 := ⟨add⟩
instance : Sub Binary64 := ⟨sub⟩
instance : Mul Binary64 := ⟨mul⟩
instance : Div Binary64 := ⟨div⟩
instance (n : Nat) : OfNat Binary64 n := ⟨ofNat n⟩

/-! ## Order -/

/-- Whether `x` lies strictly below `y`; no NaN lies below or above anything,
and the two zeros share their place. -/
def below (x y : Binary64) : Bool := !x.isNaN && !y.isNaN && decide (x.place < y.place)

/-- Whether `x` lies at or below `y`. -/
def atMost (x y : Binary64) : Bool := !x.isNaN && !y.isNaN && decide (x.place ≤ y.place)

instance : LT Binary64 := ⟨fun x y => x.below y = true⟩
instance : LE Binary64 := ⟨fun x y => x.atMost y = true⟩
instance (x y : Binary64) : Decidable (x < y) := inferInstanceAs (Decidable (x.below y = true))
instance (x y : Binary64) : Decidable (x ≤ y) := inferInstanceAs (Decidable (x.atMost y = true))

/-- The lower of two numbers. A NaN gives way to the other number, and of the two
zeros, which tie, the second stands. -/
def least (x y : Binary64) : Binary64 :=
  if y.isNaN then x else if x < y then x else y

/-- The higher of two numbers. A NaN gives way to the other number, and of the two
zeros, which tie, the second stands. -/
def greatest (x y : Binary64) : Binary64 :=
  if y.isNaN then x else if y < x then x else y

/-- The number moved to the nearer end of an interval that it lies outside of.
A NaN stays a NaN. -/
def clamp (x low high : Binary64) : Binary64 :=
  if x < low then low else if high < x then high else x

/-! ## Whole numbers -/

/-- The nearest whole number, a half going away from zero. The sign is kept,
so a small negative number becomes the negative zero. -/
def round : Binary64 → Binary64
  | .finite negative rank =>
    ofQuotient negative ((2 * units rank + one) / (2 * one) * one) 1
  | x => x

/-- The whole part as an integer, held within the range from `low` to `high`.
A NaN counts as 0. -/
def toIntWithin (low high : Int) : Binary64 → Int
  | .nan => 0
  | .infinity negative => if negative then low else high
  | .finite negative rank => max low (min high (signed negative (units rank / one)))

/-- The next magnitude towards zero, with the sign kept. -/
def towardsZero : Binary64 → Binary64
  | .finite negative rank => .finite negative ⟨rank - 1, by omega⟩
  | x => x

/-! ## Bit patterns -/

/-- The pattern of a NaN is the quiet one without sign or payload. -/
def toBits : Binary64 → UInt64
  | .nan => 0x7FF8000000000000
  | .infinity negative => rankCount.toUInt64 ||| signBit negative
  | .finite negative rank => rank.val.toUInt64 ||| signBit negative
where
  /-- The highest bit carries the sign. -/
  signBit (negative : Bool) : UInt64 := if negative then 0x8000000000000000 else 0

/-- All patterns of a NaN give the one NaN. -/
def ofBits (bits : UInt64) : Binary64 :=
  let negative := decide (0x8000000000000000 ≤ bits.toNat)
  let rank := bits.toNat % 0x8000000000000000
  if h : rank < rankCount then .finite negative ⟨rank, h⟩
  else if rank = rankCount then .infinity negative
  else .nan

end Binary64

end MarketTape
