import MarketTape.Binary64.Basic

/-!
# Binary64 numbers in decimal

Reading rounds the exact decimal value once. Writing comes in two kinds: a fixed
number of places, where the exact value is rounded half to even, and the
shortest digits that read back as the same number, laid out as a `Layout` says.
-/

namespace MarketTape

namespace Binary64

-- Powers are the core library's, whichever others are in scope.
attribute [local instance (2000)] instPowNat

/-- The number nearest to `digits * 10 ^ exponent`. Exponents beyond the range
are settled before a power is formed: `10 ^ 400` exceeds every finite number,
and a value below `10 ^ -330` is less than half the least unit. -/
def ofDecimal (negative : Bool) (digits : Nat) (exponent : Int) : Binary64 :=
  if digits = 0 then zero negative
  else if 400 < exponent then .infinity negative
  else if exponent + (digits.log2 / 3 + 1 : Nat) < -330 then zero negative
  else match exponent with
    | .ofNat e => ofQuotient negative (digits * 10 ^ e * one) 1
    | .negSucc e => ofQuotient negative (digits * one) (10 ^ (e + 1))

/-- A decimal literal stands for the nearest number. -/
instance : OfScientific Binary64 where
  ofScientific digits below exponent :=
    ofDecimal false digits (if below then -(exponent : Int) else exponent)

/-- The minus sign of a negative number. -/
def signText (negative : Bool) : String := if negative then "-" else ""

/-! ## Fixed places -/

/-- A count of hundredths, thousandths and so on, written with that many places. -/
def placesText (places count : Nat) : String :=
  let fraction := Nat.repr (count % 10 ^ places)
  Nat.repr (count / 10 ^ places) ++ "." ++
    String.ofList (List.replicate (places - fraction.length) '0') ++ fraction

/-- The number with a fixed number of places, the exact value rounded half to
even. The sign stays even where all digits are zero. -/
def fixedText (places : Nat) : Binary64 → String
  | .nan => "NaN"
  | .infinity negative => signText negative ++ "inf"
  | .finite negative rank =>
    signText negative ++ placesText places (roundHalfEven (units rank * 10 ^ places) one)

/-! ## Shortest digits -/

/-- A decimal value `digits * 10 ^ exponent`. -/
structure Decimal where
  digits : Nat
  exponent : Int
deriving DecidableEq, Repr

/-- On the grid of multiples of `10 ^ exponent`, the neighbour of a magnitude
that reads back as that magnitude. The nearer neighbour comes first, and halfway
between them the upper. -/
def neighbour? (rank : Fin rankCount) (exponent : Int) : Option Nat :=
  let (num, den) := match exponent with
    | .ofNat e => (units rank, one * 10 ^ e)
    | .negSucc e => (units rank * 10 ^ (e + 1), one)
  let lower := num / den
  let candidates := if den ≤ 2 * (num % den) then [lower + 1, lower] else [lower, lower + 1]
  candidates.find? fun digits => ofDecimal false digits exponent = .finite false rank

/-- The first grid from `10 ^ exponent` downwards, within a number of steps,
that holds a value reading back as the magnitude. Past the last step stands the
exact value. -/
def coarsest (rank : Fin rankCount) : Nat → Int → Decimal
  | 0, _ => ⟨units rank * 5 ^ (1074 : Nat), -1074⟩
  | steps + 1, exponent =>
    match neighbour? rank exponent with
    | some digits => ⟨digits, exponent⟩
    | none => coarsest rank steps (exponent - 1)

/-- The decimal value with the fewest digits that reads back as the magnitude,
of those the nearest, and of two equally near the greater. Every magnitude has
one of at most 17 digits, between the grids `10 ^ 309` and `10 ^ -341`. -/
def shortest (rank : Fin rankCount) : Decimal := coarsest rank 650 309

/-- How shortest digits are written. -/
structure Layout where
  /-- What follows the digits of a whole number. -/
  wholeSuffix : String
  /-- The exponents of the leading digit that are written in place, from the
  first to below the second; others take a power of ten. Without bounds all
  numbers are written in place. -/
  inPlace : Option (Int × Int)

/-- Digits in place always, and whole numbers without a point. -/
def Layout.plain : Layout := ⟨"", none⟩

/-- Whole numbers keep a `.0`, and numbers below a ten-thousandth or from
`10 ^ 16` on take a power of ten. -/
def Layout.exact : Layout := ⟨".0", some (-4, 16)⟩

/-- Whether a leading digit of this exponent is written in place. -/
def Layout.isInPlace (layout : Layout) (leading : Int) : Bool :=
  match layout.inPlace with
  | none => true
  | some (low, high) => decide (low ≤ leading ∧ leading < high)

/-- The text of a decimal value. -/
def Layout.write (layout : Layout) (value : Decimal) : String :=
  let digits := (Nat.repr value.digits).toList
  let leading : Int := value.exponent + digits.length - 1
  let zeros (n : Int) : List Char := List.replicate n.toNat '0'
  if layout.isInPlace leading then
    if 0 ≤ value.exponent then
      String.ofList (digits ++ zeros value.exponent) ++ layout.wholeSuffix
    else if 0 ≤ leading then
      let whole := (leading + 1).toNat
      String.ofList (digits.take whole ++ '.' :: digits.drop whole)
    else
      String.ofList ('0' :: '.' :: zeros (-leading - 1) ++ digits)
  else
    let fraction := digits.drop 1
    String.ofList (digits.take 1 ++ (if fraction.isEmpty then [] else '.' :: fraction)) ++
      "e" ++ toString leading

/-- The number by its shortest digits. -/
def text (layout : Layout) : Binary64 → String
  | .nan => "NaN"
  | .infinity negative => signText negative ++ "inf"
  | .finite negative rank =>
    signText negative ++
      if rank.val = 0 then "0" ++ layout.wholeSuffix else layout.write (shortest rank)

end Binary64

end MarketTape
