import MarketTape.Binary64.Decimal

/-!
# Numerals

The written forms of numbers: natural numbers and integers of a fixed width, and
binary64 numbers with an optional point and exponent. A numeral is read only as a
whole; nothing may precede or follow it.
-/

namespace MarketTape.Numeral

-- Powers are the core library's, whichever others are in scope.
attribute [local instance (2000)] instPowNat

/-- The value of an ASCII digit. -/
def digit? (c : Char) : Option Nat :=
  if '0' ≤ c ∧ c ≤ '9' then some (c.toNat - '0'.toNat) else none

def isDigit (c : Char) : Bool := (digit? c).isSome

/-- The value of a row of digits behind a value already read. -/
def valueFrom (start : Nat) (digits : List Char) : Nat :=
  digits.foldl (fun value c => value * 10 + (digit? c).getD 0) start

/-- The value of a row of digits. -/
def value (digits : List Char) : Nat := valueFrom 0 digits

/-- A row of at least one digit and nothing else. -/
def natural? (text : List Char) : Option Nat :=
  if text.isEmpty || !text.all isDigit then none else some (value text)

/-- A natural number below `2 ^ width`, with an optional plus sign. -/
def unsigned? (width : Nat) (text : List Char) : Option Nat :=
  let digits := match text with
    | '+' :: rest => rest
    | _ => text
  (natural? digits).filter (· < 2 ^ width)

/-- An integer from `-2 ^ (width - 1)` to below `2 ^ (width - 1)`, with an
optional sign. -/
def signed? (width : Nat) (text : List Char) : Option Int :=
  let result : Option Int := match text with
    | '-' :: rest => (natural? rest).map fun n => -(n : Int)
    | '+' :: rest => (natural? rest).map Int.ofNat
    | _ => (natural? text).map Int.ofNat
  result.filter fun n => -2 ^ (width - 1) ≤ n ∧ n < 2 ^ (width - 1)

/-! ## Binary64 numerals -/

/-- The parts of a written decimal number: the digits before the point, those
behind it, and the exponent. -/
structure Scientific where
  whole : List Char
  fraction : List Char
  exponent : Int

/-- The number that the parts denote. -/
def Scientific.toBinary64 (negative : Bool) (parts : Scientific) : Binary64 :=
  Binary64.ofDecimal negative (value (parts.whole ++ parts.fraction))
    (parts.exponent - parts.fraction.length)

/-- An exponent: nothing, or a letter `e` with an optional sign and at least one
digit. -/
def exponent? : List Char → Option Int
  | [] => some 0
  | e :: rest =>
    if e = 'e' ∨ e = 'E' then
      match rest with
      | '-' :: digits => (natural? digits).map fun n => -(n : Int)
      | '+' :: digits => (natural? digits).map Int.ofNat
      | digits => (natural? digits).map Int.ofNat
    else none

/-- Digits with an optional point, at least one digit in all, and an optional
exponent. -/
def scientific? (text : List Char) : Option Scientific :=
  let whole := text.takeWhile isDigit
  let rest := text.dropWhile isDigit
  let (fraction, rest) := match rest with
    | '.' :: behind => (behind.takeWhile isDigit, behind.dropWhile isDigit)
    | _ => ([], rest)
  if whole.isEmpty && fraction.isEmpty then none
  else (exponent? rest).map fun exponent => ⟨whole, fraction, exponent⟩

/-- A decimal number, `inf`, `infinity` or `nan` without a sign; letters may be
of either case. -/
def unsignedBinary64? (negative : Bool) (text : List Char) : Option Binary64 :=
  let word := text.map Char.toLower
  if word = "inf".toList ∨ word = "infinity".toList then some (.infinity negative)
  else if word = "nan".toList then some .nan
  else (scientific? text).map (Scientific.toBinary64 negative)

/-- A binary64 numeral with an optional sign. -/
def binary64? (text : List Char) : Option Binary64 :=
  match text with
  | '-' :: rest => unsignedBinary64? true rest
  | '+' :: rest => unsignedBinary64? false rest
  | _ => unsignedBinary64? false text

end MarketTape.Numeral
