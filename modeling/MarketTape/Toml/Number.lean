import MarketTape.Numeral
import MarketTape.Toml.Quoted

/-!
# Numbers in TOML

Integers are written in base ten, or in base 16, 8 or 2 behind `0x`, `0o` or
`0b`, and lie within 64 bits. Other numbers have a fraction, an exponent or both,
or are `inf` or `nan`. An underscore may stand between two digits, and a number
in base ten has no leading zero.
-/

namespace MarketTape.Toml

/-- A single value. -/
inductive Scalar where
  | text (value : String)
  | integer (value : Int64)
  | number (value : Binary64)
deriving DecidableEq, Repr

namespace Number

/-- The digits of a text in which underscores stand only between digits.
`behindDigit` says whether a digit stands right before the text. -/
def digitsFrom? (isDigit : Char → Bool) (behindDigit : Bool) : List Char → Option (List Char)
  | [] => if behindDigit then some [] else none
  | c :: rest =>
    if isDigit c then (digitsFrom? isDigit true rest).map (c :: ·)
    else if c = '_' ∧ behindDigit then digitsFrom? isDigit false rest
    else none

/-- At least one digit, with underscores only between digits. -/
def digits? (isDigit : Char → Bool) (text : List Char) : Option (List Char) :=
  digitsFrom? isDigit false text

/-- Digits in base ten. -/
def decimal? (text : List Char) : Option (List Char) := digits? Numeral.isDigit text

/-- Digits in base ten without a leading zero. -/
def whole? (text : List Char) : Option (List Char) :=
  (decimal? text).filter fun digits => digits.length = 1 ∨ digits.head? ≠ some '0'

/-- An integer, if it lies within 64 bits. -/
def word? (n : Int) : Option Scalar :=
  if Int64.minValue.toInt ≤ n ∧ n ≤ Int64.maxValue.toInt then some (.integer (Int64.ofInt n))
  else none

/-- An integer in another base. -/
def inBase? (base : Nat) (text : List Char) : Option Scalar :=
  (digits? (fun c => (digitIn? base c).isSome) text).bind fun digits => word? (valueIn base digits)

/-- Whether a text begins with a minus sign, and the text behind its sign. -/
def signed : List Char → Bool × List Char
  | '-' :: rest => (true, rest)
  | '+' :: rest => (false, rest)
  | text => (false, text)

/-- An exponent: nothing, or a letter `e` with an optional sign and digits. -/
def exponent? : List Char → Option Int
  | [] => some 0
  | letter :: rest =>
    if letter = 'e' ∨ letter = 'E' then
      let (negative, digits) := signed rest
      (decimal? digits).map fun digits =>
        if negative then -(Numeral.value digits : Int) else Numeral.value digits
    else none

def isDigitOrGap (c : Char) : Bool := Numeral.isDigit c || c == '_'

/-- The fraction and the exponent behind the whole digits of a number. -/
def tail? : List Char → Option (List Char × Int)
  | [] => none
  | c :: rest =>
    if c = '.' then
      match decimal? (rest.takeWhile isDigitOrGap), exponent? (rest.dropWhile isDigitOrGap) with
      | some fraction, some exponent => some (fraction, exponent)
      | _, _ => none
    else (exponent? (c :: rest)).map ([], ·)

/-- A number in base ten behind its sign. A positive number must not be too
large; a negative one that is becomes minus infinity. -/
def unsigned? (negative : Bool) (text : List Char) : Option Scalar :=
  if text = "inf".toList then some (.number (.infinity negative))
  else if text = "nan".toList then some (.number .nan)
  else
    let rest := text.dropWhile isDigitOrGap
    match whole? (text.takeWhile isDigitOrGap) with
    | none => none
    | some whole =>
      if rest.isEmpty then
        word? (if negative then -(Numeral.value whole : Int) else Numeral.value whole)
      else
        match tail? rest with
        | none => none
        | some (fraction, exponent) =>
          let number := Numeral.Scientific.toBinary64 negative ⟨whole, fraction, exponent⟩
          if number = .infinity false then none else some (.number number)

end Number

/-- The number that a text is as a whole. -/
def number? (text : List Char) : Option Scalar :=
  match text.take 2 with
  | ['0', 'x'] => Number.inBase? 16 (text.drop 2)
  | ['0', 'o'] => Number.inBase? 8 (text.drop 2)
  | ['0', 'b'] => Number.inBase? 2 (text.drop 2)
  | _ =>
    let (negative, rest) := Number.signed text
    Number.unsigned? negative rest

end MarketTape.Toml
