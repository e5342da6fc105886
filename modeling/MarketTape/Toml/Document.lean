import MarketTape.Toml.Number

/-!
# Flat TOML documents

A flat document is a list of lines `key = value` with a single text or number
for a value, with blank lines and comments between them. Tables, arrays, dotted
keys, dates and truth values have no place in it: a document that holds one is
not read.
-/

namespace MarketTape.Toml

/-- A key and its value. -/
structure Entry where
  key : String
  value : Scalar
deriving DecidableEq, Repr

/-- A text in which every carriage return before a line feed is dropped. -/
def withoutReturns : List Char → List Char
  | [] => []
  | c :: rest =>
    if c = '\r' ∧ rest.head? = some '\n' then withoutReturns rest else c :: withoutReturns rest

/-- Whether a character may stand in a key without quotes. -/
def isKeyChar (c : Char) : Bool := c.isAlphanum || c == '_' || c == '-'

/-- Whether a character may stand in a number. -/
def isNumberChar (c : Char) : Bool := c.isAlphanum || c == '_' || c == '-' || c == '+' || c == '.'

/-- A key, and what stands behind it. -/
def key? (text : List Char) : Option (List Char × List Char) :=
  match text.takeWhile isKeyChar with
  | [] => Quoted.short? text
  | key => some (key, text.dropWhile isKeyChar)

/-- A value, and what stands behind it. -/
def value? (text : List Char) : Option (Scalar × List Char) :=
  match text.takeWhile isNumberChar with
  | [] => (Quoted.text? text).map fun (content, rest) => (.text (String.ofList content), rest)
  | number => (number? number).map (·, text.dropWhile isNumberChar)

/-- What stands behind the end of a line, if nothing but blanks and a comment
comes before that end. -/
def lineEnd? (text : List Char) : Option (List Char) :=
  let text := text.dropWhile isGap
  let text := if text.head? = some '#' then text.tail.dropWhile isPlain else text
  match text with
  | [] => some []
  | c :: rest => if c = '\n' then some rest else none

/-- An entry with the end of its line, and what stands behind it. -/
def entry? (text : List Char) : Option (Entry × List Char) :=
  match key? (text.dropWhile isGap) with
  | none => none
  | some (key, rest) =>
    match rest.dropWhile isGap with
    | '=' :: rest =>
      match value? (rest.dropWhile isGap) with
      | none => none
      | some (value, rest) => (lineEnd? rest).map (⟨String.ofList key, value⟩, ·)
    | _ => none

/-- The entries of a text of up to `fuel` lines. -/
def entriesWithin? : Nat → List Char → Option (List Entry)
  | _, [] => some []
  | 0, _ :: _ => none
  | fuel + 1, text =>
    match lineEnd? text with
    | some rest => entriesWithin? fuel rest
    | none =>
      match entry? text with
      | none => none
      | some (entry, rest) => (entriesWithin? fuel rest).map (entry :: ·)

/-- The entries of a flat document. A byte order mark at its start is dropped;
a line takes at least one character. -/
def entries? (text : String) : Option (List Entry) :=
  let text := text.toList
  let text := withoutReturns (if text.head? = some '\uFEFF' then text.tail else text)
  entriesWithin? text.length text

end MarketTape.Toml
