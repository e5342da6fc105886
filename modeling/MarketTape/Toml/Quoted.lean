/-!
# Quoted text in TOML

Text stands between double quotes, where a backslash begins an escape, or between
single quotes, where every character stands for itself. Between single marks it
keeps to one line; between triple marks it may run over several, and a line break
right behind the opening marks is dropped. Line ends are single line feeds here.
-/

namespace MarketTape.Toml

/-- Whether a character is a space or a tab. -/
def isGap (c : Char) : Bool := c == ' ' || c == '\t'

/-- Whether a character may stand in text and comments: a tab, or anything that
is no ASCII control character. -/
def isPlain (c : Char) : Bool := c == '\t' || (0x20 ≤ c.toNat && c.toNat != 0x7F)

/-- The value of a digit in a base up to 16, letters being of either case. -/
def digitIn? (base : Nat) (c : Char) : Option Nat :=
  let value :=
    if '0' ≤ c ∧ c ≤ '9' then some (c.toNat - '0'.toNat)
    else if 'a' ≤ c ∧ c ≤ 'f' then some (c.toNat - 'a'.toNat + 10)
    else if 'A' ≤ c ∧ c ≤ 'F' then some (c.toNat - 'A'.toNat + 10)
    else none
  value.filter (· < base)

/-- The value of a row of digits in a base. -/
def valueIn (base : Nat) (digits : List Char) : Nat :=
  digits.foldl (fun value c => value * base + (digitIn? base c).getD 0) 0

namespace Quoted

/-- The marks around a text: which mark, and whether it is tripled. -/
structure Marks where
  mark : Char
  tripled : Bool
deriving DecidableEq, Repr

/-- Whether a backslash begins an escape between the marks. -/
def Marks.escapes (marks : Marks) : Bool := marks.mark == '"'

/-- The character that a letter behind a backslash stands for. -/
def escaped? : Char → Option Char
  | 'b' => some '\x08'
  | 't' => some '\t'
  | 'n' => some '\n'
  | 'f' => some '\x0c'
  | 'r' => some '\r'
  | '"' => some '"'
  | '\\' => some '\\'
  | _ => none

/-- The character with a code point of exactly `count` hexadecimal digits, and
the text behind them. -/
def codePoint? (count : Nat) (text : List Char) : Option (Char × List Char) :=
  let digits := text.take count
  let code := valueIn 16 digits
  if digits.length = count ∧ digits.all (fun c => (digitIn? 16 c).isSome) ∧ code.isValidChar then
    some (Char.ofNat code, text.drop count)
  else none

/-- The character of an escape, given what stands behind its backslash. -/
def escape? : List Char → Option (Char × List Char)
  | [] => none
  | letter :: rest =>
    if letter = 'u' then codePoint? 4 rest
    else if letter = 'U' then codePoint? 8 rest
    else (escaped? letter).map (·, rest)

/-- What follows a backslash at the end of a line: the text behind all the blanks
and line breaks there. -/
def joined? (text : List Char) : Option (List Char) :=
  match text.dropWhile isGap with
  | '\n' :: rest => some (rest.dropWhile fun c => isGap c || c == '\n')
  | _ => none

/-- Whether the marks close at the head of a text: if so, the marks that still
belong to the content, and the text behind. Up to two marks may stand right
before triple closing marks. -/
def close? (marks : Marks) (text : List Char) : Option (List Char × List Char) :=
  let run := (text.takeWhile (· == marks.mark)).length
  if marks.tripled then
    if run < 3 then none
    else some (List.replicate (min (run - 3) 2) marks.mark, text.drop (min run 5))
  else if run = 0 then none
  else some ([], text.drop 1)

/-- The content of a text up to its closing marks, and what stands behind them,
in up to `fuel` steps. -/
def contentWithin? (marks : Marks) : Nat → List Char → Option (List Char × List Char)
  | 0, _ => none
  | _ + 1, [] => none
  | fuel + 1, c :: rest =>
    match close? marks (c :: rest) with
    | some closed => some closed
    | none =>
      if c = '\\' ∧ marks.escapes then
        match if marks.tripled then joined? rest else none with
        | some rest => contentWithin? marks fuel rest
        | none =>
          match escape? rest with
          | some (c, rest) =>
            (contentWithin? marks fuel rest).map fun (content, behind) => (c :: content, behind)
          | none => none
      else if isPlain c ∨ (c = '\n' ∧ marks.tripled) then
        (contentWithin? marks fuel rest).map fun (content, behind) => (c :: content, behind)
      else none

/-- The content of a text whose opening marks have been read, and what stands
behind its closing marks. -/
def content? (marks : Marks) (text : List Char) : Option (List Char × List Char) :=
  contentWithin? marks (text.length + 1) text

/-- A text between single marks, and what stands behind it. -/
def short? : List Char → Option (List Char × List Char)
  | [] => none
  | mark :: rest =>
    if mark = '"' ∨ mark = '\'' then content? ⟨mark, false⟩ rest else none

/-- A text between single or triple marks, and what stands behind it. -/
def text? : List Char → Option (List Char × List Char)
  | [] => none
  | mark :: rest =>
    if (mark = '"' ∨ mark = '\'') ∧ rest.take 2 = [mark, mark] then
      let body := rest.drop 2
      content? ⟨mark, true⟩ (if body.head? = some '\n' then body.drop 1 else body)
    else short? (mark :: rest)

end Quoted

end MarketTape.Toml
