/-!
# Lines of a table

A line is a list of fields with commas between them and a line feed at the end.
A field that holds a comma, a quotation mark, a carriage return or a line feed
stands between quotation marks, and a quotation mark inside it is doubled.

A line is made of pieces, which a writer never divides: single bytes, and the
two bytes of a doubled quotation mark.
-/

namespace MarketTape.Table

/-- The byte of a quotation mark. -/
def quoteMark : UInt8 := 34

/-- The byte of a comma. -/
def comma : UInt8 := 44

/-- The byte of a carriage return. -/
def carriageReturn : UInt8 := 13

/-- The byte of a line feed. -/
def lineFeed : UInt8 := 10

/-- What is written at once. -/
inductive Piece where
  | byte (byte : UInt8)
  | doubledQuote
deriving DecidableEq, Repr

/-- The bytes of a piece. -/
def Piece.bytes : Piece → List UInt8
  | .byte b => [b]
  | .doubledQuote => [quoteMark, quoteMark]

/-- Whether a field has to stand between quotation marks. -/
def needsQuotes (field : List UInt8) : Bool :=
  field.any fun byte =>
    byte = comma || byte = quoteMark || byte = carriageReturn || byte = lineFeed

/-- A byte inside quotation marks. -/
def quotedPiece (byte : UInt8) : Piece :=
  if byte = quoteMark then .doubledQuote else .byte byte

/-- The pieces of a field. -/
def fieldPieces (field : List UInt8) : List Piece :=
  if needsQuotes field then
    .byte quoteMark :: (field.map quotedPiece ++ [.byte quoteMark])
  else field.map .byte

/-- The pieces of a line. -/
def linePieces : List (List UInt8) → List Piece
  | [] => [.byte lineFeed]
  | [field] => fieldPieces field ++ [.byte lineFeed]
  | field :: next :: fields => fieldPieces field ++ .byte comma :: linePieces (next :: fields)

/-- The bytes of a text. -/
def textBytes (text : String) : List UInt8 := text.toUTF8.data.toList

/-- The pieces of a line of texts. -/
def piecesOf (fields : List String) : List Piece := linePieces (fields.map textBytes)

end MarketTape.Table
