import MarketTape.Numeral
import MarketTape.Record.Basic
import MarketTape.Text.Blank

/-!
# Records read from fields

A quote needs all columns, a trade the first five, so that a tape whose empty
book columns were cut off can still be read. Only the columns of the kind at hand
are looked at. Numbers may stand between blanks; the symbol is kept as it is.
-/

namespace MarketTape

/-- Why the fields of a line are no record. -/
inductive FieldError where
  | unknownKind (line : Nat) (tag : String)
  | missingFields (line need found : Nat)
  | invalidField (line : Nat) (column : Column) (value : String)
deriving DecidableEq, Repr

/-- The text of a field error. -/
def FieldError.message : FieldError → String
  | .unknownKind line tag => s!"line {line}: unknown record type '{tag}'"
  | .missingFields line need found =>
    s!"line {line}: expected at least {need} fields, found {found}"
  | .invalidField line column value =>
    s!"line {line}: invalid {column.heading} value '{value}'"

namespace Kind

/-- How many fields a record of a kind needs. -/
def fieldCount : Kind → Nat
  | .quote => Column.all.length
  | .trade => 5

end Kind

namespace Record

/-- The field of a column, with nothing past the last one. -/
def fieldAt (fields : List String) (column : Column) : String :=
  fields.getD column.index ""

/-- The number in a column, blanks around it left out. -/
def number (read : List Char → Option α) (fields : List String) (line : Nat)
    (column : Column) : Except FieldError α :=
  let field := fieldAt fields column
  match read (Text.trim field.toList) with
  | some value => .ok value
  | none => .error (.invalidField line column field)

/-- A timestamp in the fields of a line. -/
def timestampAt (fields : List String) (line : Nat) : Except FieldError UInt64 :=
  number (fun text => (Numeral.unsigned? 64 text).map UInt64.ofNat) fields line .timestamp

/-- A price in the fields of a line. -/
def priceAt (fields : List String) (line : Nat) (column : Column) : Except FieldError Binary64 :=
  number Numeral.binary64? fields line column

/-- A size in the fields of a line. -/
def sizeAt (fields : List String) (line : Nat) (column : Column) : Except FieldError UInt32 :=
  number (fun text => (Numeral.unsigned? 32 text).map UInt32.ofNat) fields line column

/-- The record that the fields of a line hold. The kind is looked at first, then
the number of fields, then the columns of the kind from left to right. -/
def ofFields (fields : List String) (line : Nat) : Except FieldError Record :=
  let tag := fieldAt fields .type
  match Kind.ofTag? tag with
  | none => .error (.unknownKind line tag)
  | some kind =>
    if fields.length < kind.fieldCount then
      .error (.missingFields line kind.fieldCount fields.length)
    else do
      let timestamp ← timestampAt fields line
      let symbol := fieldAt fields .symbol
      match kind with
      | .quote =>
        let bidPrice ← priceAt fields line .bidPrice
        let bidSize ← sizeAt fields line .bidSize
        let askPrice ← priceAt fields line .askPrice
        let askSize ← sizeAt fields line .askSize
        return .quote { timestamp, symbol, bidPrice, bidSize, askPrice, askSize }
      | .trade =>
        let price ← priceAt fields line .price
        let size ← sizeAt fields line .size
        return .trade { timestamp, symbol, price, size }

end Record

end MarketTape
