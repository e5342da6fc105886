import MarketTape.Record.Fields
import MarketTape.Table.Reader
import MarketTape.Text.Utf8

/-!
# Reading a tape

The rows behind the header are read in order and handed over as records. The
first row that is no record ends the reading with an error, a receiver that
refuses a record ends it without one, and nothing behind that row is looked at.
-/

namespace MarketTape

/-- Why a tape could not be read. -/
inductive ReadError where
  /-- The fields of a row make no record. -/
  | field (error : FieldError)
  /-- A field is not well-formed UTF-8: where the reader stood, which field it
  is, and how many of its bytes are well-formed. -/
  | malformed (place : Table.Place) (number valid : Nat)
deriving DecidableEq, Repr

/-- The text of a read error. -/
def ReadError.message : ReadError → String
  | .field error => error.message
  | .malformed place number valid =>
    s!"csv read failure: CSV parse error: record {place.row} " ++
      s!"(line {place.line}, field: {number}, byte: {place.byte}): " ++
      s!"invalid utf-8: invalid UTF-8 in field {number} near byte index {valid}"

namespace Tape

/-- The texts of fields, the first of which has a given number. -/
def texts (place : Table.Place) (number : Nat) :
    List (List UInt8) → Except ReadError (List String)
  | [] => .ok []
  | field :: fields =>
    match Text.ofBytes ⟨field.toArray⟩ with
    | .ok text => (texts place (number + 1) fields).map (text :: ·)
    | .error valid => .error (.malformed place number valid)

/-- The record of a row. -/
def recordOf (row : Table.RawRow) : Except ReadError Record :=
  match texts row.asked 0 row.fields with
  | .ok fields => (Record.ofFields fields row.start.line).mapError .field
  | .error error => .error error

/-- Hands the records of rows to a receiver with a state of its own, which says
whether it wants more. The result is the number of records that it accepted. -/
def deliver (receive : α → Record → Bool × α) (accepted : Nat) :
    List Table.RawRow → α → Except ReadError Nat × α
  | [], state => (.ok accepted, state)
  | row :: rows, state =>
    match recordOf row with
    | .error error => (.error error, state)
    | .ok record =>
      match receive state record with
      | (true, state) => deliver receive (accepted + 1) rows state
      | (false, state) => (.ok accepted, state)

/-- Hands the records of a tape to a receiver. -/
def stream (receive : α → Record → Bool × α) (bytes : ByteArray) (state : α) :
    Except ReadError Nat × α :=
  deliver receive 0 (Table.dataRows bytes.data.toList) state

/-- All records of a tape. -/
def records (bytes : ByteArray) : Except ReadError (List Record) :=
  let (result, found) := stream (fun found record => (true, found.push record)) bytes #[]
  result.map fun _ => found.toList

/-- All records of a tape in their flat view. -/
def rows (bytes : ByteArray) : Except ReadError (List Row) :=
  (records bytes).map (List.map Record.row)

end Tape

end MarketTape
