import MarketTape.Sink.Basic
import MarketTape.Table.Writer

/-!
# The sink that writes a tape

A header with the names of the columns, and a line for each record.
-/

namespace MarketTape

/-- A sink that writes lines, and how many records it has taken. -/
structure TableSink where
  writer : Table.Writer
  rows : Nat

namespace TableSink

/-- The pieces of the header. -/
def header : List Table.Piece := Table.piecesOf (Column.all.map Column.heading)

/-- The pieces of the line of a record. -/
def recordPieces (record : Record) : List Table.Piece := Table.piecesOf record.row.fields

/-- A sink to a destination with some room, the header already written. The
header is shorter than the buffer, so that writing it does not fail. -/
def start (room : Option Nat) : TableSink := ⟨((Table.Writer.start room).putAll header).2, 0⟩

/-- What is said of a destination that takes no more bytes. -/
def full : String := "disk full"

/-- Writes the line of a record. A line that fails may be half written. -/
def write (sink : TableSink) (record : Record) : Except SinkError Unit × TableSink :=
  match sink with
  | ⟨writer, rows⟩ =>
    match writer.putAll (recordPieces record) with
    | (true, writer) => (.ok (), ⟨writer, rows + 1⟩)
    | (false, writer) => (.error (.row full), ⟨writer, rows⟩)

/-- Delivers what waits in the buffer. -/
def flush (sink : TableSink) : Except SinkError Unit × TableSink :=
  match sink with
  | ⟨writer, rows⟩ =>
    match writer.spill with
    | (true, writer) => (.ok (), ⟨writer, rows⟩)
    | (false, writer) => (.error (.output full), ⟨writer, rows⟩)

instance : RecordSink TableSink := ⟨write, flush⟩

/-- Flushes for the last time, and gives the bytes that reached the destination. -/
def close (sink : TableSink) : Except SinkError Unit × ByteArray :=
  let (result, sink) := sink.flush
  (result, sink.writer.delivered)

end TableSink

end MarketTape
