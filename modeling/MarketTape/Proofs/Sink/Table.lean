import MarketTape.Proofs.Sink.Logged
import MarketTape.Proofs.Table.Writer
import MarketTape.Sink.Table

/-!
# What a table sink writes

The bytes of a tape are those of its header and of a line for each record. A sink
to a destination without a limit takes every record.
-/

namespace MarketTape.TableSink

open Table

/-- The fields of the header as bytes. -/
def headerLine : List (List UInt8) := (Column.all.map Column.heading).map textBytes

/-- The fields of a record as bytes. -/
def recordLine (record : Record) : List (List UInt8) := record.row.fields.map textBytes

/-- The bytes of a tape. -/
def tapeBytes (records : List Record) : List UInt8 :=
  bytesOf (linePieces headerLine) ++
    (records.map recordLine).flatMap fun line => bytesOf (linePieces line)

/-- More records lengthen a tape by their lines. -/
theorem tapeBytes_append (front back : List Record) :
    tapeBytes (front ++ back) = tapeBytes front ++
      (back.map recordLine).flatMap fun line => bytesOf (linePieces line) := by
  rw [tapeBytes, tapeBytes, List.map_append, List.flatMap_append, List.append_assoc]

variable {sink : TableSink}

theorem write_of_unlimited (h : sink.writer.room = none) (record : Record) :
    ∃ after : TableSink, RecordSink.write sink record = (.ok (), after) ∧
      after.writer.room = none ∧
        after.writer.written = sink.writer.written ++ bytesOf (linePieces (recordLine record)) := by
  obtain ⟨writer, hput, hroom, hwritten⟩ := Writer.putAll_of_unlimited h (recordPieces record)
  refine ⟨⟨writer, sink.rows + 1⟩, ?_, hroom, hwritten⟩
  change sink.write record = _
  rw [write, hput]

theorem writeAll_of_unlimited (h : sink.writer.room = none) (records : List Record) :
    ∃ after : TableSink, RecordSink.writeAll sink records = (.ok (), after) ∧
      after.writer.room = none ∧ after.writer.written = sink.writer.written ++
        (records.map recordLine).flatMap fun line => bytesOf (linePieces line) := by
  induction records generalizing sink with
  | nil => exact ⟨sink, rfl, h, by simp⟩
  | cons record records ih =>
      obtain ⟨middle, hwrite, hroom, hwritten⟩ := write_of_unlimited h record
      obtain ⟨after, hrest, hroom', hwritten'⟩ := ih hroom
      refine ⟨after, ?_, hroom', ?_⟩
      · rw [RecordSink.writeAll, hwrite]
        exact hrest
      · rw [hwritten', hwritten, List.map_cons, List.flatMap_cons, List.append_assoc]

theorem start_unlimited :
    (start none).writer.room = none ∧
      (start none).writer.written = bytesOf (linePieces headerLine) := by
  have hstart : (Writer.start none).room = none := rfl
  obtain ⟨writer, hput, hroom, hwritten⟩ := Writer.putAll_of_unlimited hstart header
  rw [start, hput]
  exact ⟨hroom, hwritten⟩

theorem flush_of_unlimited (h : sink.writer.room = none) :
    ∃ after : TableSink, RecordSink.flush sink = (.ok (), after) ∧ after.writer.room = none ∧
      after.writer.written = sink.writer.written := by
  have hspill := Writer.spill_of_unlimited h
  refine ⟨⟨⟨none, sink.writer.delivered ++ sink.writer.pending, .empty⟩, sink.rows⟩, ?_, rfl, ?_⟩
  · change sink.flush = _
    rw [flush, hspill]
  · simp [Writer.written]

/-- Closing delivers all that was written. -/
theorem close_of_unlimited (h : sink.writer.room = none) :
    ∃ bytes, sink.close = (.ok (), bytes) ∧ bytes.data.toList = sink.writer.written := by
  refine ⟨sink.writer.delivered ++ sink.writer.pending, ?_, by simp [Writer.written]⟩
  rw [close, flush, Writer.spill_of_unlimited h]

/-- Records written to a destination without a limit make up a whole tape. -/
theorem exists_tape (records : List Record) :
    ∃ sink bytes, RecordSink.writeAll (start none) records = (.ok (), sink) ∧
      sink.close = (.ok (), bytes) ∧ bytes.data.toList = tapeBytes records := by
  obtain ⟨hroom, hheader⟩ := start_unlimited
  obtain ⟨sink, hwrite, hroom', hwritten⟩ := writeAll_of_unlimited hroom records
  obtain ⟨bytes, hclose, hbytes⟩ := close_of_unlimited hroom'
  exact ⟨sink, bytes, hwrite, hclose, by rw [hbytes, hwritten, hheader, tapeBytes]⟩

/-- A flush before the end leaves nothing out and adds nothing. -/
theorem exists_flushed_tape (records : List Record) :
    ∃ written flushed bytes, RecordSink.writeAll (start none) records = (.ok (), written) ∧
      RecordSink.flush written = (.ok (), flushed) ∧ flushed.close = (.ok (), bytes) ∧
        bytes.data.toList = tapeBytes records := by
  obtain ⟨hroom, hheader⟩ := start_unlimited
  obtain ⟨written, hwrite, hroom', hwritten⟩ := writeAll_of_unlimited hroom records
  obtain ⟨flushed, hflush, hroom'', hflushed⟩ := flush_of_unlimited hroom'
  obtain ⟨bytes, hclose, hbytes⟩ := close_of_unlimited hroom''
  refine ⟨written, flushed, bytes, hwrite, hflush, hclose, ?_⟩
  rw [hbytes, hflushed, hwritten, hheader, tapeBytes]

end MarketTape.TableSink
