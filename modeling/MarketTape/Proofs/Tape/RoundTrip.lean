import MarketTape.Proofs.Record.Fields
import MarketTape.Proofs.Sink.Table
import MarketTape.Tape

/-!
# Tapes that read back

What a table sink writes is read as the records that were given to it. The
symbols may hold any characters: the quotation of fields keeps commas, line ends
and quotation marks apart from those of the table.
-/

namespace MarketTape

open Table

theorem Text.ofBytes_textBytes (text : String) :
    Text.ofBytes ⟨(textBytes text).toArray⟩ = .ok text := by
  have hbytes : (⟨(textBytes text).toArray⟩ : ByteArray) = text.toByteArray := rfl
  have hread : String.fromUTF8? text.toByteArray = some text := by
    rw [String.fromUTF8?, dif_pos text.isValidUTF8]
    rfl
  rw [hbytes, Text.ofBytes, hread]

namespace Tape

theorem texts_textBytes (place : Place) (number : Nat) (fields : List String) :
    texts place number (fields.map textBytes) = .ok fields := by
  induction fields generalizing number with
  | nil => rfl
  | cons field fields ih =>
      rw [List.map_cons, texts, Text.ofBytes_textBytes]
      simp only [ih]
      rfl

/-- A row whose fields are texts is read as these texts are. -/
theorem recordOf_of_texts {row : RawRow} {fields : List String}
    (h : row.fields = fields.map textBytes) :
    recordOf row = (Record.ofFields fields row.start.line).mapError .field := by
  rw [recordOf, h, texts_textBytes]

/-- The row of a written record is that record with settled prices. -/
theorem recordOf_recordLine {row : RawRow} {record : Record}
    (hrow : row.fields = TableSink.recordLine record) : recordOf row = .ok record.settled := by
  rw [recordOf_of_texts hrow, Record.ofFields_fields]
  rfl

/-- Rows of written records are handed over one by one. -/
theorem deliver_settled {rows : List RawRow} {records : List Record}
    (hrows : rows.map RawRow.fields = records.map TableSink.recordLine)
    (accepted : Nat) (found : Array Record) :
    deliver (fun found record => (true, found.push record)) accepted rows found =
      (.ok (accepted + records.length), found ++ (records.map Record.settled).toArray) := by
  induction records generalizing rows accepted found with
  | nil =>
      obtain rfl := List.map_eq_nil_iff.mp hrows
      simp [deliver]
  | cons record records ih =>
      cases rows with
      | nil => cases hrows
      | cons row rows =>
          obtain ⟨hfields, hrest⟩ := List.cons.inj hrows
          rw [deliver, recordOf_recordLine hfields]
          simp only [ih hrest]
          simp [Nat.add_assoc, Nat.add_comm 1]

theorem deliver_recordLines {rows : List RawRow} {records : List Record}
    (hrows : rows.map RawRow.fields = records.map TableSink.recordLine)
    (h : ∀ record ∈ records, record.OnCents) (accepted : Nat) (found : Array Record) :
    deliver (fun found record => (true, found.push record)) accepted rows found =
      (.ok (accepted + records.length), found ++ records.toArray) := by
  have hsettled : records.map Record.settled = records := by
    rw [List.map_congr_left fun record hrecord => (h record hrecord).settled_eq, List.map_id']
  rw [deliver_settled hrows, hsettled]

theorem isVisible_recordLine (record : Record) : IsVisible (TableSink.recordLine record) := by
  have htag (kind : Kind) : textBytes kind.tag ≠ [] := by
    cases kind <;> decide
  exact ⟨_, _, rfl, htag record.row.kind⟩

/-- The rows behind the header of a tape are the lines of its records. -/
theorem fields_dataRows_tapeBytes (records : List Record) :
    (dataRows (TableSink.tapeBytes records)).map RawRow.fields =
      records.map TableSink.recordLine := by
  apply fields_dataRows
  · exact ⟨_, _, rfl, by decide⟩
  · decide
  · intro line hline
    obtain ⟨record, -, rfl⟩ := List.mem_map.mp hline
    exact isVisible_recordLine record

/-- Records with prices on the grid of cents are read back from a tape as they
were written to it. -/
theorem records_of_written {records : List Record} (h : ∀ record ∈ records, record.OnCents) :
    ∃ sink bytes, RecordSink.writeAll (TableSink.start none) records = (.ok (), sink) ∧
      sink.close = (.ok (), bytes) ∧ Tape.records bytes = .ok records ∧
        rows bytes = .ok (records.map Record.row) := by
  obtain ⟨sink, bytes, hwrite, hclose, hbytes⟩ := TableSink.exists_tape records
  have hread : Tape.records bytes = .ok records := by
    rw [Tape.records, stream, hbytes,
      deliver_recordLines (fields_dataRows_tapeBytes records) h]
    simp [Except.map]
  refine ⟨sink, bytes, hwrite, hclose, hread, ?_⟩
  rw [rows, hread]
  rfl

/-- A quote whose symbol needs quotation marks, and a trade of the nameless symbol
at a price far off the others. -/
def oddRecords : List Record :=
  [.quote
    { timestamp := 1672565400010000000, symbol := " A,\"B\"\r\n"
      bidPrice := Price.toCent 99.985, bidSize := 1000
      askPrice := Price.toCent 100.005, askSize := 4294967295 },
    .trade { timestamp := 0, symbol := "", price := Price.toCent (-1e300), size := 0 }]

theorem records_of_written_oddRecords :
    (∀ record ∈ oddRecords, record.OnCents) ∧
      ∃ sink bytes, RecordSink.writeAll (TableSink.start none) oddRecords = (.ok (), sink) ∧
        sink.close = (.ok (), bytes) ∧ Tape.records bytes = .ok oddRecords ∧
          rows bytes = .ok (oddRecords.map Record.row) := by
  have hcents : ∀ record ∈ oddRecords, record.OnCents := by
    intro record hrecord price hprice
    simp only [oddRecords, List.mem_cons, List.not_mem_nil, or_false] at hrecord
    obtain rfl | rfl := hrecord
    · simp only [Record.prices, List.mem_cons, List.not_mem_nil, or_false] at hprice
      obtain rfl | rfl := hprice
      · exact ⟨99.985, by decide +kernel, rfl⟩
      · exact ⟨100.005, by decide +kernel, rfl⟩
    · simp only [Record.prices, List.mem_cons, List.not_mem_nil, or_false] at hprice
      exact ⟨-1e300, by decide +kernel, hprice⟩
  exact ⟨hcents, records_of_written hcents⟩

end Tape

end MarketTape
