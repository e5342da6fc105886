import MarketTape.Proofs.Price.Settled
import MarketTape.Proofs.Tape.RoundTrip
import Mathlib.Data.List.Forall2

/-!
# Tapes that are written anew

A tape may come in any of the forms that the reader grants. Once its records are
written by a table sink it has the one form that the sink gives, and reading and
writing it changes nothing any more.
-/

namespace MarketTape

namespace Record

/-- Records that differ in their prices at most, and there by less than a cent. -/
inductive Close : Record → Record → Prop where
  | quote {q r : Quote} (timestamp : r.timestamp = q.timestamp) (symbol : r.symbol = q.symbol)
      (bidPrice : Price.Near q.bidPrice r.bidPrice) (bidSize : r.bidSize = q.bidSize)
      (askPrice : Price.Near q.askPrice r.askPrice) (askSize : r.askSize = q.askSize) :
      Close (.quote q) (.quote r)
  | trade {t u : Trade} (timestamp : u.timestamp = t.timestamp) (symbol : u.symbol = t.symbol)
      (price : Price.Near t.price u.price) (size : u.size = t.size) :
      Close (.trade t) (.trade u)

theorem close_settled (record : Record) : record.Close record.settled := by
  cases record with
  | quote q => exact .quote rfl rfl (Price.near_settled _) rfl (Price.near_settled _) rfl
  | trade t => exact .trade rfl rfl (Price.near_settled _) rfl

/-- Settled prices are written as the prices that they come from. -/
theorem fields_settled (record : Record) : record.settled.row.fields = record.row.fields := by
  cases record with
  | quote q => simp [settled, row, Row.fields, Price.text_settled]
  | trade t => simp [settled, row, Row.fields, Price.text_settled]

end Record

namespace TableSink

theorem tapeBytes_settled (records : List Record) :
    tapeBytes (records.map Record.settled) = tapeBytes records := by
  have hline (record : Record) : recordLine record.settled = recordLine record := by
    rw [recordLine, recordLine, Record.fields_settled]
  simp only [tapeBytes, List.map_map, Function.comp_def, hline]

/-- The tape of some records, written to a destination without a limit. -/
def tape (records : List Record) : Except SinkError ByteArray :=
  match RecordSink.writeAll (start none) records with
  | (.ok _, sink) =>
    match sink.close with
    | (.ok _, bytes) => .ok bytes
    | (.error error, _) => .error error
  | (.error error, _) => .error error

theorem tape_eq_ok (records : List Record) :
    tape records = .ok ⟨(tapeBytes records).toArray⟩ := by
  obtain ⟨sink, bytes, hwrite, hclose, hbytes⟩ := exists_tape records
  rw [tape, hwrite]
  simp only [hclose, ← hbytes]

end TableSink

namespace Tape

/-- The records of a tape, written anew. -/
def rewrite (bytes : ByteArray) : Except ReadError (Except SinkError ByteArray) :=
  (records bytes).map TableSink.tape

theorem records_tapeBytes (given : List Record) :
    records ⟨(TableSink.tapeBytes given).toArray⟩ = .ok (given.map Record.settled) := by
  rw [records, stream, deliver_settled (fields_dataRows_tapeBytes given)]
  simp [Except.map]

/-- A tape that can be read settles when it is written anew: its records come back
with all that they held and prices less than a cent away, and from there on the
tape stays the same byte for byte. -/
theorem rewrite_settles {bytes : ByteArray} {given : List Record}
    (h : records bytes = .ok given) :
    ∃ text again, rewrite bytes = .ok (.ok text) ∧ records text = .ok again ∧
      List.Forall₂ Record.Close given again ∧ rewrite text = .ok (.ok text) := by
  refine ⟨_, given.map Record.settled, ?_, records_tapeBytes given, ?_, ?_⟩
  · rw [rewrite, h, ← TableSink.tape_eq_ok]
    rfl
  · exact List.forall₂_map_right_iff.mpr (List.forall₂_same.mpr fun r _ => r.close_settled)
  · rw [rewrite, records_tapeBytes]
    simp only [Except.map, TableSink.tape_eq_ok, TableSink.tapeBytes_settled]

/-- A tape with line ends of all kinds, a trade without the columns of a quote, a
quote with a column too many, and numbers in several forms. -/
def lenient : ByteArray :=
  ("KIND\r\n\"TRADE\", 7 ,\"A,\"\"B\",+1e2,+05\r\n\r\n" ++
    "QUOTE,1,,,,-iNf, 1,NaN ,2,more\rTRADE,18446744073709551615, S,.0050000001,0").toByteArray

def lenientRecords : List Record :=
  [.trade { timestamp := 7, symbol := "A,\"B", price := 100, size := 5 },
    .quote
      { timestamp := 1, symbol := "", bidPrice := .infinity true, bidSize := 1
        askPrice := .nan, askSize := 2 },
    .trade { timestamp := 18446744073709551615, symbol := " S", price := 0.0050000001, size := 0 }]

theorem rewrite_settles_lenient :
    records lenient = .ok lenientRecords ∧
      ∃ text again, rewrite lenient = .ok (.ok text) ∧ records text = .ok again ∧
        List.Forall₂ Record.Close lenientRecords again ∧ rewrite text = .ok (.ok text) := by
  have hread : records lenient = .ok lenientRecords := by decide +kernel
  exact ⟨hread, rewrite_settles hread⟩

end Tape

end MarketTape
