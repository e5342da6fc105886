import MarketTape.Proofs.Sink.Table
import MarketTape.Proofs.Table.Room

/-!
# Tapes that outgrow their destination

Whatever a table sink is asked to write and however often it is flushed, its
destination ends up with the beginning of the tape of all those records. A success
is only reported where all of that tape has arrived.
-/

namespace MarketTape.TableSink

open Table

theorem tapeBytes_concat (records : List Record) (record : Record) :
    tapeBytes (records ++ [record]) = tapeBytes records ++ bytesOf (recordPieces record) := by
  rw [tapeBytes_append]
  simp [recordPieces, piecesOf, recordLine]

variable {capacity : Nat} {given : List Record} {sink : TableSink}

/-! ## Single requests -/

theorem within_start (capacity : Nat) :
    (start (some capacity)).writer.Within capacity (tapeBytes []) := by
  have hheader := ((Writer.intact_start capacity).putAll header).within
  rw [tapeBytes, List.map_nil, List.flatMap_nil, List.append_nil]
  exact hheader

/-- The header finds space in the buffer, however little the destination takes. -/
theorem putAll_header (room : Option Nat) : ((Writer.start room).putAll header).1 = true :=
  Writer.putAll_of_space header (show 0 + (bytesOf header).length ≤ Writer.bufferSize by decide)

theorem within_write (h : sink.writer.Within capacity (tapeBytes given)) (record : Record) :
    (RecordSink.write sink record).2.writer.Within capacity (tapeBytes (given ++ [record])) := by
  have hput := h.putAll (recordPieces record)
  rw [tapeBytes_concat]
  change (sink.write record).2.writer.Within _ _
  rw [write]
  split <;> rename_i heq <;> rw [heq] at hput <;> exact hput

/-- A flush succeeds exactly if the whole tape fits the destination, which then
holds as much of it as there is room for. -/
theorem within_flush (h : sink.writer.Within capacity (tapeBytes given)) :
    ((RecordSink.flush sink).1 = .ok () ↔ (tapeBytes given).length ≤ capacity) ∧
      (RecordSink.flush sink).2.writer.Within capacity (tapeBytes given) ∧
        (RecordSink.flush sink).2.writer.delivered.data.toList =
          (tapeBytes given).take capacity := by
  obtain ⟨hok, hwithin, hdelivered⟩ := h.spill
  change (sink.flush.1 = .ok () ↔ _) ∧ sink.flush.2.writer.Within _ _ ∧
    sink.flush.2.writer.delivered.data.toList = _
  rw [flush]
  split <;> rename_i heq <;> rw [heq] at hok hwithin hdelivered
  · exact ⟨by simpa using hok, hwithin, hdelivered⟩
  · exact ⟨by simpa using hok, hwithin, hdelivered⟩

/-- A row is counted if its write succeeds. -/
theorem rows_write (sink : TableSink) (record : Record) :
    (RecordSink.write sink record).2.rows = sink.rows +
      ([SinkCall.write record (RecordSink.write sink record).1].filterMap
        SinkCall.kept).length := by
  change (sink.write record).2.rows =
    sink.rows + ([SinkCall.write record (sink.write record).1].filterMap SinkCall.kept).length
  rw [write]
  split <;> rfl

@[simp] theorem rows_flush (sink : TableSink) : (RecordSink.flush sink).2.rows = sink.rows := by
  change sink.flush.2.rows = _
  rw [flush]
  split <;> rfl

theorem within_writeAll (h : sink.writer.Within capacity (tapeBytes given)) {records : List Record}
    {after : TableSink} (hwrite : RecordSink.writeAll sink records = (.ok (), after)) :
    after.writer.Within capacity (tapeBytes (given ++ records)) := by
  induction records generalizing sink given with
  | nil =>
      cases hwrite
      rwa [List.append_nil]
  | cons record records ih =>
      have hfirst := within_write h record
      rw [RecordSink.writeAll] at hwrite
      split at hwrite
      · rename_i middle hmiddle
        rw [hmiddle] at hfirst
        have hrest := ih hfirst hwrite
        rwa [List.append_assoc, List.singleton_append] at hrest
      · cases hwrite

/-- Whatever room there is, a sink that is closed without any failure has delivered
the whole tape. -/
theorem delivered_of_close {room : Option Nat} {records : List Record} {written flushed : TableSink}
    {bytes : ByteArray} (hwrite : RecordSink.writeAll (start room) records = (.ok (), written))
    (hflush : RecordSink.flush written = (.ok (), flushed))
    (hclose : flushed.close = (.ok (), bytes)) : bytes.data.toList = tapeBytes records := by
  cases room with
  | none =>
      obtain ⟨_, _, _, hwrite', hflush', hclose', hbytes⟩ := exists_flushed_tape records
      cases hwrite.symm.trans hwrite'
      cases hflush.symm.trans hflush'
      cases hclose.symm.trans hclose'
      exact hbytes
  | some capacity =>
      have hwithin := within_writeAll (within_start capacity) hwrite
      have hflushed := (within_flush hwithin).2.1
      rw [hflush, List.nil_append] at hflushed
      obtain ⟨hok, -, hdelivered⟩ := within_flush hflushed
      have hdone : (RecordSink.flush flushed).1 = .ok () := congrArg Prod.fst hclose
      have hbytes : (RecordSink.flush flushed).2.writer.delivered = bytes :=
        congrArg Prod.snd hclose
      rw [← hbytes, hdelivered, List.take_of_length_le (hok.mp hdone)]

/-! ## Any requests -/

theorem within_serveAll (h : sink.writer.Within capacity (tapeBytes given))
    (requests : List SinkRequest) :
    (RecordSink.serveAll sink requests).2.writer.Within capacity
      (tapeBytes (given ++ SinkRequest.records requests)) := by
  induction requests generalizing sink given with
  | nil =>
      rw [SinkRequest.records_nil, List.append_nil]
      exact h
  | cons request requests ih =>
      cases request with
      | write record =>
          have hrest := ih (within_write h record)
          rwa [List.append_assoc, List.singleton_append] at hrest
      | flush => exact ih (within_flush h).2.1

/-- The rows are counted of the writes that succeed. -/
theorem rows_serveAll (sink : TableSink) (requests : List SinkRequest) :
    (RecordSink.serveAll sink requests).2.rows =
      sink.rows + ((RecordSink.serveAll sink requests).1.filterMap SinkCall.kept).length := by
  induction requests generalizing sink with
  | nil => rfl
  | cons request requests ih =>
      cases request with
      | write record =>
          rw [RecordSink.serveAll, RecordSink.serve]
          simp only
          rw [ih, rows_write, Nat.add_assoc, ← List.length_append, ← List.filterMap_append,
            List.singleton_append]
      | flush =>
          rw [RecordSink.serveAll, RecordSink.serve]
          simp only
          rw [ih, rows_flush]
          rfl

/-- A destination with a capacity holds the beginning of the tape of all records
that were to be written, as much as it has room for, once the sink is closed. The
closing succeeds exactly if that is all of the tape. At every earlier moment the
rows tell how many writes succeeded, and a flush that succeeds has delivered every
byte. -/
theorem served_within (capacity : Nat) (requests : List SinkRequest) :
    let closed := (RecordSink.serveAll (start (some capacity)) requests).2.close
    let text := tapeBytes (SinkRequest.records requests)
    closed.2.data.toList = text.take capacity ∧
      (closed.1 = .ok () ↔ text.length ≤ capacity) ∧
      ((Writer.start (some capacity)).putAll header).1 = true ∧
      ∀ front, front <+: requests →
        let (calls, sink) := RecordSink.serveAll (start (some capacity)) front
        sink.rows = (calls.filterMap SinkCall.kept).length ∧
          ∀ flushed, RecordSink.flush sink = (.ok (), flushed) →
            flushed.writer.delivered.data.toList = tapeBytes (SinkRequest.records front) := by
  have hwithin (front : List SinkRequest) :=
    within_serveAll (within_start capacity) front
  obtain ⟨hok, -, hdelivered⟩ := within_flush (hwithin requests)
  refine ⟨hdelivered, hok, putAll_header _, ?_⟩
  intro front hfront
  obtain ⟨hok', -, hdelivered'⟩ := within_flush (hwithin front)
  refine ⟨by rw [rows_serveAll]; exact Nat.zero_add _, ?_⟩
  intro flushed hflush
  rw [hflush] at hok' hdelivered'
  rw [hdelivered', List.take_of_length_le (hok'.mp rfl)]
  rfl

end MarketTape.TableSink
