import MarketTape.Sink.Basic

/-!
# Sinks and what is asked of them

`RecordSink.writeAll` writes records in order up to the first refusal, and
`RecordSink.serveAll` goes on whatever is refused. A `Logged` sink behaves as the
sink inside, and keeps a list of all calls with their results.
-/

namespace MarketTape

namespace RecordSink

variable {κ : Type} [RecordSink κ]

/-- Writes records in order, and nothing behind the first that is refused. -/
def writeAll : κ → List Record → Except SinkError Unit × κ
  | sink, [] => (.ok (), sink)
  | sink, record :: records =>
    match write sink record with
    | (.ok _, sink) => writeAll sink records
    | (.error error, sink) => (.error error, sink)

@[simp] theorem writeAll_nil (sink : κ) : writeAll sink [] = (.ok (), sink) := rfl

/-- All of two lists is written if both are, one behind the other. -/
theorem writeAll_append {sink : κ} {front back : List Record} :
    writeAll sink (front ++ back) =
      match writeAll sink front with
      | (.ok _, sink) => writeAll sink back
      | (.error error, sink) => (.error error, sink) := by
  induction front generalizing sink with
  | nil => rfl
  | cons record front ih =>
      rw [List.cons_append, writeAll, writeAll]
      split
      · exact ih
      · rfl

theorem writeAll_singleton (sink : κ) (record : Record) :
    writeAll sink [record] = write sink record := by
  rw [writeAll]
  split
  · rename_i result after hwrite
    rw [hwrite, writeAll_nil]
  · rename_i error after hwrite
    rw [hwrite]

end RecordSink

/-- A call of a sink, with its result. -/
inductive SinkCall where
  | write (record : Record) (result : Except SinkError Unit)
  | flush (result : Except SinkError Unit)

namespace SinkCall

/-- The record that a call made the sink keep. -/
def kept : SinkCall → Option Record
  | .write record (.ok _) => some record
  | _ => none

/-- The call of a write that was not refused. -/
def accepted (record : Record) : SinkCall := .write record (.ok ())

@[simp] theorem kept_accepted (record : Record) : (accepted record).kept = some record := rfl

@[simp] theorem kept_refused (record : Record) (error : SinkError) :
    (write record (.error error)).kept = none := rfl

@[simp] theorem kept_flush (result : Except SinkError Unit) : (flush result).kept = none := rfl

@[simp] theorem filterMap_kept_accepted (records : List Record) :
    (records.map accepted).filterMap kept = records := by
  induction records with
  | nil => rfl
  | cons record records ih => simpa using ih

end SinkCall

/-- What can be asked of a sink. -/
inductive SinkRequest where
  | write (record : Record)
  | flush

namespace SinkRequest

/-- The record that is to be written. -/
def record? : SinkRequest → Option Record
  | .write record => some record
  | .flush => none

/-- The records of some requests, in order. -/
def records (requests : List SinkRequest) : List Record := requests.filterMap record?

@[simp] theorem records_nil : records [] = [] := rfl

@[simp] theorem records_write (record : Record) (requests : List SinkRequest) :
    records (.write record :: requests) = record :: records requests := rfl

@[simp] theorem records_flush (requests : List SinkRequest) :
    records (.flush :: requests) = records requests := rfl

end SinkRequest

namespace RecordSink

variable {κ : Type} [RecordSink κ]

/-- Asks one thing of a sink. -/
def serve (sink : κ) : SinkRequest → SinkCall × κ
  | .write record =>
    let (result, after) := write sink record
    (.write record result, after)
  | .flush =>
    let (result, after) := flush sink
    (.flush result, after)

/-- Asks for one thing after the other, whatever fails, and lists the calls. -/
def serveAll : κ → List SinkRequest → List SinkCall × κ
  | sink, [] => ([], sink)
  | sink, request :: requests =>
    let (call, after) := serve sink request
    let (calls, last) := serveAll after requests
    (call :: calls, last)

end RecordSink

/-- A sink with all calls that were made on it. -/
structure Logged (κ : Type) where
  inner : κ
  calls : List SinkCall

namespace Logged

variable {κ : Type} [RecordSink κ]

/-- A sink on which nothing was called yet. -/
def start (inner : κ) : Logged κ := ⟨inner, []⟩

def write (sink : Logged κ) (record : Record) : Except SinkError Unit × Logged κ :=
  let (result, inner) := RecordSink.write sink.inner record
  (result, ⟨inner, sink.calls ++ [.write record result]⟩)

def flush (sink : Logged κ) : Except SinkError Unit × Logged κ :=
  let (result, inner) := RecordSink.flush sink.inner
  (result, ⟨inner, sink.calls ++ [.flush result]⟩)

instance : RecordSink (Logged κ) := ⟨write, flush⟩

variable {inner inner' : κ} {calls : List SinkCall} {result : Except SinkError Unit}

theorem write_eq {record : Record} (h : RecordSink.write inner record = (result, inner')) :
    RecordSink.write (Logged.mk inner calls) record =
      (result, ⟨inner', calls ++ [.write record result]⟩) := by
  change Logged.write _ record = _
  rw [write, h]

theorem flush_eq (h : RecordSink.flush inner = (result, inner')) :
    RecordSink.flush (Logged.mk inner calls) = (result, ⟨inner', calls ++ [.flush result]⟩) := by
  change Logged.flush _ = _
  rw [flush, h]

theorem writeAll_eq {records : List Record} (calls : List SinkCall)
    (h : RecordSink.writeAll inner records = (.ok (), inner')) :
    RecordSink.writeAll (Logged.mk inner calls) records =
      (.ok (), ⟨inner', calls ++ records.map .accepted⟩) := by
  induction records generalizing inner calls with
  | nil =>
      obtain rfl : inner = inner' := (Prod.mk.inj h).2
      simp
  | cons record records ih =>
      rw [RecordSink.writeAll] at h ⊢
      split at h
      · rename_i result after hwrite
        rw [write_eq hwrite]
        simp only [ih _ h, List.map_cons, List.append_assoc, List.singleton_append]
        rfl
      · cases h

end Logged

end MarketTape
