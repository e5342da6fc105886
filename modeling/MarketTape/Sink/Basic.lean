import MarketTape.Record.Basic

/-!
# Sinks

A sink takes the records of a run in order. It may refuse a record or a flush;
what it holds afterwards is part of the answer.
-/

namespace MarketTape

/-- Why a sink refused a record or a flush. -/
inductive SinkError where
  /-- The destination behind the sink failed. -/
  | output (cause : String)
  /-- A row could not be written. -/
  | row (cause : String)
deriving DecidableEq, Repr

/-- The text of a sink error. -/
def SinkError.message : SinkError → String
  | .output cause => "i/o failure: " ++ cause
  | .row cause => "csv write failure: " ++ cause

/-- A sink of type `κ`: both operations give the sink behind them, also where
they fail. -/
class RecordSink (κ : Type) where
  write : κ → Record → Except SinkError Unit × κ
  flush : κ → Except SinkError Unit × κ

/-- A sink in memory, which keeps every record. -/
structure MemorySink where
  records : Array Record

namespace MemorySink

def empty : MemorySink := ⟨#[]⟩

instance : RecordSink MemorySink where
  write sink record := (.ok (), ⟨sink.records.push record⟩)
  flush sink := (.ok (), sink)

end MemorySink

/-- A sink that counts what is asked of it, and refuses one write or every flush
on behalf of the sink inside. -/
structure GuardedSink (κ : Type) where
  inner : κ
  /-- Which write fails, counted from 1. -/
  failingWrite : Option Nat
  flushFails : Bool
  writes : Nat
  flushes : Nat

namespace GuardedSink

/-- A guard that nothing has passed yet. -/
def start (inner : κ) (failingWrite : Option Nat) (flushFails : Bool) : GuardedSink κ :=
  { inner, failingWrite, flushFails, writes := 0, flushes := 0 }

instance [RecordSink κ] : RecordSink (GuardedSink κ) where
  write sink record :=
    let counted := { sink with writes := sink.writes + 1 }
    if sink.failingWrite = some counted.writes then
      (.error (.output "disk full"), counted)
    else
      let (result, inner) := RecordSink.write sink.inner record
      (result, { counted with inner })
  flush sink :=
    let counted := { sink with flushes := sink.flushes + 1 }
    if sink.flushFails then
      (.error (.output "flush refused"), counted)
    else
      let (result, inner) := RecordSink.flush sink.inner
      (result, { counted with inner })

end GuardedSink

end MarketTape
