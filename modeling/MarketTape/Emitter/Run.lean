import MarketTape.Emitter.Basic
import MarketTape.Sink.Basic
import MarketTape.Stats

/-!
# Runs of an emitter

A run makes a number of ticks, writes each record to a sink before it is counted,
and flushes the sink at the end. The first refusal of the sink, the end of the
clock or a crossed book ends it early; then nothing is flushed.
-/

namespace MarketTape

/-- Why a run ended early. -/
inductive RunError where
  | sink (error : SinkError)
  | clockExhausted (emitted : Nat)
  /-- The debug assertion of a tick failed. -/
  | crossedBook (book : Book)
deriving DecidableEq, Repr

namespace RunError

/-- The text of a run error. -/
def message : RunError → String
  | .sink error => error.message
  | .clockExhausted emitted => s!"nanosecond clock exhausted after {emitted} records"
  | .crossedBook book =>
    "crossed or locked book: TopOfBook \x7b mid: " ++ book.mid.text .exact ++
      ", bid: " ++ book.bid.text .exact ++ ", ask: " ++ book.ask.text .exact ++ " \x7d"

end RunError

/-- What a run leaves behind. -/
structure RunResult (σ κ : Type) where
  outcome : Except RunError Stats
  emitter : Emitter σ
  sink : κ

namespace Emitter

variable {σ κ : Type} [DrawSource σ] [RecordSink κ]

/-- The rest of a run, behind the records already counted. -/
def runFrom : Nat → Stats → Emitter σ → κ → RunResult σ κ
  | 0, stats, emitter, sink =>
    match RecordSink.flush sink with
    | (.ok _, sink) => ⟨.ok stats, emitter, sink⟩
    | (.error error, sink) => ⟨.error (.sink error), emitter, sink⟩
  | ticks + 1, stats, emitter, sink =>
    match emitter.next with
    | (.tick record book, after) =>
      match RecordSink.write sink record with
      | (.ok _, sink) => runFrom ticks (stats.add record book.mid) after sink
      | (.error error, sink) => ⟨.error (.sink error), after, sink⟩
    | (.exhausted, after) => ⟨.error (.clockExhausted stats.total), after, sink⟩
    | (.crossed book, after) => ⟨.error (.crossedBook book), after, sink⟩

/-- Exactly `ticks` records into a sink, and then a flush. -/
def run (ticks : Nat) (emitter : Emitter σ) (sink : κ) : RunResult σ κ :=
  runFrom ticks .empty emitter sink

/-- The event that opens a run. -/
def opening (ticks : Nat) (emitter : Emitter σ) : Event where
  level := .debug
  message := "emitter starting"
  details :=
    [("symbol", .text emitter.symbol), ("ticks", .count ticks),
      ("start_ns", .count emitter.clock.toNat), ("mid", .number emitter.walk.mid),
      ("spread", .number emitter.walk.spread)]

end Emitter

end MarketTape
