import MarketTape.Draw.Basic
import MarketTape.Record.Basic
import MarketTape.Walk

/-!
# The emitter

An emitter makes the records of a tape one tick at a time: the clock advances,
the walk takes a step, and the tick becomes a quote of both sides of the book or
a trade at one of them. The draws of a tick come in a fixed order: time step,
drift and classifier, then two book sizes for a quote, a side and a trade size
for a trade.
-/

namespace MarketTape

/-- What records are made from: the symbol, the time and the walk of the last
tick, and the source of the draws to come. -/
structure Emitter (σ : Type) where
  symbol : String
  /-- Nanoseconds since the epoch. -/
  clock : UInt64
  walk : Walk
  source : σ
deriving Repr

/-- What comes of a tick. -/
inductive Emission where
  /-- A record, and the book it was made from. -/
  | tick (record : Record) (book : Book)
  /-- The clock would have run past its end. -/
  | exhausted
  /-- A trade was due on a book whose ask does not stand above its bid. This is the
  failure of a debug assertion: where such assertions are not checked, the trade is
  made all the same. -/
  | crossed (book : Book)
deriving DecidableEq, Repr

namespace Emitter

/-- The share of ticks that are quotes. -/
def quoteShare : Binary64 := 0.7

/-- The share of trades made at the ask. -/
def askShare : Binary64 := 0.5

/-- The symbol of a tape where no other is given. -/
def standardSymbol : String := "SYNTH"

/-- The time a tape starts from where no other is given: 2023-01-01 09:30 UTC. -/
def standardStart : UInt64 := 1672565400000000000

/-- The side of the book that a fraction stands for. -/
def sideAt (part : Binary64) : Side := if part < askShare then .ask else .bid

/-- One tick. A clock that would run past its end stops the tick after the time
step is drawn. A crossed book stops a trade before its side is drawn, by an assertion
that is live only where debug assertions are checked. -/
def next [DrawSource σ] (emitter : Emitter σ) : Emission × Emitter σ :=
  let (timeStep, source) := DrawSource.timeStep emitter.source
  if emitter.clock.toNat + timeStep.toNat < UInt64.size then
    let timestamp := emitter.clock + timeStep
    let symbol := emitter.symbol
    let (drift, source) := DrawSource.drift source
    let walk := emitter.walk.step drift
    let book := walk.book
    let (classifier, source) := DrawSource.classifier source
    if classifier < quoteShare then
      let (bidSize, source) := DrawSource.bookSize source
      let (askSize, source) := DrawSource.bookSize source
      let quote :=
        { timestamp, symbol, bidPrice := book.bid, bidSize, askPrice := book.ask, askSize }
      (.tick (.quote quote) book, { symbol, clock := timestamp, walk, source })
    else if book.isOpen then
      let (part, source) := DrawSource.side source
      let (size, source) := DrawSource.tradeSize source
      let trade := { timestamp, symbol, price := book.price (sideAt part), size }
      (.tick (.trade trade) book, { symbol, clock := timestamp, walk, source })
    else
      (.crossed book, { symbol, clock := timestamp, walk, source })
  else
    (.exhausted, { emitter with source })

/-- What comes of `count` ticks in a row. A crossed book ends them; an exhausted
clock does not, and each further tick draws its time step again. -/
def nexts [DrawSource σ] : Nat → Emitter σ → List Emission × Emitter σ
  | 0, emitter => ([], emitter)
  | count + 1, emitter =>
    match emitter.next with
    | (.crossed book, after) => ([.crossed book], after)
    | (emission, after) =>
      let (emissions, last) := nexts count after
      (emission :: emissions, last)

/-- The records of up to `count` ticks, what ended them early if anything did,
and the emitter behind the last tick made. -/
def take [DrawSource σ] : Nat → Emitter σ → List Record × Option Emission × Emitter σ
  | 0, emitter => ([], none, emitter)
  | count + 1, emitter =>
    match emitter.next with
    | (.tick record _, after) =>
      let (records, ending, last) := take count after
      (record :: records, ending, last)
    | (other, after) => ([], some other, after)

end Emitter

end MarketTape
