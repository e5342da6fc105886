import MarketTape.Journal
import MarketTape.Record.Basic

/-!
# Statistics of a run

Counts of quotes and trades, the volume traded, the first and last timestamp and
the range of the mid prices, added up record by record.
-/

namespace MarketTape

/-- What a run adds up. The counts and the volume stand for counters of 64 bits, as
whole numbers without a bound: `Stats.Fits` says that none of them overflows. So it
is at every point of a run with settings that pass the check
(`Emitter.Regular.stats_fit`, `Proofs/Settings/Run`), and of any run as long as the
sizes traded fit (`Stats.fits_addAll`, `Proofs/Emitter/Statistics`). -/
structure Stats where
  quotes : Nat
  trades : Nat
  /-- The sizes of all trades together. -/
  volume : Nat
  first : Option UInt64
  last : Option UInt64
  lowestMid : Binary64
  highestMid : Binary64
deriving DecidableEq, Repr

/-- A last timestamp before the first, so that no time span can be told. -/
inductive SpanError where
  | backwards
deriving DecidableEq, Repr

/-- The text of a span error. -/
def SpanError.message : SpanError → String
  | .backwards => "attempt to subtract with overflow"

namespace Stats

-- Powers are the core library's, whichever others are in scope.
attribute [local instance (2000)] instPowNat

/-- The statistics of no records. The range of mids is empty. -/
def empty : Stats where
  quotes := 0
  trades := 0
  volume := 0
  first := none
  last := none
  lowestMid := .infinity false
  highestMid := .infinity true

/-- One more record, made at a given mid. A mid that is a NaN leaves the range
as it is. -/
def add (stats : Stats) (record : Record) (mid : Binary64) : Stats where
  quotes := stats.quotes + (match record with | .quote _ => 1 | .trade _ => 0)
  trades := stats.trades + (match record with | .quote _ => 0 | .trade _ => 1)
  volume := stats.volume + (match record with | .quote _ => 0 | .trade t => t.size.toNat)
  first := some (stats.first.getD record.timestamp)
  last := some record.timestamp
  lowestMid := stats.lowestMid.least mid
  highestMid := stats.highestMid.greatest mid

/-- The number of records. -/
def total (stats : Stats) : Nat := stats.quotes + stats.trades

@[simp] theorem total_empty : empty.total = 0 := rfl

@[simp] theorem total_add (stats : Stats) (record : Record) (mid : Binary64) :
    (stats.add record mid).total = stats.total + 1 := by
  cases record <;> simp [add, total] <;> omega

/-- The nanoseconds from the first to the last record, if there are any. -/
def span (stats : Stats) : Except SpanError (Option Nat) :=
  match stats.first, stats.last with
  | some first, some last =>
    if last < first then .error .backwards else .ok (some (last.toNat - first.toNat))
  | _, _ => .ok none

/-- The lowest and the highest mid, if there are any records. -/
def midRange (stats : Stats) : Option (Binary64 × Binary64) :=
  if stats.total = 0 then none else some (stats.lowestMid, stats.highestMid)

/-- The share of the records that are quotes, 0 if there are none. -/
def quoteRatio (stats : Stats) : Binary64 :=
  if stats.total = 0 then .zero false
  else Binary64.ofNat stats.quotes / Binary64.ofNat stats.total

/-- Records for each second of a time in which they were made, 0 where no time
has passed. -/
def rate (stats : Stats) (seconds : Option Binary64) : Binary64 :=
  match seconds with
  | none => .zero false
  | some seconds =>
    if 0 < seconds then Binary64.ofNat stats.total / seconds else .zero false

/-- A number of nanoseconds in the largest of four units that it reaches, its
decimals without the zeros at their end. -/
def spanText (nanoseconds : Nat) : String :=
  if 1000000000 ≤ nanoseconds then inUnit 9 "s"
  else if 1000000 ≤ nanoseconds then inUnit 6 "ms"
  else if 1000 ≤ nanoseconds then inUnit 3 "µs"
  else inUnit 0 "ns"
where
  /-- The text in a unit of `10 ^ places` nanoseconds. -/
  inUnit (places : Nat) (unit : String) : String :=
    let digits := (Nat.repr (nanoseconds % 10 ^ places)).toList
    let fraction := List.replicate (places - digits.length) '0' ++ digits
    let kept := (fraction.reverse.dropWhile (· = '0')).reverse
    Nat.repr (nanoseconds / 10 ^ places) ++
      String.ofList (if kept.isEmpty then [] else '.' :: kept) ++ unit

/-- The event that sums up a run. -/
def summary (stats : Stats) : Except SpanError Event :=
  stats.span.map fun span =>
    let (low, high) := stats.midRange.getD (.zero false, .zero false)
    { level := .info
      message := "generation summary"
      details :=
        [("records", .count stats.total), ("quotes", .count stats.quotes),
          ("trades", .count stats.trades), ("quote_ratio", .number stats.quoteRatio),
          ("trade_volume", .count stats.volume), ("min_mid", .number low),
          ("max_mid", .number high),
          ("simulated_span", .text
            (match span with
              | some nanoseconds => "Some(" ++ spanText nanoseconds ++ ")"
              | none => "None"))] }

end Stats

end MarketTape
