import MarketTape.Binary64.Basic

/-!
# Draws

Everything that is left to chance in a tick is drawn from a source, one kind of
draw for each quantity. A source may be a random generator or a fixed script; a
tick only sees the six draws.
-/

namespace MarketTape

/-- The kinds of draws. -/
inductive Draw where
  | timeStep
  | drift
  | classifier
  | side
  | bookSize
  | tradeSize
deriving DecidableEq, Repr

/-- A source of draws: each draw gives a value and the source behind it. -/
class DrawSource (σ : Type) where
  /-- Nanoseconds from one tick to the next. -/
  timeStep : σ → UInt64 × σ
  /-- How far the mid price drifts. -/
  drift : σ → Binary64 × σ
  /-- A fraction that decides between quote and trade. -/
  classifier : σ → Binary64 × σ
  /-- A fraction that decides between ask and bid. -/
  side : σ → Binary64 × σ
  /-- The size on one side of a quote. -/
  bookSize : σ → UInt32 × σ
  /-- The size of a trade. -/
  tradeSize : σ → UInt32 × σ

/-- A source together with the draws made from it so far. -/
structure Traced (σ : Type) where
  source : σ
  made : Array Draw

namespace Traced

/-- A source from which nothing is drawn yet. -/
def start (source : σ) : Traced σ := ⟨source, #[]⟩

/-- One draw, noted down. -/
def note (kind : Draw) (draw : σ → α × σ) (traced : Traced σ) : α × Traced σ :=
  let (value, source) := draw traced.source
  (value, ⟨source, traced.made.push kind⟩)

instance [DrawSource σ] : DrawSource (Traced σ) where
  timeStep := note .timeStep DrawSource.timeStep
  drift := note .drift DrawSource.drift
  classifier := note .classifier DrawSource.classifier
  side := note .side DrawSource.side
  bookSize := note .bookSize DrawSource.bookSize
  tradeSize := note .tradeSize DrawSource.tradeSize

end Traced

end MarketTape
