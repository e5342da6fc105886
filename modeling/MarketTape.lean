import MarketTape.Main
import MarketTape.Proofs.Draw.Series
import MarketTape.Proofs.Emitter.Exhausted
import MarketTape.Proofs.Emitter.Statistics
import MarketTape.Proofs.Generation.Success
import MarketTape.Proofs.Price.Forms
import MarketTape.Proofs.Record.Grammar
import MarketTape.Proofs.Settings.Clock
import MarketTape.Proofs.Settings.Prices
import MarketTape.Proofs.Settings.Text
import MarketTape.Proofs.Tape.Lines
import MarketTape.Proofs.Walk.Threshold
import MarketTape.Proofs.Table.Layout
