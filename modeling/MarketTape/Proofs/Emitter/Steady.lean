import Mathlib.Data.List.Chain
import MarketTape.Proofs.Draw.Steady
import MarketTape.Proofs.Emitter.Ticks
import MarketTape.Proofs.Walk.Grid

/-!
# Ticks from draws in range

With draws that stay in the ranges of a tape, on a walk whose spread keeps the
book open, a tick can only fail for want of time. As long as the clock has room
for the longest steps, an emitter makes as many ticks as it is asked for.
-/

namespace MarketTape

open Binary64

/-- A timestamp lies a time step in range behind another; the sum does not wrap. -/
def InStep (before after : UInt64) : Prop :=
  before.toNat + Generator.minTimeStep ≤ after.toNat ∧
    after.toNat ≤ before.toNat + Generator.maxTimeStep

/-- The record carries the symbol of the tape, and a trade a price of the tick's
own book and a size in range. -/
def Record.Fits (record : Record) (symbol : String) (book : Book) : Prop :=
  record.symbol = symbol ∧
    ∀ trade, record = .trade trade →
      (trade.price = book.bid ∨ trade.price = book.ask) ∧
        trade.size.toNat ≤ Generator.maxTradeSize

namespace Emitter

variable {σ : Type} [DrawSource σ] {good : σ → Prop} {first second last : Emitter σ}
variable {record : Record} {book : Book}

/-- An emitter that can only fail for want of time. -/
structure Sound (good : σ → Prop) (emitter : Emitter σ) : Prop where
  source : good emitter.source
  onGrid : emitter.walk.OnGrid
  staysOpen : Walk.staysOpen emitter.walk.spread = true

/-- What a tick of a sound emitter does. -/
structure Advance (good : σ → Prop) (first : Emitter σ) (record : Record) (book : Book)
    (second : Emitter σ) : Prop where
  sound : second.Sound good
  symbol : second.symbol = first.symbol
  clock : second.clock = record.timestamp
  inStep : InStep first.clock record.timestamp
  fits : record.Fits first.symbol book

/-- The draws that every tick begins with keep the emitter sound and the book
open. -/
theorem Sound.drawn (hsteady : Steady good) (h : first.Sound good) {timed drifted : σ}
    {timeStep : UInt64} {drift : Binary64}
    (htime : DrawSource.timeStep first.source = (timeStep, timed))
    (hdrift : DrawSource.drift timed = (drift, drifted)) :
    (first.walk.step drift).OnGrid ∧ (first.walk.step drift).book.isOpen = true ∧
      good drifted := by
  obtain ⟨-, htimed⟩ := hsteady.timeStep h.source htime
  obtain ⟨⟨hlow, -⟩, hdrifted⟩ := hsteady.drift htimed hdrift
  have hgrid := h.onGrid.step (le_iff.mp hlow).2.1
  exact ⟨hgrid, hgrid.isOpen_book h.staysOpen, hdrifted⟩

theorem Sound.inStep (hsteady : Steady good) (h : first.Sound good) {timed : σ}
    {timeStep : UInt64} (htime : DrawSource.timeStep first.source = (timeStep, timed))
    (hroom : first.clock.toNat + timeStep.toNat < UInt64.size) :
    InStep first.clock (first.clock + timeStep) := by
  obtain ⟨⟨hshort, hlong⟩, -⟩ := hsteady.timeStep h.source htime
  rw [InStep, toNat_clock_add hroom]
  omega

theorem sideAt_price (book : Book) (part : Binary64) :
    book.price (sideAt part) = book.bid ∨ book.price (sideAt part) = book.ask := by
  cases sideAt part
  · exact .inl rfl
  · exact .inr rfl

/-- A sound emitter makes a tick whenever the clock has room for the longest. -/
theorem Sound.exists_next (hsteady : Steady good) (h : first.Sound good)
    (hroom : first.clock.toNat + Generator.maxTimeStep < UInt64.size) :
    ∃ record book second, first.next = (.tick record book, second) ∧
      Advance good first record book second := by
  cases hnext : first.next with
  | mk emission second =>
      cases Step.of_next hnext with
      | exhausted htime hfull =>
          obtain ⟨⟨-, hlong⟩, -⟩ := hsteady.timeStep h.source htime
          omega
      | crossed htime hroom' hdrift hclassifier htrade hcrossed =>
          obtain ⟨-, hopen, -⟩ := h.drawn hsteady htime hdrift
          rw [hcrossed] at hopen
          cases hopen
      | quote htime hroom' hdrift hclassifier hquote hbid hask =>
          obtain ⟨hgrid, -, hdrifted⟩ := h.drawn hsteady htime hdrift
          obtain ⟨-, hclassified⟩ := hsteady.classifier hdrifted hclassifier
          obtain ⟨-, hhalf⟩ := hsteady.bookSize hclassified hbid
          obtain ⟨-, hsource⟩ := hsteady.bookSize hhalf hask
          refine ⟨_, _, _, rfl, ⟨hsource, hgrid, h.staysOpen⟩, rfl, rfl, ?_, rfl, ?_⟩
          · exact h.inStep hsteady htime hroom'
          · intro trade htrade
            cases htrade
      | trade htime hroom' hdrift hclassifier htrade hopen hside hsize =>
          obtain ⟨hgrid, -, hdrifted⟩ := h.drawn hsteady htime hdrift
          obtain ⟨-, hclassified⟩ := hsteady.classifier hdrifted hclassifier
          obtain ⟨-, hsided⟩ := hsteady.side hclassified hside
          obtain ⟨⟨-, hlarge⟩, hsource⟩ := hsteady.tradeSize hsided hsize
          refine ⟨_, _, _, rfl, ⟨hsource, hgrid, h.staysOpen⟩, rfl, rfl, ?_, rfl, ?_⟩
          · exact h.inStep hsteady htime hroom'
          · rintro trade htrade
            obtain rfl := Record.trade.inj htrade
            exact ⟨sideAt_price _ _, hlarge⟩

/-- What holds of ticks made in a row: all fit the tape, and each lies a time step
behind the one before. -/
structure Regular (symbol : String) (start : UInt64) (ticks : List (Record × Book)) : Prop where
  inStep : List.IsChain InStep (start :: ticks.map fun tick => tick.1.timestamp)
  fits : ∀ tick ∈ ticks, tick.1.Fits symbol tick.2

/-- As long as the clock has room for the longest steps, a sound emitter makes as
many ticks as it is asked for. -/
theorem Sound.exists_makes (hsteady : Steady good) (count : Nat) (h : first.Sound good)
    (hroom : first.clock.toNat + count * Generator.maxTimeStep < UInt64.size) :
    ∃ ticks last, Makes first ticks last ∧ ticks.length = count ∧
      Regular first.symbol first.clock ticks := by
  induction count generalizing first with
  | zero =>
      refine ⟨[], first, .nil first, rfl, .singleton _, ?_⟩
      intro tick hmem
      cases hmem
  | succ count ih =>
      rw [Nat.succ_mul] at hroom
      obtain ⟨record, book, second, hnext, hadvance⟩ := h.exists_next hsteady (by omega)
      have hlate := hadvance.inStep.2
      obtain ⟨ticks, last, hmakes, hlength, hregular⟩ := ih hadvance.sound (by
        rw [hadvance.clock]
        omega)
      refine ⟨(record, book) :: ticks, last, .cons hnext hmakes, congrArg Nat.succ hlength, ?_, ?_⟩
      · have hchain := hregular.inStep
        rw [hadvance.clock] at hchain
        exact .cons_cons hadvance.inStep hchain
      · intro tick hmem
        cases hmem with
        | head => exact hadvance.fits
        | tail _ hmem => exact hadvance.symbol ▸ hregular.fits tick hmem

end Emitter

end MarketTape
