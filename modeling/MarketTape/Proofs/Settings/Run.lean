import MarketTape.Proofs.Emitter.Outcome
import MarketTape.Proofs.Emitter.Steady
import MarketTape.Proofs.Settings.Check
import Mathlib.Algebra.Order.BigOperators.Group.List
import Mathlib.Algebra.Group.Action.Defs

/-!
# Runs from usable settings

The check of settings is made once, before a run of any length. It leaves a run
with draws in range and a sink that takes everything nothing to fail on: the
clock has room for all ticks, no book closes, and no counter outgrows 64 bits.
-/

namespace MarketTape

/-- Every call on a sink with a property is granted, and leaves a sink with the
property again. -/
structure Reliable [RecordSink κ] (sound : κ → Prop) : Prop where
  write : ∀ {sink : κ} (record : Record), sound sink →
    ∃ sink', RecordSink.write sink record = (.ok (), sink') ∧ sound sink'
  flush : ∀ {sink : κ}, sound sink →
    ∃ sink', RecordSink.flush sink = (.ok (), sink') ∧ sound sink'

theorem Reliable.writeAll [RecordSink κ] {sound : κ → Prop} (h : Reliable sound) {sink : κ}
    (hsound : sound sink) (records : List Record) :
    ∃ sink', RecordSink.writeAll sink records = (.ok (), sink') ∧ sound sink' := by
  induction records generalizing sink with
  | nil => exact ⟨sink, rfl, hsound⟩
  | cons record records ih =>
      obtain ⟨written, hwrite, hwritten⟩ := h.write record hsound
      obtain ⟨sink', hrest, hsound'⟩ := ih hwritten
      refine ⟨sink', ?_, hsound'⟩
      rw [RecordSink.writeAll, hwrite]
      exact hrest

/-- A sink in memory takes everything. -/
theorem reliable_memorySink : Reliable fun _ : MemorySink => True where
  write _ _ := ⟨_, rfl, trivial⟩
  flush _ := ⟨_, rfl, trivial⟩

/-- All counters stay within 64 bits, and the time span can be told. -/
structure Stats.Fits (stats : Stats) : Prop where
  quotes : stats.quotes < UInt64.size
  trades : stats.trades < UInt64.size
  total : stats.total < UInt64.size
  volume : stats.volume < UInt64.size
  span : ∃ span, stats.span = .ok span

/-- Statistics fit where timestamps never go back, as long as the number of ticks and the
sizes traded fit. -/
theorem Stats.fits_addAll {ticks : List (Record × Book)}
    (htimes : List.IsChain (· ≤ ·) (ticks.map fun tick => tick.1.timestamp))
    (hcount : ticks.length < UInt64.size)
    (htraded : (ticks.map fun tick => tick.1.traded).sum < UInt64.size) :
    (Stats.empty.addAll ticks).Fits := by
  have htotal : (Stats.empty.addAll ticks).total = ticks.length := by
    rw [Stats.total_addAll, Stats.total_empty, Nat.zero_add]
  have hvolume : (Stats.empty.addAll ticks).volume =
      (ticks.map fun tick => tick.1.traded).sum := by
    rw [Stats.volume_addAll]
    exact Nat.zero_add _
  constructor
  case quotes =>
    rw [Stats.total] at htotal
    omega
  case trades =>
    rw [Stats.total] at htotal
    omega
  case total => omega
  case volume => omega
  case span => exact ⟨_, Stats.span_addAll htimes⟩

namespace Emitter.Regular

variable {symbol : String} {start : UInt64} {ticks front : List (Record × Book)}

theorem of_front (h : Regular symbol start ticks) (hfront : front <+: ticks) :
    Regular symbol start front := by
  constructor
  case inStep =>
    exact List.IsChain.prefix h.inStep (List.cons_prefix_cons.mpr ⟨rfl, hfront.map _⟩)
  case fits =>
    intro tick hmem
    exact h.fits tick (hfront.subset hmem)

/-- No trade is larger than the largest size. -/
theorem traded_le (h : Regular symbol start ticks) {tick : Record × Book} (hmem : tick ∈ ticks) :
    tick.1.traded ≤ Generator.maxTradeSize := by
  obtain ⟨-, htrade⟩ := h.fits tick hmem
  cases hrecord : tick.1 with
  | quote q => exact Nat.zero_le _
  | trade t => exact (htrade t hrecord).2

/-- The timestamps do not go back. -/
theorem timestamps (h : Regular symbol start ticks) :
    List.IsChain (· ≤ ·) (ticks.map fun tick => tick.1.timestamp) :=
  h.inStep.tail.imp fun _ _ hstep =>
    UInt64.le_iff_toNat_le.mpr (Nat.le_trans (Nat.le_add_right _ _) hstep.1)

/-- The statistics of regular ticks fit if the clock has room for their number. -/
theorem stats_fit (h : Regular symbol start ticks)
    (hroom : ticks.length * Generator.maxTimeStep < UInt64.size) :
    (Stats.empty.addAll ticks).Fits := by
  have htraded : (ticks.map fun tick => tick.1.traded).sum ≤
      ticks.length * Generator.maxTradeSize := by
    have hle := List.sum_le_card_nsmul (ticks.map fun tick => tick.1.traded)
      Generator.maxTradeSize (by
        intro size hmem
        obtain ⟨tick, htick, rfl⟩ := List.mem_map.mp hmem
        exact h.traded_le htick)
    rwa [List.length_map, smul_eq_mul] at hle
  have hlarge : ticks.length * Generator.maxTradeSize ≤ ticks.length * Generator.maxTimeStep :=
    Nat.mul_le_mul_left _ (by decide)
  have hone : ticks.length * 1 ≤ ticks.length * Generator.maxTimeStep :=
    Nat.mul_le_mul_left _ (by decide)
  exact Stats.fits_addAll h.timestamps (by omega) (by omega)

end Emitter.Regular

namespace Settings

variable {σ κ : Type} {settings : Settings} {source : σ} {sink : κ}

/-- The emitter of the tape, with draws from any source. -/
def emitterFrom (settings : Settings) (source : σ) : Emitter σ where
  symbol := settings.symbol
  clock := settings.start
  walk := Walk.start settings.initialMid settings.spread
  source := source

theorem emitter_eq_emitterFrom (settings : Settings) (seed : UInt64) :
    settings.emitter seed = settings.emitterFrom (Generator.ofSeed seed) := rfl

theorem Usable.sound {good : σ → Prop} (h : settings.Usable) (hgood : good source) :
    (settings.emitterFrom source).Sound good :=
  ⟨hgood, Walk.onGrid_start (Binary64.le_iff.mp h.lowest_le).2.1 settings.spread, h.staysOpen⟩

variable [DrawSource σ] [RecordSink κ]

/-- A run from usable settings cannot fail but by its sink. All its records reach
the sink before the only flush, and at no point does a counter overflow. -/
theorem run_ok {good : σ → Prop} {sound : κ → Prop} {ticks : ℕ}
    (hticks : settings.ticks = .ok ticks) (hsteady : Steady good) (hgood : good source)
    (hreliable : Reliable sound) (hsound : sound sink) :
    ∃ made last, (settings.emitterFrom source).Makes made last ∧ made.length = ticks ∧
      ((settings.emitterFrom source).run ticks sink).outcome = .ok (Stats.empty.addAll made) ∧
      (settings.emitterFrom source).calls ticks sink =
        (made.map Prod.fst).map .accepted ++ [.flush (.ok ())] ∧
      Emitter.Regular settings.symbol settings.start made ∧
      ∀ front, front <+: made → (Stats.empty.addAll front).Fits := by
  obtain ⟨husable, rfl⟩ := ticks_eq_ok_iff.mp hticks
  obtain ⟨made, last, hmakes, hlength, hregular⟩ :=
    (husable.sound hgood).exists_makes hsteady settings.tickCount.toInt.toNat husable.clock
  obtain ⟨written, hwrite, hwritten⟩ := hreliable.writeAll hsound (made.map Prod.fst)
  obtain ⟨flushed, hflush, -⟩ := hreliable.flush hwritten
  have hrun := Emitter.run_of_makes hmakes hwrite
  have hlogged := Emitter.run_of_makes hmakes (Logged.writeAll_eq [] hwrite)
  rw [hlength, hflush] at hrun
  rw [hlength, Logged.flush_eq hflush] at hlogged
  refine ⟨made, last, hmakes, hlength, ?_, ?_, hregular, ?_⟩
  · rw [hrun]
  · rw [Emitter.calls, Logged.start, hlogged]
    simp
  · intro front hfront
    apply (hregular.of_front hfront).stats_fit
    have hclock := husable.clock
    have hmul := Nat.mul_le_mul_right Generator.maxTimeStep (hlength ▸ hfront.length_le)
    omega

/-- A script of quotes and trades in turn. -/
def turns : Script where
  timeSteps := .ofList [10000000, 500000000]
  drifts := .ofList [0.01]
  classifiers := .ofList [0, 0.75]
  sides := .ofList [0, 0.5]
  bookSizes := .ofList [1000]
  tradeSizes := .ofList [10]

theorem inRange_turns : turns.InRange := by
  refine ⟨?_, ?_, ?_, ?_, ?_, ?_⟩ <;> apply Cycle.all_ofList (by simp)
  · exact List.forall_mem_cons.mpr ⟨by decide, List.forall_mem_singleton.mpr (by decide)⟩
  · decide +kernel
  · decide +kernel
  · decide +kernel
  · exact List.forall_mem_singleton.mpr (by decide)
  · exact List.forall_mem_singleton.mpr (by decide)

theorem run_ok_standard :
    standard.ticks = .ok 1000 ∧ Steady Script.InRange ∧ turns.InRange ∧
      Reliable (fun _ : MemorySink => True) ∧
      ∃ made last, (standard.emitterFrom turns).Makes made last ∧ made.length = 1000 ∧
        ((standard.emitterFrom turns).run 1000 MemorySink.empty).outcome =
          .ok (Stats.empty.addAll made) ∧
        (standard.emitterFrom turns).calls 1000 MemorySink.empty =
          (made.map Prod.fst).map .accepted ++ [.flush (.ok ())] ∧
        Emitter.Regular standard.symbol standard.start made ∧
        ∀ front, front <+: made → (Stats.empty.addAll front).Fits := by
  have hticks : standard.ticks = .ok 1000 := ticks_eq_ok_iff.mpr ⟨usable_standard, by decide⟩
  exact ⟨hticks, steady_script, inRange_turns, reliable_memorySink,
    run_ok hticks steady_script inRange_turns reliable_memorySink trivial⟩

end Settings

end MarketTape
