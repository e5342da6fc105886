import MarketTape.Proofs.Emitter.Pull

/-!
# The statistics of a run

The statistics are added up one record at a time while the run goes on. What they
tell in the end is what would be found by looking at all of its ticks again: how
many records of each kind there are and what they trade, when the first and the
last were made, and between which prices the mid moved. The clock is never set
back, so that the time span can always be told.
-/

namespace MarketTape

open Binary64

/-- Statistics tell of some ticks what is found in the list of them. -/
structure Stats.TellOf (stats : Stats) (ticks : List (Record × Book)) : Prop where
  quotes : stats.quotes = (ticks.map Prod.fst).countP fun record => record.kind = .quote
  trades : stats.trades = (ticks.map Prod.fst).countP fun record => record.kind = .trade
  total : stats.total = ticks.length
  volume : stats.volume = ((ticks.map Prod.fst).map Record.traded).sum
  last : stats.last = (ticks.map Prod.fst).getLast?.map Record.timestamp
  span_none : ticks = [] → stats.span = .ok none
  span : ∀ first last, ticks.head? = some first → ticks.getLast? = some last →
    first.1.timestamp ≤ last.1.timestamp ∧
      stats.span = .ok (some (last.1.timestamp.toNat - first.1.timestamp.toNat))
  midRange_none : stats.midRange = none ↔ ticks = []
  midRange : ∀ low high, stats.midRange = some (low, high) →
    Lowest (ticks.map fun tick => tick.2.mid) low ∧ Highest (ticks.map fun tick => tick.2.mid) high

theorem Stats.tellOf_addAll {ticks : List (Record × Book)}
    (h : List.IsChain (· ≤ ·) (ticks.map fun tick => tick.1.timestamp)) :
    (Stats.empty.addAll ticks).TellOf ticks := by
  have hkind (kind : Kind) := ofKind_addAll .empty ticks kind
  have htotal : (Stats.empty.addAll ticks).total = ticks.length := by simp
  have hvolume := volume_addAll .empty ticks
  constructor
  case quotes => exact (hkind .quote).trans (Nat.zero_add _)
  case trades => exact (hkind .trade).trans (Nat.zero_add _)
  case total => exact htotal
  case volume =>
    rw [List.map_map]
    exact hvolume.trans (Nat.zero_add _)
  case last => simp [empty, Function.comp_def]
  case span_none =>
    rintro rfl
    rfl
  case span =>
    intro first last hfirst hlast
    refine ⟨first_le_last h hfirst hlast, ?_⟩
    rw [span_addAll h, hfirst, hlast]
    rfl
  case midRange_none => simp [Stats.midRange, htotal]
  case midRange =>
    intro low high hrange
    rw [Stats.midRange, lowestMid_addAll, highestMid_addAll] at hrange
    split at hrange
    · cases hrange
    · cases hrange
      exact ⟨lowest_foldl_least _, highest_foldl_greatest _⟩

namespace Emitter

variable {σ : Type} [DrawSource σ] {first last : Emitter σ} {ticks : List (Record × Book)}

/-- The timestamps of ticks do not go back, and the last of them stands on the clock. -/
theorem Makes.timestamps (h : Makes first ticks last) :
    List.IsChain (· ≤ ·) (first.clock :: ticks.map fun tick => tick.1.timestamp) ∧
      last.clock = (ticks.getLast?.map fun tick => tick.1.timestamp).getD first.clock := by
  induction h with
  | nil emitter => exact ⟨.singleton _, rfl⟩
  | @cons first second last record book ticks hnext hrest ih =>
      obtain ⟨hstamp, hle⟩ := (Step.of_next hnext).timestamp_eq
      obtain ⟨hchain, hlast⟩ := ih
      rw [← hstamp] at hle hchain hlast
      refine ⟨.cons_cons hle hchain, ?_⟩
      rw [hlast, List.getLast?_cons]
      cases ticks.getLast? <;> rfl

/-- Whatever is drawn, the statistics of a run tell of its ticks, the very ticks that
the emitter makes anyway and whose records reach the sink. No counter outgrows 64
bits at any point as long as the sizes traded do not. -/
theorem run_stats {count : ℕ} {sink final : MemorySink} {stats : Stats}
    (hcount : count < UInt64.size)
    (hrun : first.run count sink = ⟨.ok stats, last, final⟩)
    (hvolume : ((first.take count).1.map Record.traded).sum < UInt64.size) :
    ∃ ticks : List (Record × Book),
      first.nexts count = (ticks.map Emission.ofTick, last) ∧ ticks.length = count ∧
        final.records = sink.records ++ ticks.map Prod.fst ∧ stats.TellOf ticks ∧
        (0 < count → stats.last = some last.clock) ∧
        ∀ front, front <+: ticks → (Stats.empty.addAll front).Fits := by
  obtain ⟨ticks, hmakes, hlength, rfl, rfl⟩ := run_memorySink_eq_ok_iff.mp hrun
  obtain ⟨hchain, hclock⟩ := hmakes.timestamps
  have htell := Stats.tellOf_addAll hchain.tail
  refine ⟨ticks, nexts_eq_iff.mpr ⟨hmakes, hlength⟩, hlength, rfl, htell, ?_, ?_⟩
  · intro hpos
    obtain ⟨tick, hlast⟩ : ∃ tick, ticks.getLast? = some tick := by
      cases hticks : ticks.getLast? with
      | none =>
          rw [List.getLast?_eq_none_iff.mp hticks] at hlength
          exact absurd hlength (Nat.ne_of_lt hpos)
      | some tick => exact ⟨tick, rfl⟩
    rw [htell.last, hclock, List.getLast?_map, hlast]
    rfl
  · intro front hfront
    have htraded : (front.map fun tick => tick.1.traded).sum ≤
        ((first.take count).1.map Record.traded).sum := by
      rw [← hlength, hmakes.take_length, List.map_map]
      exact (hfront.map _).sublist.sum_le_sum (by simp)
    apply Stats.fits_addAll
    · exact List.IsChain.prefix hchain.tail (hfront.map _)
    · exact Nat.lt_of_le_of_lt (hlength ▸ hfront.length_le) hcount
    · exact Nat.lt_of_le_of_lt htraded hvolume

/-- An emitter at the end of its clock whose time stands still, and whose second
drift is no number. -/
def stalled : Emitter Script where
  symbol := standardSymbol
  clock := 18446744073709551615
  walk := Walk.standard
  source :=
    { timeSteps := .ofList [0]
      drifts := .ofList [0.01, .nan]
      classifiers := .ofList [0.75, 0, 0]
      sides := .ofList [0]
      bookSizes := .ofList [1000]
      tradeSizes := .ofList [200] }

theorem run_stats_stalled :
    3 < UInt64.size ∧ ((stalled.take 3).1.map Record.traded).sum < UInt64.size ∧
      ∃ stats last final, stalled.run 3 MemorySink.empty = ⟨.ok stats, last, final⟩ ∧
        ∃ ticks : List (Record × Book),
          stalled.nexts 3 = (ticks.map Emission.ofTick, last) ∧ ticks.length = 3 ∧
            final.records = MemorySink.empty.records ++ ticks.map Prod.fst ∧ stats.TellOf ticks ∧
            (0 < 3 → stats.last = some last.clock) ∧
            ∀ front, front <+: ticks → (Stats.empty.addAll front).Fits := by
  have hvolume : ((stalled.take 3).1.map Record.traded).sum < UInt64.size := by decide +kernel
  have hok : (stalled.run 3 MemorySink.empty).outcome.isOk = true := by decide +kernel
  cases hrun : stalled.run 3 MemorySink.empty with
  | mk outcome last final =>
      rw [hrun] at hok
      cases outcome with
      | error error => cases hok
      | ok stats => exact ⟨by decide, hvolume, stats, last, final, rfl,
          run_stats (by decide) hrun hvolume⟩

end Emitter

end MarketTape
