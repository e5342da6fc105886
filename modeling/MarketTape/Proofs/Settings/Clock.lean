import MarketTape.Proofs.Emitter.Clock
import Mathlib.Algebra.Order.BigOperators.Group.Finset

/-!
# The check of the clock

Settings are refused for the clock if the longest time steps would not fit. The check is
exact: whatever it refuses runs out of time with some steps in range, and whatever it
accepts never does, down to a tape that ends with the last nanosecond of the clock.
-/

namespace MarketTape.Settings

/-- Settings that obey every rule but perhaps that of the clock. -/
structure UsableButForClock (settings : Settings) : Prop where
  tickCount : 0 < settings.tickCount
  symbol : Text.isAllBlank settings.symbol = false
  fileName : Text.isAllBlank settings.fileName = false
  staysOpen : Walk.staysOpen settings.spread = true
  lowest_le : Walk.lowest ≤ settings.initialMid
  le_highest : settings.initialMid ≤ Walk.highest

/-- How many ticks are asked for. -/
def asked (settings : Settings) : ℕ := settings.tickCount.toInt.toNat

variable {settings : Settings}

theorem Usable.butForClock (h : settings.Usable) : settings.UsableButForClock :=
  ⟨h.tickCount, h.symbol, h.fileName, h.staysOpen, h.lowest_le, h.le_highest⟩

/-- The clock decides the check of settings that obey all other rules. -/
theorem UsableButForClock.check_eq (h : settings.UsableButForClock) :
    settings.check = if settings.clockSuffices then .ok ()
      else .error (.clock settings.start settings.tickCount) := by
  rw [check, if_neg (Int64.not_le.mpr h.tickCount), h.symbol, h.fileName, h.staysOpen]
  cases settings.clockSuffices <;> simp [h.lowest_le, h.le_highest]

theorem UsableButForClock.check_eq_ok_iff (h : settings.UsableButForClock) :
    settings.check = .ok () ↔ settings.clockSuffices = true := by
  rw [h.check_eq]
  cases settings.clockSuffices <;> simp

theorem UsableButForClock.check_eq_error_iff (h : settings.UsableButForClock) :
    settings.check = .error (.clock settings.start settings.tickCount) ↔
      ¬ settings.clockSuffices = true := by
  rw [h.check_eq]
  cases settings.clockSuffices <;> simp

/-! ## The longest time -/

/-- The longest time step, tick for tick. -/
def slowest : ℕ → UInt64 := fun _ => 500000000

theorem slowest_inRange (n : ℕ) : TimeStepInRange (slowest n) := by
  rw [slowest]
  decide

theorem span_slowest (count : ℕ) : Paced.span slowest count = count * Generator.maxTimeStep := by
  have hlongest : (500000000 : UInt64).toNat = Generator.maxTimeStep := by decide
  simp only [Paced.span, slowest, Finset.sum_const, Finset.card_range, smul_eq_mul, hlongest]

theorem span_le {steps : ℕ → UInt64} (h : ∀ n, TimeStepInRange (steps n)) (count : ℕ) :
    Paced.span steps count ≤ count * Generator.maxTimeStep := by
  have hle := Finset.sum_le_card_nsmul (Finset.range count) (fun n => (steps n).toNat)
    Generator.maxTimeStep fun n _ => (h n).2
  rwa [Finset.card_range, smul_eq_mul] at hle

/-! ## Tapes that run out of time -/

variable {σ κ : Type} {good : σ → Prop} {source : σ}
variable {sound : κ → Prop} {sink : κ}

/-- The emitter of the tape with time steps that are laid down beforehand. -/
def pacedEmitter (settings : Settings) (steps : ℕ → UInt64) (source : σ) : Emitter (Paced σ) :=
  settings.emitterFrom ⟨steps, source⟩

theorem UsableButForClock.walking (h : settings.UsableButForClock) (hgood : good source)
    (steps : ℕ → UInt64) :
    (settings.pacedEmitter steps source).Walking fun paced => good paced.source :=
  ⟨hgood, Walk.onGrid_start (Binary64.le_iff.mp h.lowest_le).2.1 settings.spread⟩

variable [DrawSource σ] [RecordSink κ]

theorem UsableButForClock.runsOut_iff (h : settings.UsableButForClock) (hnumeric : Numeric good)
    (hgood : good source) (steps : ℕ → UInt64) (count : ℕ) :
    (settings.pacedEmitter steps source).RunsOut count ↔
      UInt64.size ≤ settings.start.toNat + Paced.span steps count :=
  (h.walking hgood steps).runsOut_iff hnumeric h.staysOpen

/-- Settings whose clock does not suffice run out of time by the slowest steps, and all
others by no steps in range. -/
theorem UsableButForClock.clockSuffices_iff (h : settings.UsableButForClock)
    (hnumeric : Numeric good) (hgood : good source) :
    settings.clockSuffices = true ↔
      ∀ steps : ℕ → UInt64, (∀ n, TimeStepInRange (steps n)) →
        ¬ (settings.pacedEmitter steps source).RunsOut settings.asked := by
  rw [clockSuffices, decide_eq_true_iff]
  constructor
  · intro hroom steps hsteps
    rw [h.runsOut_iff hnumeric hgood, Nat.not_le]
    exact Nat.lt_of_le_of_lt (Nat.add_le_add_left (span_le hsteps _) _) hroom
  · intro hnever
    have hslowest := hnever slowest slowest_inRange
    rwa [h.runsOut_iff hnumeric hgood, Nat.not_le, span_slowest] at hslowest

/-- If the clock does not run out, a run into a sink that takes everything ends well and
leaves the clock at the sum of the steps. -/
theorem UsableButForClock.run_paced (h : settings.UsableButForClock) (hnumeric : Numeric good)
    (hgood : good source) (hreliable : Reliable sound) (hsound : sound sink)
    {steps : ℕ → UInt64} {count : ℕ}
    (hlasts : ¬ (settings.pacedEmitter steps source).RunsOut count) :
    (∃ stats, ((settings.pacedEmitter steps source).run count sink).outcome = .ok stats) ∧
      ((settings.pacedEmitter steps source).run count sink).emitter.clock.toNat =
        settings.start.toNat + Paced.span steps count := by
  have hruns := (h.walking hgood steps).makes_or_runsOut (Paced.numeric hnumeric) h.staysOpen count
  obtain ⟨made, last, hmakes, rfl⟩ := hruns.resolve_right hlasts
  obtain ⟨written, hwrite, hwritten⟩ := hreliable.writeAll hsound (made.map Prod.fst)
  obtain ⟨flushed, hflush, -⟩ := hreliable.flush hwritten
  have hrun := Emitter.run_of_makes hmakes hwrite
  rw [hflush] at hrun
  rw [hrun]
  exact ⟨⟨_, rfl⟩, hmakes.clock_eq⟩

/-- Settings that obey all other rules are refused for the clock exactly if some time
steps in range bring the clock to its end before all ticks are made, and accepted exactly
if none make a run tell so. An accepted run leaves the clock at the sum of its steps,
which may be the last nanosecond. -/
theorem clock_check_exact (hrules : settings.UsableButForClock) (hnumeric : Numeric good)
    (hgood : good source) (hreliable : Reliable sound) (sink : κ) (hsound : sound sink) :
    (settings.check = .error (.clock settings.start settings.tickCount) ↔
      ∃ steps : ℕ → UInt64, (∀ n, TimeStepInRange (steps n)) ∧
        .exhausted ∈ ((settings.pacedEmitter steps source).nexts settings.asked).1) ∧
      (settings.check = .ok () ↔
        ∀ steps : ℕ → UInt64, (∀ n, TimeStepInRange (steps n)) → ∀ emitted,
          ((settings.pacedEmitter steps source).run settings.asked sink).outcome ≠
            .error (.clockExhausted emitted)) ∧
      (settings.check = .ok () →
        ∀ steps : ℕ → UInt64, (∀ n, TimeStepInRange (steps n)) →
          (∃ stats, ((settings.pacedEmitter steps source).run settings.asked sink).outcome =
            .ok stats) ∧
          ((settings.pacedEmitter steps source).run settings.asked sink).emitter.clock.toNat =
            settings.start.toNat + Paced.span steps settings.asked) := by
  refine ⟨?_, ?_, ?_⟩
  · rw [hrules.check_eq_error_iff, hrules.clockSuffices_iff hnumeric hgood]
    simp only [Emitter.exhausted_mem_nexts_iff, not_forall, not_not, exists_prop]
  · rw [hrules.check_eq_ok_iff, hrules.clockSuffices_iff hnumeric hgood]
    apply forall₂_congr
    intro steps hsteps
    rw [← Emitter.run_clockExhausted_iff hreliable hsound, not_exists]
  · intro hcheck steps hsteps
    have hroom := hrules.check_eq_ok_iff.mp hcheck
    have hlasts := (hrules.clockSuffices_iff hnumeric hgood).mp hroom steps hsteps
    exact hrules.run_paced hnumeric hgood hreliable hsound hlasts

/-- The standard settings from a given time on. -/
def standardFrom (start : UInt64) : Settings := { standard with start }

theorem standardFrom_usableButForClock (start : UInt64) :
    (standardFrom start).UsableButForClock :=
  { usable_standard.butForClock with }

/-- The slowest ticks bring one clock to its very last nanosecond, and another one, which
is a nanosecond ahead, past it. -/
theorem clock_check_exact_last_moment :
    (standardFrom 18446743573709551615).UsableButForClock ∧
      (standardFrom 18446743573709551615).check = .ok () ∧
      (((standardFrom 18446743573709551615).pacedEmitter slowest turns).run 1000
        MemorySink.empty).emitter.clock.toNat = 18446744073709551615 ∧
      (standardFrom 18446743573709551616).UsableButForClock ∧
      ∃ steps : ℕ → UInt64, (∀ n, TimeStepInRange (steps n)) ∧
        .exhausted ∈
          (((standardFrom 18446743573709551616).pacedEmitter steps turns).nexts 1000).1 := by
  have hrules := standardFrom_usableButForClock
  have hcheck := (hrules 18446743573709551615).check_eq_ok_iff.mpr (by decide)
  have hrefused := (hrules 18446743573709551616).check_eq_error_iff.mpr (by decide)
  obtain ⟨-, -, hlands⟩ := clock_check_exact (hrules 18446743573709551615) steady_script.numeric
    inRange_turns reliable_memorySink MemorySink.empty trivial
  obtain ⟨hpast, -⟩ := clock_check_exact (hrules 18446743573709551616) steady_script.numeric
    inRange_turns reliable_memorySink MemorySink.empty trivial
  obtain ⟨-, hclock⟩ := hlands hcheck slowest slowest_inRange
  refine ⟨hrules _, hcheck, ?_, hrules _, hpast.mp hrefused⟩
  rw [span_slowest] at hclock
  exact hclock

end MarketTape.Settings
