import MarketTape.Proofs.Draw.Generator
import MarketTape.Proofs.Emitter.Books

/-!
# Prices from usable settings

The check of settings looks at the order of bid and ask, not at their size. A spread so
large that half of it cannot be counted in cents passes, since an infinite ask stands
above an infinite bid. For all other spreads the prices lie where the bounds of the walk
put them, up to half a cent and what a price of their size can be off by.
-/

namespace MarketTape.Settings

open Binary64 Walk

variable {σ : Type} {good : σ → Prop} {source : σ} {settings : Settings}

theorem Usable.walking (h : settings.Usable) (hgood : good source) :
    (settings.emitterFrom source).Walking good :=
  ⟨hgood, (h.sound hgood).onGrid⟩

theorem Usable.spread (h : settings.Usable) :
    settings.spread.isFinite = true ∧ 0 < settings.spread := by
  obtain ⟨hfinite, hpositive, -⟩ := Walk.staysOpen_iff.mp h.staysOpen
  exact ⟨hfinite, hpositive⟩

variable [DrawSource σ] {count : ℕ} {record : Record} {book : Book}

/-- A price that is emitted for usable settings is finite exactly if half of the spread
can be counted in cents, and then lies within the bounds of the mid and half a spread up
to the rounding. -/
theorem Usable.price_of_mem (h : settings.Usable) (hnumeric : Numeric good) (hgood : good source)
    (hmem : .tick record book ∈ ((settings.emitterFrom source).nexts count).1) :
    ∀ price ∈ record.prices,
      (price.isFinite = true ↔ Quotable settings.spread) ∧
      (price.isFinite = true →
        90 - settings.spread.toRat / 2 - slack settings.spread.toRat ≤ price.toRat ∧
          price.toRat ≤ 110 + settings.spread.toRat / 2 + slack settings.spread.toRat) := by
  obtain ⟨hspread, hpos⟩ := h.spread
  have hbook : Emitter.BookAt settings.spread book :=
    (h.walking hgood).bookAt_of_mem hnumeric hmem rfl
  intro price hprice
  obtain ⟨side, rfl⟩ := Emitter.side_of_mem_prices hmem price hprice
  exact hbook.price_between hspread hpos side

/-- All prices that are emitted for usable settings are finite, or none is. Finite ones
lie within the bounds of the mid and half a spread up to the rounding; for spreads up to
`10 ^ 9` they are finite, and half a cent and a trace cover the rounding. -/
theorem prices_within (hcheck : settings.check = .ok ()) (hnumeric : Numeric good)
    (hgood : good source)
    (hmem : .tick record book ∈ ((settings.emitterFrom source).nexts count).1) :
    ∀ price ∈ record.prices,
      (price.isFinite = true ↔ Quotable settings.spread) ∧
      (price.isFinite = true →
        90 - settings.spread.toRat / 2 - slack settings.spread.toRat ≤ price.toRat ∧
          price.toRat ≤ 110 + settings.spread.toRat / 2 + slack settings.spread.toRat) ∧
      (settings.spread.toRat ≤ 10 ^ 9 → price.isFinite = true ∧
        90 - settings.spread.toRat / 2 - (1 / 200 + 1 / 10 ^ 6) ≤ price.toRat ∧
          price.toRat ≤ 110 + settings.spread.toRat / 2 + (1 / 200 + 1 / 10 ^ 6)) := by
  have husable := check_eq_ok_iff.mp hcheck
  obtain ⟨hspread, hpos⟩ := husable.spread
  intro price hprice
  obtain ⟨hfinite, hbetween⟩ := husable.price_of_mem hnumeric hgood hmem price hprice
  refine ⟨hfinite, hbetween, ?_⟩
  intro hmoderate
  have hpositive := (pos_iff_toRat_pos hspread).mp hpos
  have hroom := quotable_of_le hspread (by rw [abs_of_pos hpositive]; linarith)
  obtain ⟨hlow, hhigh⟩ := hbetween (hfinite.mpr hroom)
  have hslack := slack_le hmoderate
  exact ⟨hfinite.mpr hroom, by linarith, by linarith⟩

/-- The first record of an emitter of usable settings. -/
theorem Usable.exists_first (h : settings.Usable) (seed : UInt64) :
    ∃ record book, .tick record book ∈ ((settings.emitter seed).nexts 1).1 := by
  have hpos := Int64.lt_iff_toInt_lt.mp h.tickCount
  have hclock := h.clock
  have hroom : settings.start.toNat + Generator.maxTimeStep < UInt64.size := by
    have hone : 1 ≤ settings.tickCount.toInt.toNat := by
      rw [Int64.toInt_zero] at hpos
      omega
    have hmul := Nat.mul_le_mul_right Generator.maxTimeStep hone
    omega
  have hsound : (settings.emitter seed).Sound fun _ => True := h.sound trivial
  obtain ⟨record, book, after, hnext, -⟩ := hsound.exists_next Generator.steady hroom
  refine ⟨record, book, ?_⟩
  rw [Emitter.nexts, hnext]
  exact List.mem_singleton_self _

theorem prices_within_standard :
    standard.check = .ok () ∧ Numeric (fun _ : Generator Keystream => True) ∧
      ∃ record book, .tick record book ∈ ((standard.emitter 8).nexts 1).1 ∧
        ∀ price ∈ record.prices, price.isFinite = true ∧
          90 - standard.spread.toRat / 2 - (1 / 200 + 1 / 10 ^ 6) ≤ price.toRat ∧
            price.toRat ≤ 110 + standard.spread.toRat / 2 + (1 / 200 + 1 / 10 ^ 6) := by
  have hcheck := check_eq_ok_iff.mpr usable_standard
  have hnumeric := (Generator.steady (ω := Keystream)).numeric
  obtain ⟨record, book, hmem⟩ := usable_standard.exists_first 8
  refine ⟨hcheck, hnumeric, record, book, hmem, ?_⟩
  intro price hprice
  obtain ⟨-, -, hmoderate⟩ := prices_within hcheck hnumeric trivial hmem price hprice
  exact hmoderate (by decide +kernel)

/-- The standard settings with the widest spread of a single digit. -/
def vast : Settings := { standard with tickCount := 1, seed := some 1, spread := 1e308 }

/-- The widest spreads pass the check, and no price that is emitted for them is finite. -/
theorem vast_prices_infinite :
    vast.check = .ok () ∧
      ∃ record book, .tick record book ∈ ((vast.emitter 1).nexts 1).1 ∧ record.prices ≠ [] ∧
        ∀ price ∈ record.prices, price.isFinite = false := by
  have hfinite : vast.spread.isFinite = true := by decide +kernel
  have hroom : ¬ Quotable vast.spread := by
    have hproduct : (vast.spread / 2 * 100).isFinite = false := by decide +kernel
    rw [Quotable, hproduct]
    exact Bool.false_ne_true
  have hopen := staysOpen_of_not_quotable hfinite (by decide +kernel) hroom
  have husable : vast.Usable :=
    ⟨by decide, by decide, by decide, hopen, by decide, by decide +kernel, by decide +kernel⟩
  obtain ⟨record, book, hmem⟩ := husable.exists_first 1
  refine ⟨check_eq_ok_iff.mpr husable, record, book, hmem, ?_, ?_⟩
  · cases record <;> exact List.cons_ne_nil _ _
  · intro price hprice
    obtain ⟨hinfinite, -⟩ :=
      husable.price_of_mem Generator.steady.numeric trivial hmem price hprice
    exact Bool.eq_false_iff.mpr (mt hinfinite.mp hroom)

end MarketTape.Settings
