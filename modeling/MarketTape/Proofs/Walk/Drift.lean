import MarketTape.Proofs.Draw.Steady
import MarketTape.Proofs.Walk.Spread

/-!
# Walks by cents

A walk never leaves the grid of cents, and a drift in range moves its mid by one cent
at most: the largest drift is one cent, and neither the bounds nor the rounding carry
a mid past the price that it would have reached by the largest drift. Around every mid
of the walk the book has its bid and its ask on the proper sides.
-/

namespace MarketTape

open Binary64

-- Powers are the core library's, whichever others are in scope.
attribute [local instance (2000)] instPowNat

attribute [local irreducible] one units

namespace Walk

variable {walk : Walk} {drift : Binary64} {m n : Nat}

/-- The mid is a given number of cents, which lies within the bounds. -/
def AtCent (walk : Walk) (n : Nat) : Prop :=
  9000 ≤ n ∧ n ≤ 11000 ∧ walk.mid = Price.ofCents n

/-! ## One step -/

theorem maxDrift_eq : maxDrift = Price.ofCents (1 : Nat) := by decide +kernel

/-- A held mid does not pass a price within the bounds that the mid itself does not
pass. -/
theorem hold_le {mid bound : Binary64} (h : Price.toCent mid ≤ bound) (hlow : lowest ≤ bound) :
    hold mid ≤ bound := by
  rw [hold, clamp]
  split
  · rwa [lowest_eq, Price.toCent_ofCents (by omega), ← lowest_eq]
  · split
    · rename_i habove
      obtain ⟨hhigh, hmid, hlt⟩ := lt_iff.mp habove
      have hle : highest ≤ mid := le_iff.mpr ⟨hhigh, hmid, Int.le_of_lt hlt⟩
      exact Binary64.le_trans (Price.toCent_le_toCent hle) h
    · exact h

theorem le_hold {mid bound : Binary64} (h : bound ≤ Price.toCent mid) (hhigh : bound ≤ highest) :
    bound ≤ hold mid := by
  rw [hold, clamp]
  split
  · rename_i hbelow
    obtain ⟨hmid, hlow, hlt⟩ := lt_iff.mp hbelow
    have hle : mid ≤ lowest := le_iff.mpr ⟨hmid, hlow, Int.le_of_lt hlt⟩
    exact Binary64.le_trans h (Price.toCent_le_toCent hle)
  · split
    · rwa [highest_eq, Price.toCent_ofCents (by omega), ← highest_eq]
    · exact h

theorem le_of_ofCents_le (h : Price.ofCents m ≤ Price.ofCents n) (hm : m ≤ 2 ^ (51 : Nat))
    (hn : n ≤ 2 ^ (51 : Nat)) : m ≤ n := by
  apply Nat.le_of_not_lt
  intro hlt
  exact not_lt_of_le h (Price.ofCents_lt_ofCents (Int.ofNat_lt.mpr hlt) (by omega) (by omega))

theorem toCent_add_le_toCent_add {x y : Binary64} (hn : n ≤ 11000) (h : x ≤ y) :
    Price.toCent (Price.ofCents n + x) ≤ Price.toCent (Price.ofCents n + y) := by
  obtain ⟨rank, hrank⟩ := Price.exists_ofCents (le_two_binade hn)
  obtain ⟨hx, hy, -⟩ := le_iff.mp h
  rw [hrank]
  apply Price.toCent_le_toCent
  apply Binary64.add_le_add (le_self rfl) h
  · rw [isNaN_finite_add, hx]
  · rw [isNaN_finite_add, hy]

/-- The largest drift upwards is one cent, and no smaller one takes a held mid further. -/
theorem mid_step_le (hmid : walk.mid = Price.ofCents n) (hlow : 9000 ≤ n) (hhigh : n ≤ 11000)
    (hdrift : drift ≤ maxDrift) : (walk.step drift).mid ≤ Price.ofCents (n + 1 : Nat) := by
  have hcents := toCent_add_le_toCent_add hhigh hdrift
  rw [maxDrift_eq, Price.toCent_add (by omega) (by omega) (by omega)] at hcents
  change hold (walk.mid + drift) ≤ _
  rw [hmid]
  apply hold_le hcents
  rw [lowest_eq]
  exact Price.ofCents_le_ofCents (by omega) (Nat.le_trans (Nat.succ_le_succ hhigh) (by decide))

theorem le_mid_step (hmid : walk.mid = Price.ofCents n) (hlow : 9000 ≤ n) (hhigh : n ≤ 11000)
    (hdrift : -maxDrift ≤ drift) : Price.ofCents (n - 1 : Nat) ≤ (walk.step drift).mid := by
  have hcents := toCent_add_le_toCent_add hhigh hdrift
  have hless : Price.ofCents n + -maxDrift = Price.ofCents n - Price.ofCents (1 : Nat) := by
    rw [maxDrift_eq]
    rfl
  rw [hless, Price.toCent_sub (by omega) (by omega),
    show (n - (1 : Nat) : Int) = (n - 1 : Nat) by omega] at hcents
  change _ ≤ hold (walk.mid + drift)
  rw [hmid]
  apply le_hold hcents
  rw [highest_eq]
  exact Price.ofCents_le_ofCents (by omega) (le_two_binade (Nat.le_refl _))

/-- A drift in range moves the mid by one cent at most. -/
theorem AtCent.step_within_cent (h : walk.AtCent n) (hdrift : DriftInRange drift) :
    ∃ n', (walk.step drift).AtCent n' ∧ n' ≤ n + 1 ∧ n ≤ n' + 1 := by
  obtain ⟨hleast, hmost⟩ := hdrift
  have hnumber := (le_iff.mp hleast).2.1
  obtain ⟨n', hlow', hhigh', hmid'⟩ := OnGrid.step ⟨n, h⟩ hnumber
  obtain ⟨hlow, hhigh, hmid⟩ := h
  have hup := mid_step_le hmid hlow hhigh hmost
  have hdown := le_mid_step hmid hlow hhigh hleast
  rw [hmid'] at hup hdown
  have hmore := le_of_ofCents_le hup (by omega) (by omega)
  have hless := le_of_ofCents_le hdown (by omega) (by omega)
  exact ⟨n', ⟨hlow', hhigh', hmid'⟩, hmore, by omega⟩

/-! ## The sides of the book -/

theorem half_nonneg {spread : Binary64} (h : 0 ≤ spread) : 0 ≤ spread / 2 := by
  obtain ⟨rank, htwo, hne⟩ := exists_two
  have hzero : (0 / 2 : Binary64) = 0 := by decide +kernel
  rw [← hzero, htwo]
  exact Binary64.div_le_div_right hne h

/-- The bid does not lie above the mid nor the ask below it. -/
theorem OnGrid.mid_between (h : walk.OnGrid) (hspread : 0 ≤ walk.spread) :
    walk.book.bid ≤ walk.mid ∧ walk.mid ≤ walk.book.ask := by
  obtain ⟨n, -, hhigh, hmid⟩ := h
  obtain ⟨rank, hrank⟩ := Price.exists_ofCents (le_two_binade hhigh)
  have hhalf := half_nonneg hspread
  have hsettled : Price.toCent (.finite false rank) = .finite false rank := by
    rw [← hrank, Price.toCent_ofCents (by omega)]
  change Price.toCent (walk.mid - walk.spread / 2) ≤ walk.mid ∧
    walk.mid ≤ Price.toCent (walk.mid + walk.spread / 2)
  rw [hmid, hrank]
  constructor
  · have hle := Price.toCent_le_toCent (finite_add_le false rank (negate_nonpos hhalf))
    rwa [hsettled] at hle
  · have hle := Price.toCent_le_toCent (finite_le_add false rank hhalf)
    rwa [hsettled] at hle

/-! ## Whole walks -/

/-- Wherever a walk starts and however it drifts, its mid is a number of cents within
the bounds and its spread is the one it started with. A further drift in range changes
the mid by one cent at most, and all books have their sides around the mid unless the
spread is negative. -/
theorem walks_by_cents {mid spread : Binary64} {drifts : List Binary64}
    (hmid : mid.isNaN = false) (hdrifts : ∀ drift ∈ drifts, drift.isNaN = false) :
    ∃ n, ((start mid spread).follow drifts).AtCent n ∧
      ((start mid spread).follow drifts).spread = spread ∧
      (∀ drift, DriftInRange drift →
        ∃ n', (((start mid spread).follow drifts).step drift).AtCent n' ∧ n' ≤ n + 1 ∧ n ≤ n' + 1) ∧
      (0 ≤ spread → ∀ book ∈ (start mid spread).books drifts,
        book.bid ≤ book.mid ∧ book.mid ≤ book.ask) := by
  have hstart := onGrid_start hmid spread
  obtain ⟨n, hcent⟩ : ∃ n, AtCent _ n := hstart.follow hdrifts
  refine ⟨n, hcent, spread_follow _ _, fun drift => hcent.step_within_cent, ?_⟩
  intro hspread book hbook
  obtain ⟨front, hfront, rfl⟩ := exists_follow_of_mem_books hbook
  have hgrid : ((start mid spread).follow front).OnGrid :=
    hstart.follow fun drift hmem => hdrifts drift (hfront.subset hmem)
  apply hgrid.mid_between
  rwa [spread_follow]

theorem walks_by_cents_plunge :
    (250 : Binary64).isNaN = false ∧
      (∀ drift ∈ [.infinity true, (0.01 : Binary64)], drift.isNaN = false) ∧
      ∃ n, ((start 250 0.02).follow [.infinity true, 0.01]).AtCent n ∧
        ((start 250 0.02).follow [.infinity true, 0.01]).spread = 0.02 ∧
        (∀ drift, DriftInRange drift →
          ∃ n', (((start 250 0.02).follow [.infinity true, 0.01]).step drift).AtCent n' ∧
            n' ≤ n + 1 ∧ n ≤ n' + 1) ∧
        ∀ book ∈ (start 250 0.02).books [.infinity true, 0.01],
          book.bid ≤ book.mid ∧ book.mid ≤ book.ask := by
  have hmid : (250 : Binary64).isNaN = false := by decide +kernel
  have hdrifts : ∀ drift ∈ [.infinity true, (0.01 : Binary64)], drift.isNaN = false := by
    decide +kernel
  have hspread : (0 : Binary64) ≤ 0.02 := by decide +kernel
  obtain ⟨n, hcent, hkept, hstep, hsides⟩ := @walks_by_cents 250 0.02 _ hmid hdrifts
  exact ⟨hmid, hdrifts, n, hcent, hkept, hstep, hsides hspread⟩

end Walk

end MarketTape
