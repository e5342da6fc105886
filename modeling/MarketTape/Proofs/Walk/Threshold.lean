import MarketTape.Proofs.Walk.Drift
import Mathlib.Data.Nat.Find

/-!
# The least spread that keeps the book open

A wider spread moves neither side of a book towards the other: the half spread, the sums
with the mid and the rounding to cents are all monotone, also where they are rounded or
leave the finite numbers. The spreads that pass `Walk.staysOpen` are therefore all finite
numbers from a least one on, although the check looks at one spread alone.
-/

namespace MarketTape

open Binary64

namespace Walk

variable {walk wider : Walk} {narrow wide : Binary64}

/-! ## Wider books -/

theorem half_le_half (h : narrow ≤ wide) : narrow / 2 ≤ wide / 2 := by
  obtain ⟨rank, htwo, hne⟩ := exists_two
  rw [htwo]
  exact Binary64.div_le_div_right hne h

/-- Around the same mid the sides of a wider book lie outside those of a narrower one. -/
theorem OnGrid.sides_widen (h : walk.OnGrid) (hmid : wider.mid = walk.mid)
    (hle : walk.spread ≤ wider.spread) :
    wider.book.bid ≤ walk.book.bid ∧ walk.book.ask ≤ wider.book.ask := by
  obtain ⟨n, -, hhigh, hcents⟩ := h
  have hhalf := half_le_half hle
  change Price.toCent (wider.mid + (wider.spread / 2).negate) ≤
      Price.toCent (walk.mid + (walk.spread / 2).negate) ∧
    Price.toCent (walk.mid + walk.spread / 2) ≤ Price.toCent (wider.mid + wider.spread / 2)
  rw [hmid, hcents]
  constructor
  · exact toCent_add_le_toCent_add hhigh (negate_le_negate hhalf)
  · exact toCent_add_le_toCent_add hhigh hhalf

/-- A book stays open when it is widened. -/
theorem OnGrid.bid_lt_ask_of_wider (h : walk.OnGrid) (hmid : wider.mid = walk.mid)
    (hle : walk.spread ≤ wider.spread) (hopen : walk.book.bid < walk.book.ask) :
    wider.book.bid < wider.book.ask := by
  obtain ⟨hbid, hask⟩ := h.sides_widen hmid hle
  exact Binary64.lt_of_lt_of_le (Binary64.lt_of_le_of_lt hbid hopen) hask

/-! ## Spreads -/

theorem staysOpen_of_le (hfinite : wide.isFinite = true) (hle : narrow ≤ wide)
    (hopen : staysOpen narrow = true) : staysOpen wide = true := by
  obtain ⟨-, hpositive, hbooks⟩ := staysOpen_iff.mp hopen
  refine staysOpen_iff.mpr ⟨hfinite, Binary64.lt_of_lt_of_le hpositive hle, ?_⟩
  intro n hn
  obtain ⟨rank, hrank⟩ : ∃ rank, Price.ofCents n = .finite false rank := by
    rw [mem_centsOfMids, cents_lowest, cents_highest] at hn
    exact Price.exists_ofCents (le_two_binade (by omega))
  have hgrid : (start (Price.ofCents n) narrow).OnGrid := onGrid_start (by rw [hrank]; rfl) narrow
  exact hgrid.bid_lt_ask_of_wider rfl hle (hbooks n hn)

/-- A spread that passes the check has no minus sign. -/
theorem exists_finite_of_staysOpen (h : staysOpen wide = true) :
    ∃ rank : Fin rankCount, wide = .finite false rank := by
  obtain ⟨hfinite, hpositive, -⟩ := staysOpen_iff.mp h
  obtain ⟨s, rank, rfl⟩ := exists_finite hfinite
  cases s with
  | false => exact ⟨rank, rfl⟩
  | true =>
      have hplace := (lt_iff.mp hpositive).2.2
      rw [place_zero, place, signed_true] at hplace
      omega

/-- Of all spreads that pass the check one is the least. -/
theorem exists_least_staysOpen :
    ∃ least : Binary64, staysOpen least = true ∧
      ∀ spread : Binary64, staysOpen spread = true → least ≤ spread := by
  classical
  have hsome : ∃ rank, ∃ h : rank < rankCount, staysOpen (.finite false ⟨rank, h⟩) = true := by
    have hcents := staysOpen_ofCents (k := 1) Nat.one_pos (by decide)
    obtain ⟨rank, hrank⟩ := exists_finite_of_staysOpen hcents
    exact ⟨rank, rank.isLt, hrank ▸ hcents⟩
  obtain ⟨hlt, hopen⟩ := Nat.find_spec hsome
  refine ⟨.finite false ⟨Nat.find hsome, hlt⟩, hopen, ?_⟩
  intro spread hspread
  obtain ⟨rank, rfl⟩ := exists_finite_of_staysOpen hspread
  have hle : Nat.find hsome ≤ rank := Nat.find_min' hsome ⟨rank.isLt, hspread⟩
  exact le_iff.mpr ⟨rfl, rfl, Int.ofNat_le.mpr (units_le_units hle)⟩

/-- Of two finite spreads the wider one passes the check if the narrower one does. So there is
one positive threshold: the spreads below it are refused, and every finite one from there on
passes. -/
theorem staysOpen_from_threshold :
    (∀ narrow wide : Binary64, narrow.isFinite = true → wide.isFinite = true → narrow ≤ wide →
      staysOpen narrow = true → staysOpen wide = true) ∧
    ∃ threshold : Binary64, threshold.isFinite = true ∧ 0 < threshold ∧
      ∀ spread : Binary64, spread.isFinite = true →
        (staysOpen spread = true ↔ threshold ≤ spread) := by
  constructor
  · intro narrow wide _ hfinite hle hopen
    exact staysOpen_of_le hfinite hle hopen
  · obtain ⟨least, hopen, hleast⟩ := exists_least_staysOpen
    obtain ⟨hfinite, hpositive, -⟩ := staysOpen_iff.mp hopen
    refine ⟨least, hfinite, hpositive, ?_⟩
    intro spread hspread
    exact ⟨hleast spread, fun hle => staysOpen_of_le hspread hle hopen⟩

/-- Two cents pass, and so does what is no whole number of cents and only just finite. -/
theorem staysOpen_from_threshold_cents :
    (Price.ofCents (2 * 1 : Nat)).isFinite = true ∧ (1.7e308 : Binary64).isFinite = true ∧
      Price.ofCents (2 * 1 : Nat) ≤ 1.7e308 ∧ staysOpen (Price.ofCents (2 * 1 : Nat)) = true ∧
      staysOpen 1.7e308 = true ∧
      ∃ threshold : Binary64, 0 < threshold ∧ threshold ≤ Price.ofCents (2 * 1 : Nat) ∧
        threshold ≤ 1.7e308 := by
  have hnarrow : (Price.ofCents (2 * 1 : Nat)).isFinite = true := by decide +kernel
  have hwide : (1.7e308 : Binary64).isFinite = true := by decide +kernel
  have hle : Price.ofCents (2 * 1 : Nat) ≤ 1.7e308 := by decide +kernel
  have hopen := staysOpen_ofCents (k := 1) Nat.one_pos (by decide)
  obtain ⟨hupward, threshold, -, hpositive, hiff⟩ := staysOpen_from_threshold
  have hopen' := hupward _ _ hnarrow hwide hle hopen
  exact ⟨hnarrow, hwide, hle, hopen, hopen', threshold, hpositive, (hiff _ hnarrow).mp hopen,
    (hiff _ hwide).mp hopen'⟩

end Walk

end MarketTape
