import MarketTape.Proofs.Binary64.Nearest
import Mathlib.Order.Monotone.Defs

/-!
# The order of binary64 numbers

Every operation rounds once, and rounding is monotone, so that the operations
are monotone wherever they give a number. Signs are handled in one place: an
operation acts on the counts of units behind the signs, and `signed_le_signed`
carries a monotone function of counts over to both halves of the number line.
-/

namespace MarketTape.Binary64

-- Powers are the core library's, whichever others are in scope.
attribute [local instance (2000)] instPowNat

/-! ## Signed counts -/

theorem signed_natAbs (n : Int) : signed (decide (n < 0)) n.natAbs = n := by
  by_cases h : n < 0
  · simp only [h, decide_true, signed_true]
    omega
  · simp only [h, decide_false, signed_false]
    omega

/-- A monotone function of counts that keeps zero is monotone under signs. -/
theorem signed_le_signed {g : Nat → Nat} (hzero : g 0 = 0) (hmono : Monotone g)
    {s t : Bool} {a b : Nat} (h : signed s a ≤ signed t b) : signed s (g a) ≤ signed t (g b) := by
  cases s <;> cases t <;> simp only [signed_false, signed_true] at h ⊢
  · exact Int.ofNat_le.mpr (hmono (Int.ofNat_le.mp h))
  · obtain ⟨rfl, rfl⟩ : a = 0 ∧ b = 0 := by omega
    simp [hzero]
  · omega
  · exact Int.neg_le_neg (Int.ofNat_le.mpr (hmono (by omega)))

/-! ## Rounded numbers -/

/-- The magnitude nearest to `num / den` least units, where everything past the
finite magnitudes stands at infinity. -/
def nearestUnits (num den : Nat) : Nat := units (min (nearestRank num den) rankCount)

@[simp] theorem nearestUnits_zero {den : Nat} (hd : 0 < den) : nearestUnits 0 den = 0 := by
  have hrank : nearestRank 0 den = 0 := by simpa using nearestRank_units 0 hd
  rw [nearestUnits, hrank, Nat.zero_min, units_zero]

theorem monotone_nearestUnits {den : Nat} (hd : 0 < den) :
    Monotone fun num => nearestUnits num den := by
  intro a b h
  have hrank := nearestRank_le_nearestRank hd hd (Nat.mul_le_mul_right den h)
  exact units_le_units (by omega)

theorem ofQuotient_of_lt {s : Bool} {num den : Nat} (h : nearestRank num den < rankCount) :
    ofQuotient s num den = .finite s ⟨nearestRank num den, h⟩ := by
  unfold ofQuotient
  rw [dif_pos h]

theorem ofQuotient_of_le {s : Bool} {num den : Nat} (h : rankCount ≤ nearestRank num den) :
    ofQuotient s num den = .infinity s := by
  unfold ofQuotient
  rw [dif_neg (Nat.not_lt.mpr h)]

theorem ofQuotient_congr {s : Bool} {num den num' den' : Nat} (hd : 0 < den) (hd' : 0 < den')
    (h : num * den' = num' * den) : ofQuotient s num den = ofQuotient s num' den' := by
  unfold ofQuotient
  rw [nearestRank_congr hd hd' h]

theorem ofQuotient_eq_finite {s : Bool} {num den : Nat} {rank : Fin rankCount}
    (h : nearestRank num den = rank) : ofQuotient s num den = .finite s rank := by
  have hlt : nearestRank num den < rankCount := by
    rw [h]
    exact rank.isLt
  rw [ofQuotient_of_lt hlt]
  exact congrArg (Binary64.finite s) (Fin.ext h)

theorem ofQuotient_units (s : Bool) (rank : Fin rankCount) {den : Nat} (hd : 0 < den) :
    ofQuotient s (units rank * den) den = .finite s rank :=
  ofQuotient_eq_finite (nearestRank_units rank hd)

theorem isNaN_ofQuotient (s : Bool) (num den : Nat) : (ofQuotient s num den).isNaN = false := by
  rcases Nat.lt_or_ge (nearestRank num den) rankCount with h | h
  · rw [ofQuotient_of_lt h]
    rfl
  · rw [ofQuotient_of_le h]
    rfl

theorem place_ofQuotient (s : Bool) (num den : Nat) :
    (ofQuotient s num den).place = signed s (nearestUnits num den) := by
  rcases Nat.lt_or_ge (nearestRank num den) rankCount with h | h
  · rw [ofQuotient_of_lt h, nearestUnits, Nat.min_eq_left (Nat.le_of_lt h)]
    rfl
  · rw [ofQuotient_of_le h, nearestUnits, Nat.min_eq_right h]
    rfl

/-! ## Whole numbers -/

/-- Whole numbers of at most 53 binary digits are exact. -/
theorem exists_whole (s : Bool) {n : Nat} (h : n ≤ 2 * binade) :
    ∃ rank : Fin rankCount, ofQuotient s (n * one) 1 = .finite s rank ∧ units rank = n * one := by
  obtain ⟨rank, hle, hrank⟩ : ∃ rank, rank ≤ 1076 * binade ∧ units rank = n * one := by
    unfold one
    exact exists_units_eq h 1074
  have hb := binade_pos
  have hlt : rank < rankCount := by
    unfold rankCount
    omega
  have hexact := ofQuotient_units s ⟨rank, hlt⟩ Nat.one_pos
  rw [Nat.mul_one, hrank] at hexact
  exact ⟨⟨rank, hlt⟩, hexact, hrank⟩

theorem exists_ofNat {n : Nat} (h : n ≤ 2 * binade) :
    ∃ rank : Fin rankCount, ofNat n = .finite false rank ∧ units rank = n * one :=
  exists_whole false h

theorem zero_eq : (0 : Binary64) = zero false := by
  obtain ⟨rank, heq, hrank⟩ := exists_ofNat (Nat.zero_le (2 * binade))
  rw [Nat.zero_mul, ← units_zero, units_inj] at hrank
  change ofNat 0 = _
  rw [heq]
  exact congrArg (Binary64.finite false) (Fin.ext hrank)

@[simp] theorem place_zero : (0 : Binary64).place = 0 := by
  rw [zero_eq]
  simp [zero, place]

@[simp] theorem isNaN_zero : (0 : Binary64).isNaN = false := by
  rw [zero_eq]
  rfl

/-! ## Comparison -/

theorem le_iff {x y : Binary64} :
    x ≤ y ↔ x.isNaN = false ∧ y.isNaN = false ∧ x.place ≤ y.place := by
  change x.atMost y = true ↔ _
  simp [atMost, and_assoc]

theorem lt_iff {x y : Binary64} :
    x < y ↔ x.isNaN = false ∧ y.isNaN = false ∧ x.place < y.place := by
  change x.below y = true ↔ _
  simp [below, and_assoc]

theorem le_self {x : Binary64} (h : x.isNaN = false) : x ≤ x :=
  le_iff.mpr ⟨h, h, Int.le_refl _⟩

protected theorem le_trans {x y z : Binary64} (h : x ≤ y) (h' : y ≤ z) : x ≤ z := by
  obtain ⟨hx, -, hle⟩ := le_iff.mp h
  obtain ⟨-, hz, hle'⟩ := le_iff.mp h'
  exact le_iff.mpr ⟨hx, hz, Int.le_trans hle hle'⟩

protected theorem lt_of_le_of_lt {x y z : Binary64} (h : x ≤ y) (h' : y < z) : x < z := by
  obtain ⟨hx, -, hle⟩ := le_iff.mp h
  obtain ⟨-, hz, hlt⟩ := lt_iff.mp h'
  exact lt_iff.mpr ⟨hx, hz, Int.lt_of_le_of_lt hle hlt⟩

protected theorem lt_of_lt_of_le {x y z : Binary64} (h : x < y) (h' : y ≤ z) : x < z := by
  obtain ⟨hx, -, hlt⟩ := lt_iff.mp h
  obtain ⟨-, hz, hle⟩ := le_iff.mp h'
  exact lt_iff.mpr ⟨hx, hz, Int.lt_of_lt_of_le hlt hle⟩

theorem not_lt_of_le {x y : Binary64} (h : x ≤ y) : ¬ y < x := by
  rw [lt_iff]
  rintro ⟨-, -, hlt⟩
  exact Int.not_lt.mpr (le_iff.mp h).2.2 hlt

theorem place_le_top {x : Binary64} : x.place ≤ units rankCount := by
  cases x with
  | nan => exact Int.natCast_nonneg _
  | infinity s => cases s <;> simp only [place, signed_false, signed_true] <;> omega
  | finite s rank =>
      have hle : units rank ≤ units rankCount := units_le_units (Nat.le_of_lt rank.isLt)
      cases s <;> simp only [place, signed_false, signed_true] <;> omega

end MarketTape.Binary64
