import MarketTape.Price
import MarketTape.Proofs.Binary64.Arithmetic

/-!
# Prices on the grid of cents

A price that was rounded to cents is the number nearest to a whole number of
hundredths, `ofQuotient s (n * one) 100`. Up to `2 ^ 51` hundredths rounding once
more changes nothing, so that calculations which end on the grid meet there bit
for bit, whichever way they took.
-/

namespace MarketTape.Price

open Binary64

-- Powers are the core library's, whichever others are in scope.
attribute [local instance (2000)] instPowNat

attribute [local irreducible] one units

/-- The whole number nearest to a count of least units, a half going up. -/
def nearestWhole (count : Nat) : Nat := (2 * count + one) / (2 * one)

theorem nearestWhole_eq {count n : Nat} (low : 2 * (n * one) ≤ 2 * count + one)
    (high : 2 * count < 2 * (n * one) + one) : nearestWhole count = n := by
  have hone := one_pos
  apply Nat.div_eq_of_lt_le
  · linarith
  · linarith

theorem nearestWhole_mul_one (n : Nat) : nearestWhole (n * one) = n := by
  have hone := one_pos
  exact nearestWhole_eq (by omega) (by omega)

theorem nearestWhole_le_nearestWhole {a b : Nat} (h : a ≤ b) : nearestWhole a ≤ nearestWhole b :=
  Nat.div_le_div_right (by omega)

/-! ## The steps of rounding to cents -/

theorem exists_hundred : ∃ rank : Fin rankCount,
    (100 : Binary64) = .finite false rank ∧ rank.val ≠ 0 ∧ units rank = 100 * one := by
  obtain ⟨rank, heq, hunits⟩ := exists_ofNat (show 100 ≤ 2 * binade by decide)
  refine ⟨rank, heq, ?_, hunits⟩
  intro hzero
  rw [hzero, units_zero] at hunits
  have hone := one_pos
  omega

theorem finite_mul_hundred (s : Bool) (a : Fin rankCount) :
    .finite s a * 100 = ofQuotient s (units a * 100) 1 := by
  obtain ⟨rank, heq, -, hunits⟩ := exists_hundred
  rw [heq, finite_mul_finite, hunits, Bool.bne_false]
  exact ofQuotient_congr one_pos Nat.one_pos (by ring)

theorem infinity_mul_hundred (s : Bool) : (.infinity s * 100 : Binary64) = .infinity s := by
  obtain ⟨rank, heq, hne, -⟩ := exists_hundred
  rw [heq]
  change (if rank.val = 0 then _ else _) = _
  rw [if_neg hne, Bool.bne_false]

theorem finite_div_hundred (s : Bool) {a : Fin rankCount} {n : Nat} (h : units a = n * one) :
    .finite s a / 100 = ofQuotient s (n * one) 100 := by
  obtain ⟨rank, heq, hne, hunits⟩ := exists_hundred
  have hone := one_pos
  rw [heq, finite_div_finite s false a hne, h, hunits, Bool.bne_false]
  exact ofQuotient_congr (by omega) (by omega) (by ring)

theorem infinity_div_hundred (s : Bool) : (.infinity s / 100 : Binary64) = .infinity s := by
  obtain ⟨rank, heq, -, -⟩ := exists_hundred
  rw [heq]
  change Binary64.infinity (s != false) = _
  rw [Bool.bne_false]

/-- The nearest whole number is a finite number again: where the steps between
magnitudes are wider than one, every number is whole. -/
theorem exists_round_finite (s : Bool) (a : Fin rankCount) :
    ∃ rank : Fin rankCount, (Binary64.finite s a).round = .finite s rank ∧
      units rank = nearestWhole (units a) * one := by
  suffices hrank : ∃ rank : Fin rankCount, units rank = nearestWhole (units a) * one by
    obtain ⟨rank, hunits⟩ := hrank
    refine ⟨rank, ?_, hunits⟩
    have hexact := ofQuotient_units s rank Nat.one_pos
    rw [hunits, Nat.mul_one] at hexact
    exact hexact
  by_cases hwide : 1074 ≤ scale a
  · obtain ⟨n, hn⟩ : one ∣ units a := by
      unfold one
      exact two_pow_dvd_units 1074 hwide
    refine ⟨a, ?_⟩
    rw [hn, Nat.mul_comm one n, nearestWhole_mul_one]
  · have hsmall : units a < 2 * binade * one := by
      unfold one
      exact units_lt 1074 (by omega)
    have hle : nearestWhole (units a) ≤ 2 * binade := by
      rw [← nearestWhole_mul_one (2 * binade)]
      exact nearestWhole_le_nearestWhole (Nat.le_of_lt hsmall)
    obtain ⟨rank, -, hrank⟩ := exists_ofNat hle
    exact ⟨rank, hrank⟩

theorem zero_eq_ofQuotient (s : Bool) : zero s = ofQuotient s (0 * one) 100 := by
  have hexact := ofQuotient_units s ⟨0, by decide⟩ (show 0 < 100 by omega)
  rw [units_zero] at hexact
  rw [Nat.zero_mul, ← Nat.zero_mul 100, hexact, zero]

/-! ## Rounding to cents -/

theorem toCent_infinity (s : Bool) : toCent (.infinity s) = .infinity s := by
  rw [toCent, infinity_mul_hundred, Binary64.round, infinity_div_hundred]
  simp

theorem toCent_finite {s : Bool} {a : Fin rankCount}
    (h : nearestRank (units a * 100) 1 < rankCount) :
    toCent (.finite s a) =
      ofQuotient s (nearestWhole (units (nearestRank (units a * 100) 1)) * one) 100 := by
  obtain ⟨rank, hround, hunits⟩ := exists_round_finite s ⟨_, h⟩
  rw [toCent, finite_mul_hundred, ofQuotient_of_lt h, hround, finite_div_hundred s hunits]

/-- Every number is rounded to the grid of cents; a number too large to be
counted in cents goes to infinity, which is on the grid too. -/
theorem exists_toCent {x : Binary64} (h : x.isNaN = false) :
    ∃ s n, toCent x = ofQuotient s (n * one) 100 := by
  have hinfinity (s : Bool) : ∃ n, Binary64.infinity s = ofQuotient s (n * one) 100 := by
    refine ⟨units rankCount * 100, (ofQuotient_of_le ?_).symm⟩
    apply le_nearestRank (by omega)
    exact Nat.le_mul_of_pos_right _ one_pos
  cases x with
  | nan => simp [isNaN] at h
  | infinity s =>
      obtain ⟨n, hn⟩ := hinfinity s
      exact ⟨s, n, by rw [toCent_infinity, hn]⟩
  | finite s a =>
      by_cases hlt : nearestRank (units a * 100) 1 < rankCount
      · exact ⟨s, _, toCent_finite hlt⟩
      · obtain ⟨n, hn⟩ := hinfinity s
        refine ⟨s, n, ?_⟩
        rw [toCent, finite_mul_hundred, ofQuotient_of_le (Nat.not_lt.mp hlt), Binary64.round,
          infinity_div_hundred, hn]
        simp

theorem toCent_le_toCent {x y : Binary64} (h : x ≤ y) : toCent x ≤ toCent y := by
  obtain ⟨rank, heq, hne, -⟩ := exists_hundred
  rw [toCent, toCent, heq]
  exact Binary64.div_le_div_right hne (round_le_round (Binary64.mul_le_mul_right hne h))

/-- A price less than a quarter of a cent away from a whole number of cents comes to
that number a hundredfold: the multiplication adds an error of another quarter at
most. -/
theorem nearestWhole_hundredfold {a : Fin rankCount} {n : Nat} (hn : n ≤ 2 ^ (51 : Nat))
    (low : 4 * (n * one) ≤ 4 * (units a * 100) + one)
    (high : 4 * (units a * 100) < 4 * (n * one) + one) :
    nearestRank (units a * 100) 1 < rankCount ∧
      nearestWhole (units (nearestRank (units a * 100) 1)) = n := by
  have hbinade := binade_eq_two_mul
  have hone : one = 2 ^ (1 : Nat) * 2 ^ (1073 : Nat) := one_eq_mul (a := 1) (b := 1073) rfl
  have hunit : 0 < 2 ^ (1073 : Nat) := Nat.two_pow_pos 1073
  have hcount : n * one ≤ 2 ^ (51 : Nat) * one := Nat.mul_le_mul_right _ hn
  have hproduct : units a * 100 ≤ 3 * 2 ^ (51 : Nat) * 2 ^ (1073 : Nat) * 1 := by
    generalize 2 ^ (1073 : Nat) = unit at *
    omega
  obtain ⟨hrank, hscale⟩ := scale_nearestRank_le Nat.one_pos (by omega) (by omega) hproduct
  obtain ⟨near, far⟩ := nearestRank_error (units a * 100) Nat.one_pos
  have hstep := Nat.pow_le_pow_right Nat.two_pos hscale
  constructor
  · unfold rankCount
    omega
  · apply nearestWhole_eq <;> omega

/-- A price less than a quarter of a cent away from a whole number of cents is
rounded to it. -/
theorem toCent_of_near {s : Bool} {a : Fin rankCount} {n : Nat} (hn : n ≤ 2 ^ (51 : Nat))
    (low : 4 * (n * one) ≤ 4 * (units a * 100) + one)
    (high : 4 * (units a * 100) < 4 * (n * one) + one) :
    toCent (.finite s a) = ofQuotient s (n * one) 100 := by
  obtain ⟨hlt, hwhole⟩ := nearestWhole_hundredfold hn low high
  rw [toCent_finite hlt, hwhole]

/-- Up to `2 ^ 51` cents the numbers are finite and lie close together. -/
theorem scale_nearestRank_cents {n : Nat} (hn : n ≤ 2 ^ (51 : Nat)) :
    nearestRank (n * one) 100 < rankCount ∧ scale (nearestRank (n * one) 100) ≤ 1066 := by
  have hbinade := binade_eq_two_mul
  have hone : one = 2 ^ (8 : Nat) * 2 ^ (1066 : Nat) := one_eq_mul (a := 8) (b := 1066) rfl
  have hcount : n * one ≤ 2 ^ (51 : Nat) * one := Nat.mul_le_mul_right _ hn
  have hlow : binade ≤ 3 * 2 ^ (51 : Nat) := by omega
  have hhigh : 3 * 2 ^ (51 : Nat) < 2 * binade := by omega
  have hcents : n * one ≤ 3 * 2 ^ (51 : Nat) * 2 ^ (1066 : Nat) * 100 := by
    generalize 2 ^ (1066 : Nat) = unit at *
    omega
  obtain ⟨hrank, hscale⟩ := scale_nearestRank_le (show 0 < 100 by omega) hlow hhigh hcents
  refine ⟨?_, hscale⟩
  unfold rankCount
  omega

/-- The price of a whole number of cents is off by less than a quarter of a cent, up to
`2 ^ 51` cents: the error of the division comes back a hundredfold. -/
theorem nearestRank_cents_near {n : Nat} (hn : n ≤ 2 ^ (51 : Nat)) :
    nearestRank (n * one) 100 < rankCount ∧
      4 * (n * one) ≤ 4 * (units (nearestRank (n * one) 100) * 100) + one ∧
        4 * (units (nearestRank (n * one) 100) * 100) < 4 * (n * one) + one := by
  have hone : one = 2 ^ (8 : Nat) * 2 ^ (1066 : Nat) := one_eq_mul (a := 8) (b := 1066) rfl
  have hunit : 0 < 2 ^ (1066 : Nat) := Nat.two_pow_pos 1066
  obtain ⟨hlt, hscale⟩ := scale_nearestRank_cents hn
  obtain ⟨near, far⟩ := nearestRank_error (n * one) (show 0 < 100 by omega)
  have hstep := Nat.pow_le_pow_right Nat.two_pos hscale
  exact ⟨hlt, by omega, by omega⟩

/-- A price on the grid of cents stays where it is, up to `2 ^ 51` cents. -/
theorem toCent_ofQuotient (s : Bool) {n : Nat} (hn : n ≤ 2 ^ (51 : Nat)) :
    toCent (ofQuotient s (n * one) 100) = ofQuotient s (n * one) 100 := by
  obtain ⟨hlt, low, high⟩ := nearestRank_cents_near hn
  have hround : toCent (.finite s ⟨nearestRank (n * one) 100, hlt⟩) =
      ofQuotient s (n * one) 100 := toCent_of_near hn low high
  rwa [← ofQuotient_of_lt hlt] at hround

/-! ## The number of cents of a price -/

theorem cents_finite {s : Bool} {a : Fin rankCount}
    (h : nearestRank (units a * 100) 1 < rankCount) :
    cents (.finite s a) = max Int64.minValue.toInt (min Int64.maxValue.toInt
      (signed s (nearestWhole (units (nearestRank (units a * 100) 1))))) := by
  obtain ⟨rank, hround, hunits⟩ := exists_round_finite s ⟨_, h⟩
  rw [cents, finite_mul_hundred, ofQuotient_of_lt h, hround, toIntWithin, hunits,
    Nat.mul_div_cancel _ Binary64.one_pos]

/-- The cents that a price was made from are counted again, up to `2 ^ 51` of them. -/
theorem cents_ofQuotient (s : Bool) {n : Nat} (hn : n ≤ 2 ^ (51 : Nat)) :
    cents (ofQuotient s (n * one) 100) = signed s n := by
  obtain ⟨hlt, low, high⟩ := nearestRank_cents_near hn
  obtain ⟨hlt', hwhole⟩ := nearestWhole_hundredfold (a := ⟨_, hlt⟩) hn low high
  have hleast : Int64.minValue.toInt = -2 ^ 63 := by decide
  have hmost : Int64.maxValue.toInt = 2 ^ 63 - 1 := by decide
  rw [ofQuotient_of_lt hlt, cents_finite hlt', hwhole, hleast, hmost]
  cases s <;> simp only [signed_false, signed_true] <;> omega

/-! ## Whole numbers of cents -/

theorem ofCents_eq {cents : Int} (h : cents.natAbs ≤ 2 * binade) :
    ofCents cents = ofQuotient (decide (cents < 0)) (cents.natAbs * one) 100 := by
  obtain ⟨rank, heq, hunits⟩ := exists_whole (decide (cents < 0)) h
  rw [ofCents, ofInt, heq, finite_div_hundred _ hunits]

theorem ofCents_natCast {n : Nat} (hn : n ≤ 2 * binade) :
    ofCents n = ofQuotient false (n * one) 100 := by
  rw [ofCents_eq (by omega), decide_eq_false (by omega), Int.natAbs_natCast]

theorem cents_ofCents {c : Int} (hc : c.natAbs ≤ 2 ^ (51 : Nat)) : cents (ofCents c) = c := by
  have hbinade := binade_eq_two_mul
  rw [ofCents_eq (by omega), cents_ofQuotient _ hc, signed_natAbs]

theorem toCent_ofCents {c : Int} (hc : c.natAbs ≤ 2 ^ (51 : Nat)) :
    toCent (ofCents c) = ofCents c := by
  have hbinade := binade_eq_two_mul
  rw [ofCents_eq (by omega), toCent_ofQuotient _ hc]

/-- Prices in cents are finite and not negative, and in the order of the cents. -/
theorem ofCents_eq_finite {n : Nat} (hn : n ≤ 2 * binade) :
    ∃ h : nearestRank (n * one) 100 < rankCount,
      ofCents n = .finite false ⟨nearestRank (n * one) 100, h⟩ := by
  obtain ⟨top, -, hunits⟩ := exists_ofNat hn
  have hle : nearestRank (n * one) 100 ≤ top := by
    apply nearestRank_le (by omega)
    omega
  have hlt : nearestRank (n * one) 100 < rankCount := Nat.lt_of_le_of_lt hle top.isLt
  exact ⟨hlt, by rw [ofCents_natCast hn, ofQuotient_of_lt hlt]⟩

theorem exists_ofCents {n : Nat} (hn : n ≤ 2 * binade) :
    ∃ rank : Fin rankCount, ofCents n = .finite false rank := by
  obtain ⟨_, heq⟩ := ofCents_eq_finite hn
  exact ⟨_, heq⟩

theorem ofCents_le_ofCents {m n : Nat} (h : m ≤ n) (hn : n ≤ 2 * binade) :
    (ofCents m : Binary64) ≤ ofCents n := by
  rw [ofCents_natCast hn, ofCents_natCast (by omega)]
  refine le_iff.mpr ⟨isNaN_ofQuotient .., isNaN_ofQuotient .., ?_⟩
  rw [place_ofQuotient, place_ofQuotient]
  exact Int.ofNat_le.mpr (monotone_nearestUnits (by omega) (Nat.mul_le_mul_right _ h))

/-- A price that is exact in whole units of money, as a number of cents. -/
theorem ofNat_eq_ofCents {n : Nat} (hn : n * 100 ≤ 2 * binade) :
    ofNat n = ofCents (n * 100 : Nat) := by
  rw [ofCents_natCast hn, ofNat]
  exact ofQuotient_congr Nat.one_pos (by omega) (by ring)

end MarketTape.Price
