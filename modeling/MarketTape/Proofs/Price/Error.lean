import MarketTape.Proofs.Binary64.Error
import MarketTape.Proofs.Price.Cents

/-!
# What rounding to cents loses

A finite price is rounded to cents in three steps: it is multiplied by a hundred, the
product goes to the nearest whole number, and that is divided by a hundred again. The
second step loses up to half a cent and the other two a roundoff each. Only the first
can leave the finite numbers, and then the price is infinite.
-/

namespace MarketTape.Price

open Binary64

-- Powers are the core library's, whichever others are in scope.
attribute [local instance (2000)] instPowNat

attribute [local irreducible] one units

variable {x y : Binary64}

theorem isFinite_hundred : (100 : Binary64).isFinite = true := isFinite_ofNat (by decide)

theorem toRat_hundred : (100 : Binary64).toRat = 100 := toRat_ofNat (by decide)

theorem nearestWhole_error (count : Nat) :
    2 * (nearestWhole count * one) ≤ 2 * count + one ∧
      2 * count < 2 * (nearestWhole count * one) + one := by
  have hsplit := Nat.div_add_mod (2 * count + one) (2 * one)
  have hmod := Nat.mod_lt (2 * count + one) (show 0 < 2 * one from Nat.mul_pos Nat.two_pos one_pos)
  have hproduct : 2 * one * nearestWhole count = 2 * (nearestWhole count * one) := by ring
  rw [← nearestWhole] at hsplit
  omega

/-- The nearest whole number is at most a half away. -/
theorem exists_round (h : x.isFinite = true) :
    ∃ n : ℤ, x.round.isFinite = true ∧ x.round.toRat = n ∧ |(n : ℚ) - x.toRat| ≤ 1 / 2 := by
  obtain ⟨s, a, rfl⟩ := exists_finite h
  obtain ⟨rank, hround, hunits⟩ := exists_round_finite s a
  obtain ⟨low, high⟩ := nearestWhole_error (units a)
  have hone := one_cast_pos
  have hlow : (2 * (nearestWhole (units a) * one) : ℚ) ≤ 2 * units a + one := by exact_mod_cast low
  have hhigh : (2 * units a : ℚ) < 2 * (nearestWhole (units a) * one) + one := by
    exact_mod_cast high
  refine ⟨signed s (nearestWhole (units a)), by rw [hround]; rfl, ?_, ?_⟩
  · rw [hround, toRat_finite, hunits, cast_signed, cast_signed s (nearestWhole _), Nat.cast_mul,
      ← mul_assoc, mul_div_cancel_right₀ _ hone.ne']
  · rw [toRat_finite, cast_signed, cast_signed s (units a), mul_div_assoc, ← mul_sub, abs_mul,
      abs_signed_one, one_mul, abs_le]
    constructor
    · rw [le_sub_iff_add_le, ← le_sub_iff_add_le', div_le_iff₀ hone]
      linarith
    · rw [sub_le_iff_le_add, ← sub_le_iff_le_add', le_div_iff₀ hone]
      linarith

theorem isFinite_of_mul_hundred (h : (x * 100).isFinite = true) : x.isFinite = true := by
  cases x with
  | nan => cases h
  | infinity s =>
      rw [infinity_mul_hundred] at h
      cases h
  | finite s a => rfl

/-- The sign of a number has no say in whether it can be counted in cents. -/
theorem isFinite_negate_mul_hundred (x : Binary64) :
    (x.negate * 100).isFinite = (x * 100).isFinite := by
  cases x with
  | nan => rfl
  | infinity s => rw [negate_infinity, infinity_mul_hundred, infinity_mul_hundred]; rfl
  | finite s a =>
      rw [negate_finite, finite_mul_hundred, finite_mul_hundred, Bool.eq_iff_iff,
        isFinite_ofQuotient_iff, isFinite_ofQuotient_iff]

/-- Numbers up to `2 ^ 93` can be counted in cents. -/
theorem isFinite_mul_hundred (hx : x.isFinite = true) (h : |x.toRat| ≤ 2 ^ 93) :
    (x * 100).isFinite = true := by
  apply isFinite_mul hx isFinite_hundred
  rw [toRat_hundred, abs_mul, abs_of_pos (show (0 : ℚ) < 100 by norm_num)]
  linarith

/-- A finite price of which the hundredfold is infinite is rounded to infinity. -/
theorem toCent_of_not_isFinite {s : Bool} {a : Fin rankCount}
    (h : (.finite s a * 100 : Binary64).isFinite = false) :
    toCent (.finite s a) = .infinity s := by
  rw [finite_mul_hundred] at h
  have hlarge : rankCount ≤ nearestRank (units a * 100) 1 :=
    Nat.not_lt.mp (mt isFinite_ofQuotient_iff.mpr (by rw [h]; exact Bool.false_ne_true))
  rw [toCent, finite_mul_hundred, ofQuotient_of_le hlarge]
  exact infinity_div_hundred s

/-- Rounding to cents stays finite exactly if the price can be counted in cents. -/
theorem isFinite_toCent_iff : (toCent x).isFinite = true ↔ (x * 100).isFinite = true := by
  constructor
  · intro h
    cases x with
    | nan => cases h
    | infinity s =>
        rw [toCent_infinity] at h
        cases h
    | finite s a =>
        by_contra hnot
        rw [toCent_of_not_isFinite (Bool.eq_false_iff.mpr hnot)] at h
        cases h
  · intro h
    obtain ⟨s, a, hproduct⟩ := exists_finite h
    obtain ⟨rank, hround, hunits⟩ := exists_round_finite s a
    have hle : nearestRank (units rank) 100 ≤ rank :=
      nearestRank_le (by omega) (Nat.le_mul_of_pos_right _ (by omega))
    rw [toCent, hproduct, hround, finite_div_hundred s hunits, isFinite_ofQuotient_iff, ← hunits]
    exact Nat.lt_of_le_of_lt hle rank.isLt

/-- The whole cents that a price is rounded to: half a cent from its exact hundredfold,
but for a roundoff. -/
theorem exists_cents (h : (x * 100).isFinite = true) :
    ∃ n : ℤ, |(n : ℚ) - 100 * x.toRat| ≤ 1 / 2 + 100 * |x.toRat| * roundoff + underflow ∧
      (toCent x).Rounds (n / 100) ∧ (n.natAbs ≤ 2 ^ (51 : Nat) → cents (toCent x) = n) := by
  have hx := isFinite_of_mul_hundred h
  obtain ⟨n, hfinite, hvalue, hnear⟩ := exists_round h
  have hproduct := (rounds_mul hx isFinite_hundred h).near
  rw [toRat_hundred, mul_comm _ 100, abs_mul, abs_of_pos (show (0 : ℚ) < 100 by norm_num)]
    at hproduct
  refine ⟨n, ?_, ?_, ?_⟩
  · calc |(n : ℚ) - 100 * x.toRat|
        ≤ |(n : ℚ) - (x * 100).toRat| + |(x * 100).toRat - 100 * x.toRat| := abs_sub_le _ _ _
      _ ≤ 1 / 2 + (100 * |x.toRat| * roundoff + underflow) := add_le_add hnear hproduct
      _ = _ := by ring
  · have hrounds := rounds_div hfinite isFinite_hundred (by rw [toRat_hundred]; norm_num)
      (isFinite_toCent_iff.mpr h)
    rwa [hvalue, toRat_hundred] at hrounds
  · intro hn
    obtain ⟨s, k, hk⟩ : ∃ s k, n = signed s k ∧ toCent x = ofQuotient s (k * one) 100 := by
      obtain ⟨s, a, ha⟩ := exists_finite h
      obtain ⟨rank, hround, hunits⟩ := exists_round_finite s a
      refine ⟨s, nearestWhole (units a), ?_, ?_⟩
      · rw [ha, hround, toRat_finite, hunits, cast_signed, Nat.cast_mul, ← mul_assoc,
          mul_div_cancel_right₀ _ one_cast_pos.ne', ← cast_signed] at hvalue
        exact_mod_cast hvalue.symm
      · rw [toCent, ha, hround, finite_div_hundred s hunits]
    obtain ⟨rfl, hprice⟩ := hk
    have hcount : (signed s k).natAbs = k := by
      cases s <;> simp
    rw [hprice, cents_ofQuotient s (hcount ▸ hn)]

/-- The whole cents that a sum is rounded to, by its exact value. Of the five roundings
on the way only the one to whole cents is more than a trace. -/
theorem exists_cents_add (hx : x.isFinite = true) (hy : y.isFinite = true)
    (h : ((x + y) * 100).isFinite = true) :
    ∃ n : ℤ,
      |(n : ℚ) - 100 * (x.toRat + y.toRat)| ≤ 1 / 2 + (|x.toRat + y.toRat| + 1) / 2 ^ 45 ∧
      |(toCent (x + y)).toRat - (x.toRat + y.toRat)| ≤
        1 / 200 + (|x.toRat + y.toRat| + 1) / 2 ^ 50 ∧
      (n.natAbs ≤ 2 ^ (51 : Nat) → cents (toCent (x + y)) = n) := by
  obtain ⟨n, hcents, hprice, hcount⟩ := exists_cents h
  have hsum := (rounds_add hx hy (isFinite_of_mul_hundred h)).near
  have hdivided := hprice.near
  have hsmall := underflow_le
  rw [roundoff] at hcents hsum hdivided
  generalize x.toRat + y.toRat = exact at *
  generalize (x + y).toRat = sum at *
  have hsize := abs_sub_abs_le_abs_sub sum exact
  have hwhole : |(n : ℚ) / 100 - sum| ≤ (1 / 2 + 100 * |sum| * (1 / 2 ^ 53) + underflow) / 100 := by
    rw [show (n : ℚ) / 100 - sum = (n - 100 * sum) / 100 by ring, abs_div,
      abs_of_pos (show (0 : ℚ) < 100 by norm_num)]
    exact div_le_div_of_nonneg_right hcents (by norm_num)
  have hlarge := abs_sub_abs_le_abs_sub ((n : ℚ) / 100) sum
  have hpos := abs_nonneg exact
  refine ⟨n, ?_, ?_, hcount⟩
  · have hsplit := abs_sub_le (n : ℚ) (100 * sum) (100 * exact)
    rw [← mul_sub 100 sum, abs_mul, abs_of_pos (show (0 : ℚ) < 100 by norm_num)] at hsplit
    linarith
  · have hsplit := abs_sub_le (toCent (x + y)).toRat ((n : ℚ) / 100) exact
    have hsplit' := abs_sub_le ((n : ℚ) / 100) sum exact
    linarith

end MarketTape.Price
