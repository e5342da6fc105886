import MarketTape.Proofs.Price.Text
import Mathlib.Algebra.Order.Field.Basic
import Mathlib.Algebra.Order.Field.Rat

/-!
# Prices that settle

A price need not be on the grid of cents before it is written. What is read back
then is less than a cent away from it, and is written with the same text, so that
prices change at most once however often they are written and read.
-/

namespace MarketTape.Price

open Binary64

-- Powers are the core library's, whichever others are in scope.
attribute [local instance (2000)] instPowNat

attribute [local irreducible] one units

variable {rank : Nat}

/-- Narrow steps stay narrow, since no magnitude below `2 ^ 46` is within half a
cent of it. -/
theorem scale_nearestRank_writtenCents (h : scale rank ≤ 1067) :
    scale (nearestRank (writtenCents rank * one) 100) ≤ 1067 := by
  have hone : one = 2 ^ (7 : Nat) * 2 ^ (1067 : Nat) := one_eq_mul (a := 7) (b := 1067) rfl
  have hunit : 0 < 2 ^ (1067 : Nat) := Nat.two_pow_pos 1067
  have hrank : rank ≤ (2 * binade - 1) + 1067 * binade := by
    have hlt := scale_le_iff.mp h
    omega
  have hunits : units rank ≤ (2 * binade - 1) * 2 ^ (1067 : Nat) := by
    rw [← units_window 1067 (by omega) (by omega)]
    exact units_le_units hrank
  have hbelow : (2 * binade - 1) * 2 ^ (1067 : Nat) + 2 ^ (1067 : Nat) = 2 ^ (46 : Nat) * one := by
    have hcount : (2 * binade - 1).succ = 2 ^ (46 : Nat) * 2 ^ (7 : Nat) := by decide
    rw [hone]
    generalize 2 ^ (1067 : Nat) = unit
    rw [← Nat.succ_mul, hcount, Nat.mul_assoc]
  have herror := (roundHalfEven_error (units rank * 100) Binary64.one_pos).2
  have hlt : writtenCents rank < 100 * 2 ^ (46 : Nat) := by
    apply Nat.lt_of_mul_lt_mul_right (a := one)
    rw [writtenCents]
    generalize 2 ^ (1067 : Nat) = unit at *
    omega
  have hmul := Nat.mul_le_mul_right one (Nat.succ_le_of_lt hlt)
  refine (scale_nearestRank_le (show 0 < 100 by omega) (show binade ≤ 2 * binade - 1 by omega)
    (by omega) ?_).2
  generalize 2 ^ (1067 : Nat) = unit at *
  rw [Nat.succ_mul] at hmul
  omega

/-- What is read back of a price is written as the same cents. -/
theorem writtenCents_nearestRank (rank : Nat) :
    writtenCents (nearestRank (writtenCents rank * one) 100) = writtenCents rank := by
  rcases Nat.lt_or_ge 1067 (scale rank) with hwide | hnarrow
  · rw [nearestRank_writtenCents_of_lt hwide]
  · exact writtenCents_of_narrow (scale_nearestRank_writtenCents hnarrow)

/-- What is read back of a price is less than a cent away: half a cent is lost in
the text, and less than half a cent in reading it. -/
theorem nearestRank_writtenCents_near (rank : Nat) :
    100 * units rank < 100 * units (nearestRank (writtenCents rank * one) 100) + one ∧
      100 * units (nearestRank (writtenCents rank * one) 100) < 100 * units rank + one := by
  rcases Nat.lt_or_ge 1067 (scale rank) with hwide | hnarrow
  · have hone := Binary64.one_pos
    rw [nearestRank_writtenCents_of_lt hwide]
    omega
  · have hone : one = 2 ^ (7 : Nat) * 2 ^ (1067 : Nat) := one_eq_mul (a := 7) (b := 1067) rfl
    have hunit : 0 < 2 ^ (1067 : Nat) := Nat.two_pow_pos 1067
    have hstep := Nat.pow_le_pow_right Nat.two_pos (scale_nearestRank_writtenCents hnarrow)
    obtain ⟨near, far⟩ := nearestRank_error (writtenCents rank * one) (show 0 < 100 by omega)
    obtain ⟨low, high⟩ := roundHalfEven_error (units rank * 100) Binary64.one_pos
    rw [← writtenCents] at low high
    constructor <;> omega

/-- What is read back of a finite price is finite. -/
theorem settled_finite (s : Bool) (a : Fin rankCount) :
    ∃ b : Fin rankCount, settled (.finite s a) = .finite s b ∧
      nearestRank (writtenCents a * one) 100 = b := by
  have hlt : nearestRank (writtenCents a * one) 100 < rankCount := by
    rcases Nat.lt_or_ge 1067 (scale a) with hwide | hnarrow
    · rw [nearestRank_writtenCents_of_lt hwide]
      exact a.isLt
    · have hrank := scale_le_iff.mp (scale_nearestRank_writtenCents hnarrow)
      unfold rankCount
      omega
  exact ⟨⟨_, hlt⟩, ofQuotient_of_lt hlt, rfl⟩

/-- What is read back of a price is written with the same text. -/
theorem text_settled (x : Binary64) : text (settled x) = text x := by
  cases x with
  | nan => rfl
  | infinity s => rfl
  | finite s a =>
      obtain ⟨b, hsettled, hrank⟩ := settled_finite s a
      have hcents := writtenCents_nearestRank a
      rw [hrank] at hcents
      rw [hsettled]
      change signText s ++ placesText 2 (writtenCents b) =
        signText s ++ placesText 2 (writtenCents a)
      rw [hcents]

/-- A finite price less than a cent away from another, or the very same where there
is no distance to tell. -/
def Near (x y : Binary64) : Prop :=
  if x.isFinite then y.isFinite = true ∧ |x.toRat - y.toRat| < 1 / 100 else y = x

theorem near_settled (x : Binary64) : Near x (settled x) := by
  cases x with
  | nan => rfl
  | infinity s => rfl
  | finite s a =>
      obtain ⟨b, hsettled, hrank⟩ := settled_finite s a
      obtain ⟨low, high⟩ := nearestRank_writtenCents_near a
      rw [hrank] at low high
      rw [hsettled]
      refine ⟨rfl, ?_⟩
      have hone : (0 : ℚ) < one := Nat.cast_pos.mpr Binary64.one_pos
      have hcents : |signed s (units a) - signed s (units b)| * 100 < (one : ℤ) := by
        rw [← abs_of_pos (show (0 : ℤ) < 100 by decide), ← abs_mul, abs_lt]
        cases s <;> simp only [signed_false, signed_true] <;> constructor <;> omega
      have hcast : |(signed s (units a) : ℚ) - signed s (units b)| * 100 < one := by
        exact_mod_cast hcents
      rw [toRat, toRat, Rat.mkRat_eq_div, Rat.mkRat_eq_div, ← sub_div, abs_div, abs_of_pos hone,
        div_lt_div_iff₀ hone (by norm_num), one_mul]
      exact hcast

end MarketTape.Price
